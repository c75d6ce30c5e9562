/-
  What the stores of the pool's functions do to the pool in memory.

  A store into a table or into a field of a block that memory holds changes that entry or
  that field, and nothing else (`Models.setEntry`, `Models.setHead`): the words of each table
  and each header are in use only once. So the ends of `mem_pool_malloc` and `mem_pool_free`
  do to the memory what they do to a block (`Models.takeSlot`, `Models.putBack`), and so does
  the linking in of a new block (`Models.link`).
-/
import GameServer.MemPool.Bump
import GameServer.RawPool.View

namespace GameServer.RawPool

open CInt Memory
open Pool (MemBlock Heap sizeofMemBlock sizeofMemPool sizeofInt Linked allocated endOfMem)

variable {m m' : Mem} {w w' : World} {pool : Int} {h : Heap} {b c : MemBlock}
  {blocks : List MemBlock} {pos : Nat}

/-! ## Frames -/

theorem Header.congr (hs : Header m blocks b) (hd : Shaped b) (hsame : SameOn b.headerAt m m') :
    Header m' blocks b := by
  have hsize := hd.header
  unfold sizeofMemBlock at hsize
  refine ⟨Eq.trans ?_ hs.elemNum, Eq.trans ?_ hs.elemSize, Eq.trans ?_ hs.head,
    Eq.trans ?_ hs.tail, Eq.trans ?_ hs.table, Eq.trans ?_ hs.data, Eq.trans ?_ hs.next⟩
  · exact hsame.loadInt (by omega) (by omega)
  · exact hsame.loadInt (by omega) (by omega)
  · exact hsame.loadInt (by omega) (by omega)
  · exact hsame.loadInt (by omega) (by omega)
  · exact hsame.loadPtr (by omega) (by omega)
  · exact hsame.loadPtr (by omega) (by omega)
  · exact hsame.loadPtr (by omega) (by omega)

/-- An entry of a table lies in its words. -/
theorem entry_bounds {p n i : Int} (hi : InTable n i) :
    (wordsAt p n).base ≤ p + 4 * i ∧ p + 4 * i + 4 ≤ (wordsAt p n).base + (wordsAt p n).size := by
  obtain ⟨hlo, hhi⟩ := hi
  unfold wordsAt
  dsimp only
  omega

theorem SameOn.ints {p n i : Int} (hsame : SameOn (wordsAt p n) m m') (hi : InTable n i) :
    ints m' p i = ints m p i := by
  obtain ⟨hlo, hhi⟩ := entry_bounds (p := p) hi
  exact hsame.loadInt hlo hhi

theorem Stored.congr (hs : Stored m blocks b) (hd : Shaped b) (hheader : SameOn b.headerAt m m')
    (hwords : SameOn (words b) m m') : Stored m' blocks b :=
  ⟨hs.header.congr hd hheader, fun i hi => (SameOn.ints hwords hi).trans (hs.entries i hi)⟩

theorem Fields.congr (hf : Fields m pool h) (hpool : SameOn ⟨pool, sizeofMemPool⟩ m m') :
    Fields m' pool h := by
  have hint : ∀ p, pool ≤ p → p + 4 ≤ pool + 32 → loadInt m' p = loadInt m p :=
    fun p hlo hhi => hpool.loadInt hlo hhi
  have hptr : ∀ p, pool ≤ p → p + 8 ≤ pool + 32 → loadPtr m' p = loadPtr m p :=
    fun p hlo hhi => hpool.loadPtr hlo hhi
  exact ⟨(hint _ (by omega) (by omega)).trans hf.elemSize,
    (hint _ (by omega) (by omega)).trans hf.elemNum,
    (hint _ (by omega) (by omega)).trans hf.elemTotal,
    (hptr _ (by omega) (by omega)).trans hf.head,
    (hptr _ (by omega) (by omega)).trans hf.tail⟩

/-- The pool stays as long as the bytes it lives in do; more memory may be obtained. -/
theorem Models.congr (hm : Models w pool h)
    (hsame : ∀ r ∈ control h, SameOn r w.bytes w'.bytes) {more : List Region}
    (hobt : w'.obtained = more ++ w.obtained) (hrel : w'.released = w.released) :
    Models w' pool { h with obtained := more ++ h.obtained } := by
  have hfields := hm.fields.congr (hm.poolAt ▸ hsame _ (poolAt_mem_control h))
  exact
    { poolAt := hm.poolAt
      fields := { hfields with }
      stored := fun b hb => (hm.stored b hb).congr (hm.shaped b hb)
        (hsame _ (headerAt_mem_control hb)) (hsame _ (words_mem_control hb))
      shaped := hm.shaped
      shape := hm.shape.imp (fun hl => { hl with }) id
      apart := hm.apart
      obtained := by rw [hobt, hm.obtained]
      requested := fun b hb => by
        rw [hobt]
        exact List.mem_append_right _ (hm.requested b hb)
      count := by
        rw [hobt, List.length_append]
        exact Nat.le_add_left_of_le hm.count
      released := ⟨hm.released.1, hrel.trans hm.released.2⟩
      bytes := hm.bytes }

theorem Models.congr_bytes (hm : Models w pool h)
    (hsame : ∀ r ∈ control h, SameOn r w.bytes m') : Models { w with bytes := m' } pool h := by
  show Models { w with bytes := m' } pool { h with obtained := [] ++ h.obtained }
  exact hm.congr hsame rfl rfl

/-! ## Where things are -/

section Apart

variable (hm : Models w pool h)
include hm

/-- The regions of one block. -/
theorem Models.apart_self (hb : b ∈ h.blocks) : b.dataAt.Apart (words b) ∧
    b.dataAt.Apart b.headerAt ∧ (words b).Apart b.headerAt := by
  have hpw := (List.pairwise_append.1 hm.apart).1
  rw [List.pairwise_flatMap] at hpw
  simpa [extents, and_assoc] using hpw.1 b hb

theorem Models.apart_pool (hb : b ∈ h.blocks) {r : Region} (hr : r ∈ extents b) :
    r.Apart ⟨pool, sizeofMemPool⟩ := by
  rw [← hm.poolAt]
  exact (List.pairwise_append.1 hm.apart).2.2 r (List.mem_flatMap.2 ⟨b, hb, hr⟩) _
    (List.mem_singleton_self _)

/-- The regions of two blocks. -/
theorem Models.apart_of_ne {i : Nat} (hb : h.blocks[pos]? = some b) (hc : h.blocks[i]? = some c)
    (hne : i ≠ pos) : ∀ r ∈ extents c, ∀ r' ∈ extents b, Region.Apart r r' := by
  have hsymm : ∀ x y : MemBlock, (∀ r ∈ extents x, ∀ r' ∈ extents y, Region.Apart r r') →
      ∀ r ∈ extents y, ∀ r' ∈ extents x, Region.Apart r r' :=
    fun x y hxy r hr r' hr' => (hxy r' hr' r hr).symm
  exact (ListUpdate.eq_or_rel_of_pairwise hsymm hm.apart_blocks hc hb).resolve_left hne

end Apart

/-! ## Stores into a block -/

theorem inUse_set {b' : MemBlock} (hb : h.blocks[pos]? = some b) (hext : extents b' = extents b) :
    inUse { h with blocks := h.blocks.set pos b' } = inUse h := by
  unfold inUse
  rw [List.flatMap_def, List.flatMap_def, ListUpdate.map_set_eq hb hext]

/-- A change of a block's `head` and table, in its own header and words. -/
theorem Models.update (hm : Models w pool h) (hb : h.blocks[pos]? = some b) {v : Int}
    {t : Int → Int} (hst : Stored m' h.blocks { b with head := v, table := t })
    (hrest : ∀ i, ¬ InTable b.elemNum i → t i = 0)
    (hout : ∀ r : Region, r.Apart (words b) → r.Apart b.headerAt → SameOn r w.bytes m') :
    Models { w with bytes := m' } pool
      { h with blocks := h.blocks.set pos { b with head := v, table := t } } := by
  have hmem := List.mem_of_getElem? hb
  have haddr : ∀ o, addr (h.blocks.set pos { b with head := v, table := t }) o =
      addr h.blocks o := addr_congr (ListUpdate.map_set_eq hb rfl)
  have huse : inUse { h with blocks := h.blocks.set pos { b with head := v, table := t } } =
      inUse h := inUse_set hb rfl
  have hfields := hm.fields.congr (hout _ (hm.apart_pool hmem (words_mem_extents b)).symm
    (hm.apart_pool hmem (headerAt_mem_extents b)).symm)
  exact
    { poolAt := hm.poolAt
      fields := { hfields with
        head := by rw [haddr]; exact hfields.head
        tail := by rw [haddr]; exact hfields.tail }
      stored := by
        intro c hc
        obtain ⟨i, hi⟩ := List.mem_iff_getElem?.1 hc
        suffices hs : Stored m' h.blocks c from
          ⟨{ hs.header with next := by rw [haddr]; exact hs.header.next }, hs.entries⟩
        rcases ListUpdate.set_cases hi with ⟨rfl, rfl⟩ | ⟨hne, hold⟩
        · exact hst
        · have hc' := List.mem_of_getElem? hold
          have hapart := hm.apart_of_ne hb hold hne
          have hsame : ∀ r ∈ extents c, SameOn r w.bytes m' := fun r hr =>
            hout r (hapart r hr _ (words_mem_extents b)) (hapart r hr _ (headerAt_mem_extents b))
          exact (hm.stored c hc').congr (hm.shaped c hc') (hsame _ (headerAt_mem_extents c))
            (hsame _ (words_mem_extents c))
      shaped := ListUpdate.forall_set hm.shaped pos { hm.shaped b hmem with rest := hrest }
      shape := hm.shape.imp (fun hl => hl.set hb rfl) fun hnone => by
        rw [hnone.1] at hb
        cases hb
      apart := by
        rw [huse]
        exact hm.apart
      obtained := hm.obtained
      requested := ListUpdate.forall_set hm.requested pos (hm.requested b hmem)
      count := by
        rw [List.length_set]
        exact hm.count
      released := hm.released
      bytes := hm.bytes }

/-- `block->table[i] = v` -/
theorem Models.setEntry (hm : Models w pool h) (hb : h.blocks[pos]? = some b) {i v : Int}
    (hi : InTable b.elemNum i) (hv : InInt v) :
    Models (w.setEntry b.headerAt.base i v) pool
      { h with blocks := h.blocks.set pos { b with table := Function.update b.table i v } } := by
  have hmem := List.mem_of_getElem? hb
  have hs := hm.stored b hmem
  have hbytes : (w.setEntry b.headerAt.base i v).bytes =
      storeInt w.bytes (b.tableAt.base + 4 * i) v := by
    unfold World.setEntry World.setInt
    rw [hs.header.table]
  have hout : ∀ r : Region, r.Apart (words b) →
      SameOn r w.bytes (storeInt w.bytes (b.tableAt.base + 4 * i) v) := by
    intro r hr
    obtain ⟨hlo, hhi⟩ := entry_bounds (p := b.tableAt.base) hi
    unfold Region.Apart words at hr
    exact sameOn_storeInt (by omega)
  have hheader := hs.header.congr (hm.shaped b hmem) (hout _ (hm.apart_self hmem).2.2.symm)
  show Models { w with bytes := (w.setEntry b.headerAt.base i v).bytes } pool _
  rw [hbytes]
  refine hm.update hb (v := b.head) ⟨{ hheader with }, fun j hj => ?_⟩ (fun j hj => ?_)
    fun r hr _ => hout r hr
  · show ints _ _ j = Function.update b.table i v j
    rw [ints_storeInt _ _ _ hv]
    by_cases hji : j = i
    · rw [hji, Function.update_self, Function.update_self]
    · rw [Function.update_of_ne hji, Function.update_of_ne hji]
      exact hs.entries j hj
  · have hji : j ≠ i := by
      rintro rfl
      exact hj hi
    rw [Function.update_of_ne hji]
    exact (hm.shaped b hmem).rest j hj

/-- It changes the words of the table only. -/
theorem Models.setEntry_bytes (hm : Models w pool h) (hb : b ∈ h.blocks) {i v a : Int}
    (hi : InTable b.elemNum i) (ha : ¬ (words b).Contains a) :
    (w.setEntry b.headerAt.base i v).bytes a = w.bytes a := by
  obtain ⟨hlo, hhi⟩ := entry_bounds (p := b.tableAt.base) hi
  unfold Region.Contains words at ha
  unfold World.setEntry World.setInt
  rw [(hm.stored b hb).header.table]
  exact sameOn_storeInt (r := ⟨a, 1⟩) (by dsimp only; omega) a ⟨Int.le_refl a, Int.lt_succ a⟩

/-- `block->head = v` -/
theorem Models.setHead (hm : Models w pool h) (hb : h.blocks[pos]? = some b) {v : Int}
    (hv : InInt v) :
    Models (w.setInt (b.headerAt.base + 8) v) pool
      { h with blocks := h.blocks.set pos { b with head := v } } := by
  have hmem := List.mem_of_getElem? hb
  have hs := hm.stored b hmem
  have hsize := (hm.shaped b hmem).header
  unfold sizeofMemBlock at hsize
  have hout : ∀ r : Region, r.Apart b.headerAt →
      SameOn r w.bytes (storeInt w.bytes (b.headerAt.base + 8) v) := by
    intro r hr
    unfold Region.Apart at hr
    exact sameOn_storeInt (by omega)
  show Models { w with bytes := storeInt w.bytes (b.headerAt.base + 8) v } pool _
  refine hm.update hb (v := v) (t := b.table) ⟨?_, ?_⟩ (hm.shaped b hmem).rest
    fun r _ hr => hout r hr
  · have hptr : ∀ q, b.headerAt.base + 12 ≤ q →
        loadPtr (storeInt w.bytes (b.headerAt.base + 8) v) q = loadPtr w.bytes q :=
      fun q hq => loadPtr_storeInt_of_apart (by omega)
    have hint : ∀ q, q + 4 ≤ b.headerAt.base + 8 ∨ b.headerAt.base + 12 ≤ q →
        loadInt (storeInt w.bytes (b.headerAt.base + 8) v) q = loadInt w.bytes q :=
      fun q hq => loadInt_storeInt_of_apart (by omega)
    exact
      { elemNum := (hint b.headerAt.base (by omega)).trans hs.header.elemNum
        elemSize := (hint (b.headerAt.base + 4) (by omega)).trans hs.header.elemSize
        head := loadInt_storeInt _ _ hv
        tail := (hint (b.headerAt.base + 12) (by omega)).trans hs.header.tail
        table := (hptr (b.headerAt.base + 16) (by omega)).trans hs.header.table
        data := (hptr (b.headerAt.base + 24) (by omega)).trans hs.header.data
        next := (hptr (b.headerAt.base + 32) (by omega)).trans hs.header.next }
  · exact fun i hi => (SameOn.ints (hout _ (hm.apart_self hmem).2.2) hi).trans (hs.entries i hi)

/-- The end of `mem_pool_malloc` on a block that memory holds. -/
theorem Models.takeSlot (hm : Models w pool h) (hb : h.blocks[pos]? = some b)
    (hin : InTable b.elemNum b.head) :
    (w.takeSlot b.headerAt.base).1 = b.take.1 ∧
      Models (w.takeSlot b.headerAt.base).2 pool
        { h with blocks := h.blocks.set pos b.take.2 } := by
  have hs := hm.stored b (List.mem_of_getElem? hb)
  have hlt := (List.getElem?_eq_some_iff.1 hb).1
  have hentry : entry w.bytes b.headerAt.base b.head = b.table b.head := by
    unfold entry
    rw [hs.header.table, hs.entries _ hin]
  have hint : InInt (b.table b.head) := by
    rw [← hs.entries _ hin]
    exact inInt_loadInt _ _
  have hmarked := hm.setEntry hb hin (v := allocated) (by decide)
  have hb' : (h.blocks.set pos { b with table := Function.update b.table b.head allocated })[pos]? =
      some { b with table := Function.update b.table b.head allocated } := by
    simp [hlt]
  have htaken := hmarked.setHead hb' hint
  have hdata := (htaken.stored _ (List.mem_of_getElem? (i := pos) (by
    rw [List.set_set]
    exact List.getElem?_set_self hlt))).header.data
  rw [List.set_set] at htaken
  unfold World.takeSlot
  simp only [hs.header.head, hs.header.elemSize, hentry]
  exact ⟨by rw [hdata]; rfl, htaken⟩

/-- The end of `mem_pool_free` on a block that memory holds. -/
theorem Models.putBack (hm : Models w pool h) (hb : h.blocks[pos]? = some b) {offset : Int}
    (hlo : 0 ≤ offset) (hhi : offset < b.elemNum) (hint : InInt offset) :
    ∃ w', (w.setEntry b.headerAt.base (tail w.bytes b.headerAt.base) offset).setEntry
        b.headerAt.base offset endOfMem = w' ∧
      Models w' pool { h with blocks := h.blocks.set pos (b.putBack offset) } ∧
      ∀ a, ¬ (words b).Contains a → w'.bytes a = w.bytes a := by
  have hmem := List.mem_of_getElem? hb
  have hs := hm.stored b hmem
  have htail := (hm.shaped b hmem).tail
  have hlt := (List.getElem?_eq_some_iff.1 hb).1
  have hatTail : InTable b.elemNum b.tail := ⟨by omega, by omega⟩
  have hatOffset : InTable b.elemNum offset :=
    ⟨Int.le_trans (Int.min_le_left _ _) hlo, Int.le_of_lt hhi⟩
  have hstored := hm.setEntry hb hatTail hint
  have hb' : (h.blocks.set pos { b with table := Function.update b.table b.tail offset })[pos]? =
      some { b with table := Function.update b.table b.tail offset } := by
    simp [hlt]
  have hended := hstored.setEntry hb' hatOffset (v := endOfMem) (by decide)
  rw [List.set_set] at hended
  rw [hs.header.tail]
  refine ⟨_, rfl, hended, fun a ha => ?_⟩
  exact (hstored.setEntry_bytes (List.mem_of_getElem? hb') hatOffset ha).trans
    (hm.setEntry_bytes hmem hatTail ha)

/-! ## A new block -/

theorem inUse_link (h : Heap) (b : MemBlock) :
    (inUse (h.link (h.blocks.length - 1) b)).Perm (extents b ++ inUse h) := by
  unfold inUse Heap.link
  dsimp only
  rw [List.flatMap_def, Pool.map_extended fun _ _ => rfl, List.flatten_append,
    List.flatten_singleton, ← List.flatMap_def, List.append_assoc]
  exact List.perm_append_comm_assoc _ _ _

/-- Linking a block in moves no header. -/
theorem addr_link (h : Heap) (b : MemBlock) (tail : Nat) :
    (∀ o : Option Nat, (∀ pos ∈ o, pos < h.blocks.length) →
      addr (h.link tail b).blocks o = addr h.blocks o) ∧
      addr (h.link tail b).blocks (some h.blocks.length) = b.headerAt.base := by
  constructor
  · intro o ho
    cases o with
    | none => rfl
    | some pos =>
      have hlt := ho pos rfl
      unfold addr Heap.link
      simp only [Option.bind_some]
      rw [List.getElem?_append_left (by simpa using hlt), List.getElem?_modify]
      cases h.blocks[pos]? <;> simp only [Option.map_eq_map, Option.map_some, Option.map_none]
      split <;> rfl
  · refine addr_some ?_
    simp [Heap.link]

/-- The last block, once its `next` leads to a new one. -/
theorem Header.setNext {p : Int} (hs : Header m blocks b) {blocks' : List MemBlock}
    {n : Nat} (haddr : addr blocks' (some n) = p) (hlo : 0 ≤ p) (hhi : p < 2 ^ 64) :
    Header (storePtr m (b.headerAt.base + 32) p) blocks' (b.setNext n) := by
  have hint : ∀ q, q + 4 ≤ b.headerAt.base + 32 →
      loadInt (storePtr m (b.headerAt.base + 32) p) q = loadInt m q :=
    fun q hq => loadInt_storePtr_of_apart (by omega)
  have hptr : ∀ q, q + 8 ≤ b.headerAt.base + 32 →
      loadPtr (storePtr m (b.headerAt.base + 32) p) q = loadPtr m q :=
    fun q hq => loadPtr_storePtr_of_apart (by omega)
  exact
    { elemNum := (hint b.headerAt.base (by omega)).trans hs.elemNum
      elemSize := (hint (b.headerAt.base + 4) (by omega)).trans hs.elemSize
      head := (hint (b.headerAt.base + 8) (by omega)).trans hs.head
      tail := (hint (b.headerAt.base + 12) (by omega)).trans hs.tail
      table := (hptr (b.headerAt.base + 16) (by omega)).trans hs.table
      data := (hptr (b.headerAt.base + 24) (by omega)).trans hs.data
      next := (loadPtr_storePtr _ _ hlo hhi).trans haddr.symm }

/-- The fields of the pool, once it ends with a new block. -/
theorem Fields.link {p : Int} (hf : Fields m pool h) (hl : Linked h)
    (hp : p = b.headerAt.base) (hlo : 0 ≤ p) (hhi : p < 2 ^ 64) :
    Fields (storeInt (storePtr m (pool + 24) p) (pool + 8)
        (i32 (h.pool.elemTotal + h.pool.elemNum))) pool (h.link (h.blocks.length - 1) b) := by
  obtain ⟨haddr, hlast⟩ := addr_link h b (h.blocks.length - 1)
  have hint : ∀ q x, q + 4 ≤ pool + 8 →
      loadInt (storeInt (storePtr m (pool + 24) p) (pool + 8) x) q = loadInt m q :=
    fun q x hq => (loadInt_storeInt_of_apart (by omega)).trans
      (loadInt_storePtr_of_apart (by omega))
  have hhead : addr (h.link (h.blocks.length - 1) b).blocks h.pool.head =
      addr h.blocks h.pool.head := by
    refine haddr _ fun pos hpos => ?_
    rw [hl.head, Option.mem_some_iff] at hpos
    rw [← hpos]
    exact hl.nonempty
  exact
    { elemSize := (hint pool _ (by omega)).trans hf.elemSize
      elemNum := (hint (pool + 4) _ (by omega)).trans hf.elemNum
      elemTotal := loadInt_storeInt _ _ (inInt_i32 _)
      head := ((loadPtr_storeInt_of_apart (by omega)).trans
        (loadPtr_storePtr_of_apart (by omega))).trans (hf.head.trans hhead.symm)
      tail := ((loadPtr_storeInt_of_apart (by omega)).trans
        (loadPtr_storePtr _ _ hlo hhi)).trans (hp.trans hlast.symm) }

/-- The store of `next` stays in its header. -/
theorem sameOn_next {r : Region} (hd : Shaped c) (hr : r.Apart c.headerAt) (m : Mem) (p : Int) :
    SameOn r m (storePtr m (c.headerAt.base + 32) p) := by
  have hsize := hd.header
  unfold sizeofMemBlock at hsize
  unfold Region.Apart at hr
  exact sameOn_storePtr (by omega)

/-- The stores of `tail` and `elem_total` stay in `mem_pool_t`. -/
theorem sameOn_counters {r : Region} (hr : r.Apart ⟨pool, sizeofMemPool⟩) (m : Mem) (x y : Int) :
    SameOn r m (storeInt (storePtr m (pool + 24) x) (pool + 8) y) := by
  unfold Region.Apart sizeofMemPool at hr
  dsimp only at hr
  exact (sameOn_storePtr (by omega)).trans (sameOn_storeInt (by omega))

/-- The stores of `World.link`: in the header of the last block, and then in `mem_pool_t`. -/
def linked (m : Mem) (pool last block total : Int) : Mem :=
  storeInt (storePtr (storePtr m (last + 32) block) (pool + 24) block) (pool + 8) total

theorem sameOn_linked {r : Region} (hd : Shaped c) (hr : r.Apart c.headerAt)
    (hr' : r.Apart ⟨pool, sizeofMemPool⟩) (m : Mem) (p total : Int) :
    SameOn r m (linked m pool c.headerAt.base p total) :=
  (sameOn_next hd hr m p).trans (sameOn_counters hr' _ p total)

section Link

variable (hm : Models w pool h) (hl : Linked h) {last : MemBlock}
  (hlast : h.blocks[h.blocks.length - 1]? = some last)
include hm hl hlast

theorem Models.link_bytes (p : Int) : (w.link pool p).bytes =
    linked w.bytes pool last.headerAt.base p (i32 (h.pool.elemTotal + h.pool.elemNum)) := by
  have hmem := List.mem_of_getElem? hlast
  have hpoolAt := hm.apart_pool hmem (headerAt_mem_extents last)
  have hfields := hm.fields.congr (sameOn_next (hm.shaped last hmem) hpoolAt.symm w.bytes p)
  have htail : poolTail w.bytes pool = last.headerAt.base := by
    rw [hm.fields.tail, hl.tail, addr_some hlast]
  have htotal := (loadInt_storePtr_of_apart (p := pool + 24) (x := p) (q := pool + 8)
    (by omega)).trans hfields.elemTotal
  have hnum := (loadInt_storePtr_of_apart (p := pool + 24) (x := p) (q := pool + 4)
    (by omega)).trans hfields.elemNum
  unfold World.link World.setInt World.setPtr linked
  dsimp only
  rw [htail]
  unfold poolElemTotal poolElemNum
  rw [htotal, hnum]

/-- The blocks that were in the list. Only the last of them gets another `next`. -/
theorem Models.stored_link (hd : Shaped b) {i : Nat} (hc : h.blocks[i]? = some c) (total : Int) :
    Stored (linked w.bytes pool last.headerAt.base b.headerAt.base total)
      (h.link (h.blocks.length - 1) b).blocks { c with next := some (i + 1) } := by
  have hmem := List.mem_of_getElem? hc
  have hlt := (List.getElem?_eq_some_iff.1 hc).1
  have hs := hm.stored c hmem
  have hdc := hm.shaped c hmem
  have hdl := hm.shaped last (List.mem_of_getElem? hlast)
  obtain ⟨haddr, hnew⟩ := addr_link h b (h.blocks.length - 1)
  have hwp := hm.apart_pool hmem (words_mem_extents c)
  have hhp := hm.apart_pool hmem (headerAt_mem_extents c)
  by_cases hend : i = h.blocks.length - 1
  · obtain rfl : c = last := Option.some.inj (hc.symm.trans (hend ▸ hlast))
    have hi : i + 1 = h.blocks.length := by omega
    have hset := hs.header.setNext hnew (Int.le_of_lt hd.pos) hd.lt
    rw [hi]
    refine ⟨hset.congr { hdc with } (sameOn_counters hhp _ _ _), fun j hj => ?_⟩
    have hsw := sameOn_linked hdc (hm.apart_self hmem).2.2 hwp w.bytes b.headerAt.base total
    exact (SameOn.ints hsw hj).trans (hs.entries j hj)
  · have hold : c.next = some (i + 1) := by
      rw [hl.chained i c hc, if_pos (by omega)]
    have hne := hm.apart_of_ne hlast hc hend
    have hkept := hs.congr hdc
      (sameOn_linked hdl (hne _ (headerAt_mem_extents c) _ (headerAt_mem_extents last)) hhp _
        b.headerAt.base total)
      (sameOn_linked hdl (hne _ (words_mem_extents c) _ (headerAt_mem_extents last)) hwp _
        b.headerAt.base total)
    refine ⟨{ hkept.header with next := ?_ }, hkept.entries⟩
    rw [haddr (some (i + 1)) (by rw [← hold]; exact hm.shape.links.2.2 c hmem), ← hold]
    exact hkept.header.next

end Link

/-- `pool->tail->next = block; pool->tail = block; pool->elem_total += pool->elem_num;` with a
    block that is in memory and apart from the pool. -/
theorem Models.link (hm : Models w pool h) (hl : Linked h) (hs : Stored w.bytes h.blocks b)
    (hnext : b.next = none) (hd : Shaped b) (hself : (extents b).Pairwise Region.Apart)
    (hapart : ∀ r ∈ extents b, ∀ r' ∈ inUse h, Region.Apart r r') (hreq : b.dataAt ∈ w.obtained)
    (hcount : h.blocks.length < w.obtained.length) :
    Models (w.link pool b.headerAt.base) pool (h.link (h.blocks.length - 1) b) := by
  have hpos := hl.nonempty
  have hlast : h.blocks[h.blocks.length - 1]? = some h.blocks[h.blocks.length - 1] :=
    List.getElem?_eq_getElem (by omega)
  generalize h.blocks[h.blocks.length - 1] = last at hlast
  have hmem := List.mem_of_getElem? hlast
  have hdl := hm.shaped last hmem
  have hpoolAt := hm.apart_pool hmem (headerAt_mem_extents last)
  have hgrown : Linked (h.link (h.blocks.length - 1) b) := hl.grow hnext rfl rfl rfl
  have hfields := hm.fields.congr (sameOn_next hdl hpoolAt.symm w.bytes b.headerAt.base)
  have hkept : ∀ r ∈ extents b, SameOn r w.bytes (linked w.bytes pool last.headerAt.base
      b.headerAt.base (i32 (h.pool.elemTotal + h.pool.elemNum))) := by
    intro r hr
    have hrl := hapart r hr _ (control_subset (headerAt_mem_control hmem))
    have hrp := hapart r hr _ (control_subset (poolAt_mem_control h))
    rw [hm.poolAt] at hrp
    exact sameOn_linked hdl hrl hrp _ _ _
  show Models { w with bytes := (w.link pool b.headerAt.base).bytes } pool _
  rw [hm.link_bytes hl hlast]
  exact
    { poolAt := hm.poolAt
      fields := hfields.link hl rfl (Int.le_of_lt hd.pos) hd.lt
      stored := by
        intro d hdm
        obtain ⟨i, hi⟩ := List.mem_iff_getElem?.1 hdm
        have hchain := hgrown.chained i d hi
        rcases Pool.extended_cases hi with ⟨a, next, ha, rfl⟩ | ⟨rfl, rfl⟩
        · have hlt := (List.getElem?_eq_some_iff.1 ha).1
          obtain rfl : next = some (i + 1) := by simpa [Heap.link, hlt] using hchain
          exact hm.stored_link hl hlast hd ha _
        · have hsd := hs.congr hd (hkept _ (headerAt_mem_extents d))
            (hkept _ (words_mem_extents d))
          refine ⟨{ hsd.header with next := ?_ }, hsd.entries⟩
          rw [hsd.header.next, hnext]
          rfl
      shaped := Pool.forall_extended hm.shaped (fun a next ha => { ha with }) hd
      shape := Or.inl hgrown
      apart := by
        rw [(inUse_link h b).pairwise_iff Region.Apart.symm, List.pairwise_append]
        exact ⟨hself, hm.apart, hapart⟩
      obtained := hm.obtained
      requested := Pool.forall_extended hm.requested (fun a next ha => ha) hreq
      count := by
        show (_ ++ [b]).length ≤ w.obtained.length
        rw [List.length_append, List.length_modify]
        exact hcount
      released := hm.released
      bytes := hm.bytes }

end GameServer.RawPool
