/-
  The pool in memory and the pool without addresses, call by call.

  On a memory that models a pool, every function of `mem_pool.c` does what the function of
  the same name in `MemPool/` does, and leaves a memory that models the result
  (`Models.malloc`, `Models.free`, `create_models`), under these conditions: a block that is
  built is `Spaced`, the head of a block that gives a slot is an index of its table, and the
  four bytes that `mem_pool_free` clears are apart from the headers, the tables and
  `mem_pool_t`.
-/
import GameServer.MemPool.Destroy
import GameServer.MemPool.Sizes
import GameServer.RawPool.Alloc

namespace GameServer.RawPool

open CInt Memory
open Pool (MemBlock Heap sizeofMemBlock sizeofMemPool sizeofInt Linked allocated endOfMem)

variable {w : World} {pool : Int} {h : Heap} {b : MemBlock} {pos : Nat} {g : Grant}

/-! ## Loops over the list -/

/-- A loop stops where the search in the list of blocks does, unless a test fails. -/
theorem Models.foreach {test : Int → Except Fault Bool} {t : MemBlock → Bool}
    (hm : Models w pool h) (hl : Linked h)
    (ht : ∀ b ∈ h.blocks, ∀ v, test b.headerAt.base = .ok v → v = t b) :
    ∀ fuel pos, pos < h.blocks.length → h.blocks.length - pos ≤ fuel →
      (∃ f, foreachBlockList w.bytes test fuel (addr h.blocks (some pos)) = .error f ∧
          ∃ b ∈ h.blocks, test b.headerAt.base = .error f) ∨
        foreachBlockList w.bytes test fuel (addr h.blocks (some pos)) =
          .ok (((List.range' pos (h.blocks.length - pos)).find?
            fun i => (h.blocks[i]?).any t).map fun i => addr h.blocks (some i))
  | 0, pos, hpos, hf => by omega
  | fuel + 1, pos, hpos, hf => by
    have hb : h.blocks[pos]? = some h.blocks[pos] := List.getElem?_eq_getElem hpos
    have hmem := List.mem_of_getElem? hb
    have hnext := (hm.stored _ hmem).header.next
    have hlen : h.blocks.length - pos = (h.blocks.length - (pos + 1)) + 1 := by omega
    rw [foreachBlockList, if_neg (hm.ne_zero hb), hlen, List.range'_succ, List.find?_cons, hb,
      Option.any_some]
    rw [addr_some hb]
    cases htest : test h.blocks[pos].headerAt.base with
    | error f => exact Or.inl ⟨f, rfl, _, hmem, htest⟩
    | ok v =>
      obtain rfl := ht _ hmem v htest
      cases hv : t h.blocks[pos] with
      | true => exact Or.inr (by simp only [Option.map_some, addr_some hb])
      | false =>
        dsimp only
        rw [hnext, hl.chained pos _ hb]
        by_cases hlast : pos + 1 < h.blocks.length
        · rw [if_pos hlast]
          exact Models.foreach hm hl ht fuel (pos + 1) hlast (by omega)
        · have hzero : h.blocks.length - (pos + 1) = 0 := by omega
          rw [if_neg hlast, hzero]
          cases fuel <;> exact Or.inr rfl

theorem Models.search (hm : Models w pool h) (test : Int → Except Fault Bool) (t : MemBlock → Bool)
    (ht : ∀ b ∈ h.blocks, ∀ v, test b.headerAt.base = .ok v → v = t b) :
    (∃ f, w.search pool test = .error f ∧ ∃ b ∈ h.blocks, test b.headerAt.base = .error f) ∨
      w.search pool test = .ok ((h.search t).map fun i => addr h.blocks (some i)) := by
  unfold World.search
  rw [hm.fields.head]
  rcases hm.shape with hl | ⟨hnone, hhead, -⟩
  · have hfound := hm.foreach hl ht w.obtained.length 0 hl.nonempty
      (by have := hm.count; omega)
    rw [hl.head]
    unfold Heap.search
    rw [hl.blockList, List.range_eq_range']
    exact hfound
  · rw [hhead, Pool.search_of_no_blocks hnone]
    right
    cases w.obtained.length <;> rfl

theorem Models.listed (hm : Models w pool h) : h.Listed := by
  rcases hm.shape with hl | ⟨hnone, -⟩
  · exact hl.listed
  · exact Pool.listed_of_no_blocks hnone

/-! ## `mem_pool_malloc` -/

theorem inInt_tdiv {x : Int} (hx : InInt x) : InInt (x.tdiv 3) := by
  have hlo := Int.tdiv_le_tdiv (c := 3) (by decide) hx.1
  have hhi := Int.tdiv_le_tdiv (c := 3) (by decide) hx.2
  exact ⟨Int.le_trans (by decide) hlo, Int.le_trans hhi (by decide)⟩

/-- Clearing memory that counts as cleared. -/
theorem memset_zero (p : Int) (n : Nat) :
    Pool.memset (fun _ => 0) p 0 n = fun _ => 0 := by
  funext a
  unfold Pool.memset
  split <;> rfl

theorem Models.afterBuild (hm : Models w pool h) (b : MemBlock) :
    h.afterBuild b = { h with obtained := b.regions ++ h.obtained } := by
  unfold Heap.afterBuild
  rw [hm.bytes, memset_zero]

theorem Models.inInt (hm : Models w pool h) :
    InInt h.pool.elemSize ∧ InInt (h.pool.elemNum.tdiv 3) := by
  have hf := hm.fields
  rw [← hf.elemSize, ← hf.elemNum]
  exact ⟨inInt_loadInt _ _, inInt_tdiv (inInt_loadInt _ _)⟩

/-- `mem_pool_malloc` while some block has a free slot. -/
theorem Models.malloc_reuse (hm : Models w pool h) (hb : h.blocks[pos]? = some b)
    (hin : InTable b.elemNum b.head) :
    ∃ p w' h', Except.ok (ε := Fault) ((w.takeSlot (addr h.blocks (some pos))).map some id) =
        .ok (some p, w') ∧ h.takeFrom pos = .ok (some p, h') ∧ Models w' pool h' := by
  obtain ⟨haddr, htaken⟩ := hm.takeSlot hb hin
  rw [addr_some hb]
  refine ⟨b.take.1, _, _, ?_, ?_, htaken⟩
  · rw [← haddr]
    rfl
  · unfold Heap.takeFrom
    rw [hb]

/-- `mem_pool_malloc` once a block is built. -/
theorem Models.malloc_built (hm : Models w pool h)
    (hb : g.toPool.block h.pool.elemSize (h.pool.elemNum.tdiv 3) = some b)
    (hsp : Spaced (inUse h) g h.pool.elemSize (h.pool.elemNum.tdiv 3))
    (hin : InTable b.elemNum b.head) :
    ∃ w₁, memPoolAllocBlock w g h.pool.elemSize (h.pool.elemNum.tdiv 3) =
        (some b.headerAt.base, w₁) ∧
      Models w₁ pool (h.afterBuild b) ∧
      (Linked h → ∃ p w' h', Except.ok (ε := Fault)
          (((w₁.link pool b.headerAt.base).takeSlot b.headerAt.base).map some id) =
            .ok (some p, w') ∧
        ((h.afterBuild b).link (h.blocks.length - 1) b).takeFrom h.blocks.length =
          .ok (some p, h') ∧
        Models w' pool h') := by
  obtain ⟨hes, hn⟩ := hm.inInt
  obtain ⟨w₁, hw₁, hs, hsame, hobt, hrel⟩ := allocBlock_full w h.blocks hb hsp hes hn
  have hapart := List.pairwise_append.1 hsp.apart
  rw [written_full hb] at hapart
  have hm₁ : Models w₁ pool (h.afterBuild b) := by
    rw [hm.afterBuild]
    refine hm.congr (fun r hr => hsame r fun r' hr' => ?_) hobt hrel
    exact (hapart.2.2 r' hr' r (control_subset hr)).symm
  refine ⟨w₁, hw₁, hm₁, fun hl => ?_⟩
  have hlinked : Models (w₁.link pool b.headerAt.base) pool
      ((h.afterBuild b).link (h.blocks.length - 1) b) := by
    refine hm₁.link { hl with } hs (Pool.block_next hb) (hsp.shaped hn.2 hb) hapart.1 hapart.2.2
      ?_ ?_
    · rw [hobt]
      simp [MemBlock.regions]
    · rw [hobt, List.length_append]
      exact Nat.lt_of_le_of_lt hm.count (Nat.lt_add_of_pos_left (Nat.succ_pos 2))
  have hlast : ((h.afterBuild b).link (h.blocks.length - 1) b).blocks[h.blocks.length]? =
      some b := by
    simp [Heap.link, Heap.afterBuild]
  have htaken := hlinked.malloc_reuse hlast hin
  rwa [addr_some hlast] at htaken

theorem Models.search_room (hm : Models w pool h) :
    w.search pool (fun pos => .ok (hasRoom w.bytes pos)) =
      .ok ((h.search MemBlock.hasRoom).map fun i => addr h.blocks (some i)) := by
  refine (hm.search _ MemBlock.hasRoom fun b hb v hv => ?_).resolve_left ?_
  · have hs := (hm.stored b hb).header
    rw [← Except.ok.inj hv]
    unfold hasRoom MemBlock.hasRoom
    rw [hs.head, hs.tail]
  · rintro ⟨f, -, b, -, hb⟩
    cases hb

/-- `mem_pool_malloc` in memory and without addresses. A call that returns NULL leaves the
    memory in use, data areas included. -/
theorem Models.malloc (hm : Models w pool h)
    (hin : ∀ b ∈ h.chosen g.toPool, InTable b.elemNum b.head)
    (hsp : h.search MemBlock.hasRoom = none →
      Spaced (inUse h) g h.pool.elemSize (h.pool.elemNum.tdiv 3)) :
    (∃ r w' h', memPoolMalloc w pool g = .ok (r, w') ∧
        Pool.memPoolMalloc h g.toPool = .ok (r, h') ∧ Models w' pool h' ∧
        (r = none → ∀ x ∈ inUse h, SameOn x w.bytes w'.bytes)) ∨
      memPoolMalloc w pool g = .error .nullDeref ∧
        Pool.memPoolMalloc h g.toPool = .error .nullDeref := by
  unfold memPoolMalloc Pool.memPoolMalloc
  unfold Heap.chosen at hin
  rw [hm.search_room]
  cases hs : h.search MemBlock.hasRoom with
  | some pos =>
    rw [hs] at hin
    obtain ⟨b, hb, -⟩ := hm.listed.search_some.1 hs
    obtain ⟨p, w', h', hraw, hpool, hm'⟩ := hm.malloc_reuse hb (hin _ hb)
    exact Or.inl ⟨some p, w', h', hraw, hpool, hm', fun hnone => by cases hnone⟩
  | none =>
    rw [hs] at hin
    have hsp := hsp hs
    rw [Option.map_none]
    dsimp only
    rw [hm.fields.elemSize, hm.fields.elemNum]
    cases hb : g.toPool.block h.pool.elemSize (h.pool.elemNum.tdiv 3) with
    | none =>
      obtain ⟨w', hw', hsame, hobt, hrel⟩ := allocBlock_fails w hb hsp hm.inInt.2
      rw [hw', Pool.allocBlock_fails hb]
      have hkept : ∀ x ∈ inUse h, SameOn x w.bytes w'.bytes := fun x hx =>
        hsame x fun r hr => ((List.pairwise_append.1 hsp.apart).2.2 r hr x hx).symm
      exact Or.inl ⟨_, _, _, rfl, rfl, hm.congr (fun r hr => hkept r (control_subset hr)) hobt hrel,
        fun _ => hkept⟩
    | some b =>
      obtain ⟨w₁, hw₁, hm₁, hgrow⟩ := hm.malloc_built hb hsp (hin b hb)
      rw [hw₁, Pool.allocBlock_block hb]
      dsimp only
      rw [hm₁.fields.tail]
      rcases hm.shape with hl | ⟨hnone, -, htail⟩
      · have htail : (h.afterBuild b).pool.tail = some (h.blocks.length - 1) := hl.tail
        have hpos := hl.nonempty
        have hlast : (h.afterBuild b).blocks[h.blocks.length - 1]? =
            some h.blocks[h.blocks.length - 1] :=
          List.getElem?_eq_getElem (l := h.blocks) (by omega)
        rw [htail, if_neg (hm₁.ne_zero hlast)]
        obtain ⟨p, w', h', hraw, hpool, hm'⟩ := hgrow hl
        exact Or.inl ⟨some p, w', h', hraw, hpool, hm', fun hnone => by cases hnone⟩
      · have htail' : (h.afterBuild b).pool.tail = none := htail
        rw [htail']
        exact Or.inr ⟨rfl, rfl⟩

/-! ## `mem_pool_free`, and stores into elements -/

theorem Models.freeOffset (hm : Models w pool h) (hb : b ∈ h.blocks) {p offset : Int}
    (ho : freeOffset w.bytes b.headerAt.base p = .ok offset) : offset = b.freeOffset p := by
  have hs := (hm.stored b hb).header
  unfold RawPool.freeOffset at ho
  rw [hs.data, hs.elemSize] at ho
  dsimp only at ho
  split at ho
  · cases ho
  · exact (Except.ok.inj ho).symm

theorem Models.freeOffset_ok (hm : Models w pool h) (hb : b ∈ h.blocks) (hes : 0 < b.elemSize)
    (p : Int) (f : Fault) : RawPool.freeOffset w.bytes b.headerAt.base p ≠ .error f := by
  unfold RawPool.freeOffset
  rw [(hm.stored b hb).header.elemSize]
  dsimp only
  rw [if_neg (by omega)]
  exact nofun

theorem Models.accepts (hm : Models w pool h) (hb : b ∈ h.blocks) {p : Int} {v : Bool}
    (hv : accepts w.bytes p b.headerAt.base = .ok v) : v = b.accepts p := by
  have hs := (hm.stored b hb).header
  unfold RawPool.accepts at hv
  cases ho : RawPool.freeOffset w.bytes b.headerAt.base p with
  | error f =>
    rw [ho] at hv
    cases hv
  | ok offset =>
    rw [ho, hs.elemNum, hm.freeOffset hb ho] at hv
    exact (Except.ok.inj hv).symm

/-- A test of `mem_pool_free` fails in its division. -/
theorem freeOffset_fails {block p : Int} {f : Fault}
    (hf : RawPool.accepts w.bytes p block = .error f) :
    RawPool.freeOffset w.bytes block p = .error f := by
  unfold RawPool.accepts at hf
  cases ho : RawPool.freeOffset w.bytes block p with
  | error f' =>
    rw [ho] at hf
    exact congrArg _ (Except.error.inj hf)
  | ok offset =>
    rw [ho] at hf
    cases hf

/-- A change outside the headers, the tables and `mem_pool_t`. -/
theorem Models.congr_apart (hm : Models w pool h) {m : Mem} {r : Region}
    (hr : ∀ r' ∈ control h, r.Apart r') (hout : ∀ a, ¬ r.Contains a → m a = w.bytes a) :
    Models { w with bytes := m } pool h := by
  refine hm.congr_bytes fun r' hr' a ha => hout a fun ha' => ?_
  have hapart := hr r' hr'
  unfold Region.Apart Region.Contains at *
  omega

/-- `mem_pool_free` where its loop stops. -/
theorem free_found {p block : Int}
    (hs : w.search pool (RawPool.accepts w.bytes p) = .ok (some block)) :
    memPoolFree w pool p = (RawPool.freeOffset w.bytes block p).map (w.putBack block p) := by
  unfold memPoolFree
  rw [hs]

/-- `mem_pool_free` once its loop has stopped at a block, unless the division fails there. -/
theorem Models.free_hit (hm : Models w pool h) {p : Int} (hb : h.blocks[pos]? = some b)
    (hs : h.search (·.accepts p) = some pos)
    (hclear : ∀ r ∈ control h, Region.Apart ⟨p, sizeofInt⟩ r) {offset : Int}
    (ho : RawPool.freeOffset w.bytes b.headerAt.base p = .ok offset) :
    Models (w.putBack b.headerAt.base p offset) pool (Pool.memPoolFree h p) ∧
      ∀ a, (∀ r ∈ control h, ¬ r.Contains a) → (w.putBack b.headerAt.base p offset).bytes a =
        (Pool.memPoolFree { h with bytes := w.bytes } p).bytes a := by
  have hmem := List.mem_of_getElem? hb
  obtain rfl := hm.freeOffset hmem ho
  obtain ⟨b', hb', haccept, -⟩ := hm.listed.search_some.1 hs
  obtain rfl : b = b' := Option.some.inj (hb.symm.trans hb')
  unfold MemBlock.accepts at haccept
  rw [Bool.and_eq_true, decide_eq_true_eq, decide_eq_true_eq] at haccept
  have hcleared : Models { w with bytes := fill w.bytes p 0 sizeofInt } pool h := by
    refine hm.congr_apart hclear fun a ha => ?_
    unfold fill
    exact if_neg ha
  have hint : InInt (b.freeOffset p) := inInt_i32 _
  obtain ⟨w', hw', hput, hkept⟩ := hcleared.putBack hb haccept.1 haccept.2 hint
  have hback : w.putBack b.headerAt.base p (b.freeOffset p) = w' := hw'
  have hbytes : Pool.memset h.bytes p 0 sizeofInt = h.bytes := by
    rw [hm.bytes, memset_zero]
  rw [hback]
  constructor
  · rw [Pool.free_hit hs, hbytes,
      ← ListUpdate.set_eq_modify hb (f := fun b => b.putBack (b.freeOffset p))]
    exact hput
  · intro a ha
    have hs' : Heap.search { h with bytes := w.bytes } (·.accepts p) = some pos := hs
    rw [hkept a (ha _ (words_mem_control hmem)), Pool.free_hit hs']
    rfl

/-- `mem_pool_free` in memory and without addresses, unless a division fails. Outside the
    headers, the tables and `mem_pool_t` it changes the same bytes. -/
theorem Models.free (hm : Models w pool h) {p : Int}
    (hclear : h.search (·.accepts p) ≠ none → ∀ r ∈ control h, Region.Apart ⟨p, sizeofInt⟩ r) :
    (∃ f, memPoolFree w pool p = .error f ∧
        ∃ b ∈ h.blocks, RawPool.freeOffset w.bytes b.headerAt.base p = .error f) ∨
      ∃ w', memPoolFree w pool p = .ok w' ∧ Models w' pool (Pool.memPoolFree h p) ∧
        ∀ a, (∀ r ∈ control h, ¬ r.Contains a) →
          w'.bytes a = (Pool.memPoolFree { h with bytes := w.bytes } p).bytes a := by
  rcases hm.search (RawPool.accepts w.bytes p) (·.accepts p) fun b hb v hv => hm.accepts hb hv with
    ⟨f, hsearch, b, hb, hf⟩ | hsearch
  · refine Or.inl ⟨f, ?_, b, hb, freeOffset_fails hf⟩
    unfold memPoolFree
    rw [hsearch]
  · cases hs : h.search (·.accepts p) with
    | none =>
      refine Or.inr ⟨w, ?_, by rwa [Pool.free_miss hs], fun a _ => ?_⟩
      · unfold memPoolFree
        rw [hsearch, hs]
        rfl
      · have hs' : Heap.search { h with bytes := w.bytes } (·.accepts p) = none := hs
        rw [Pool.free_miss hs']
    | some pos =>
      obtain ⟨b, hb, -⟩ := hm.listed.search_some.1 hs
      rw [hs, Option.map_some, addr_some hb] at hsearch
      rw [free_found hsearch]
      cases ho : RawPool.freeOffset w.bytes b.headerAt.base p with
      | error f => exact Or.inl ⟨f, rfl, b, List.mem_of_getElem? hb, ho⟩
      | ok offset => exact Or.inr ⟨_, rfl, hm.free_hit hb hs (hclear (by simp [hs])) ho⟩

/-- Data areas are apart from everything else. -/
theorem Models.data_apart (hm : Models w pool h) (hb : b ∈ h.blocks) :
    ∀ r ∈ control h, b.dataAt.Apart r := by
  obtain ⟨pos, hpos⟩ := List.mem_iff_getElem?.1 hb
  obtain ⟨hself, hself', -⟩ := hm.apart_self hb
  intro r hr
  unfold control at hr
  rw [List.mem_append, List.mem_flatMap, List.mem_singleton] at hr
  rcases hr with ⟨c, hc, hr⟩ | rfl
  · obtain ⟨i, hi⟩ := List.mem_iff_getElem?.1 hc
    have hrc : r ∈ extents c := List.mem_cons_of_mem _ hr
    by_cases hne : i = pos
    · obtain rfl : b = c := Option.some.inj (hpos.symm.trans (hne ▸ hi))
      rw [List.mem_pair] at hr
      rcases hr with rfl | rfl
      · exact hself
      · exact hself'
    · exact (hm.apart_of_ne hpos hi hne r hrc _ (dataAt_mem_extents b)).symm
  · rw [hm.poolAt]
    exact hm.apart_pool hb (dataAt_mem_extents b)

/-- A store into a data area. -/
theorem Models.store (hm : Models w pool h) {p : Int} (v : UInt8)
    (hp : ∃ b ∈ h.blocks, b.dataAt.Contains p) :
    Models { w with bytes := Function.update w.bytes p v } pool h := by
  obtain ⟨b, hb, hin⟩ := hp
  refine hm.congr_apart (hm.data_apart hb) fun a ha => Function.update_of_ne ?_ _ _
  rintro rfl
  exact ha hin

/-! ## `mem_pool_create` -/

/-- The fields of a new pool. -/
theorem create_fields {m m' : Mem} {pool es n p : Int} (hes : InInt es) (hn : InInt n)
    (hlo : 0 ≤ p) (hhi : p < 2 ^ 64)
    (hsame : SameOn ⟨pool, sizeofMemPool⟩
      (storeInt (storeInt (storeInt m pool es) (pool + 4) n) (pool + 8) n) m')
    (hsize : h.pool.elemSize = es) (hnum : h.pool.elemNum = n) (htotal : h.pool.elemTotal = n)
    (hhead : addr h.blocks h.pool.head = p) (htail : addr h.blocks h.pool.tail = p) :
    Fields (storePtr (storePtr m' (pool + 16) p) (pool + 24) p) pool h := by
  have hint : ∀ q, pool ≤ q → q + 4 ≤ pool + 16 →
      loadInt (storePtr (storePtr m' (pool + 16) p) (pool + 24) p) q =
        loadInt (storeInt (storeInt (storeInt m pool es) (pool + 4) n) (pool + 8) n) q := by
    intro q hlo hhi
    unfold sizeofMemPool at hsame
    exact ((loadInt_storePtr_of_apart (by omega)).trans
      (loadInt_storePtr_of_apart (by omega))).trans
      (hsame.loadInt hlo (by dsimp only; omega))
  constructor
  · rw [hsize]
    refine (hint pool (by omega) (by omega)).trans ?_
    simp (disch := omega) only [loadInt_storeInt_of_apart, loadInt_storeInt _ _ hes]
  · rw [hnum]
    refine (hint (pool + 4) (by omega) (by omega)).trans ?_
    simp (disch := omega) only [loadInt_storeInt_of_apart, loadInt_storeInt _ _ hn]
  · rw [htotal]
    refine (hint (pool + 8) (by omega) (by omega)).trans ?_
    exact loadInt_storeInt _ _ hn
  · rw [hhead]
    exact (loadPtr_storePtr_of_apart (by omega)).trans (loadPtr_storePtr _ _ hlo hhi)
  · rw [htail]
    exact loadPtr_storePtr _ _ hlo hhi

theorem create_eq {w' : World} {pool es n : Int} {blk : Option Int}
    (hw' : memPoolAllocBlock (w.initPool pool es n) g es n = (blk, w')) :
    memPoolCreate w (some pool) g es n =
      (some pool, (w'.setPtr (pool + 16) (blk.getD 0)).setPtr (pool + 24) (blk.getD 0)) := by
  unfold memPoolCreate
  simp only [hw']

/-- The stores of `head` and `tail` stay in `mem_pool_t`. -/
theorem sameOn_pool {m : Mem} {r : Region} {pool p : Int}
    (hr : r.Apart ⟨pool, sizeofMemPool⟩) :
    SameOn r m (storePtr (storePtr m (pool + 16) p) (pool + 24) p) := by
  unfold Region.Apart sizeofMemPool at hr
  dsimp only at hr
  exact (sameOn_storePtr (by omega)).trans (sameOn_storePtr (by omega))

section Create

variable {m : Mem} {es n : Int} (hsp : Spaced [⟨pool, sizeofMemPool⟩] g es n)
include hsp

theorem Spaced.apart_pool {r : Region} (hr : r ∈ written g es n) : r.Apart ⟨pool, sizeofMemPool⟩ :=
  (List.pairwise_append.1 hsp.apart).2.2 r hr _ (List.mem_singleton_self _)

/-- `mem_pool_create` when its block is not built. -/
theorem create_blockless (hes : InInt es) (hn : InInt n) (hb : g.toPool.block es n = none) :
    ∃ w h, memPoolCreate ⟨m, [], []⟩ (some pool) g es n = (some pool, w) ∧
      Pool.memPoolCreate (some pool) g.toPool es n = some h ∧ Models w pool h := by
  obtain ⟨w', hw', hsame, hobt, hrel⟩ :=
    allocBlock_fails (World.initPool ⟨m, [], []⟩ pool es n) hb hsp hn
  have hfull := (g.toPool.not_full_iff es n).2 hb
  have hpool := hsame ⟨pool, sizeofMemPool⟩ fun r hr => (hsp.apart_pool hr).symm
  refine ⟨_, _, create_eq hw', Pool.create_blockless hfull pool es n, ?_⟩
  exact
    { poolAt := rfl
      fields := create_fields hes hn (by decide) (by decide) hpool rfl rfl rfl rfl rfl
      stored := fun b hb => absurd hb List.not_mem_nil
      shaped := fun b hb => absurd hb List.not_mem_nil
      shape := Or.inr ⟨rfl, rfl, rfl⟩
      apart := List.pairwise_singleton _ _
      obtained := hobt.symm
      requested := fun b hb => absurd hb List.not_mem_nil
      count := Nat.zero_le _
      released := ⟨rfl, hrel⟩
      bytes := rfl }

/-- `mem_pool_create` when its block is built. -/
theorem create_built (hes : InInt es) (hn : InInt n) (hb : g.toPool.block es n = some b) :
    ∃ w h, memPoolCreate ⟨m, [], []⟩ (some pool) g es n = (some pool, w) ∧
      Pool.memPoolCreate (some pool) g.toPool es n = some h ∧ Models w pool h := by
  obtain ⟨w', hw', hs, hsame, hobt, hrel⟩ :=
    allocBlock_full (World.initPool ⟨m, [], []⟩ pool es n) [b] hb hsp hes hn
  have hd := hsp.shaped hn.2 hb
  have hext := written_full hb
  have hpoolAt : ∀ r ∈ extents b, Region.Apart r ⟨pool, sizeofMemPool⟩ := by
    rw [← hext]
    exact fun r hr => hsp.apart_pool hr
  have hpool := hsame ⟨pool, sizeofMemPool⟩ fun r hr => (hpoolAt r hr).symm
  have hcreate : Pool.memPoolCreate (some pool) g.toPool es n = some
      { pool := ⟨es, n, n, some 0, some 0⟩, poolAt := ⟨pool, sizeofMemPool⟩, blocks := [b],
        bytes := fun _ => 0, obtained := b.regions ++ [⟨pool, sizeofMemPool⟩],
        released := [] } := by
    unfold Pool.memPoolCreate
    simp only [Pool.allocBlock_block hb, Heap.afterBuild, memset_zero]
  have hstored : Stored ((w'.setPtr (pool + 16) b.headerAt.base).setPtr (pool + 24)
      b.headerAt.base).bytes [b] b :=
    hs.congr hd (sameOn_pool (hpoolAt _ (headerAt_mem_extents b)))
      (sameOn_pool (hpoolAt _ (words_mem_extents b)))
  refine ⟨_, _, create_eq hw', hcreate, ?_⟩
  exact
    { poolAt := rfl
      fields := create_fields hes hn (Int.le_of_lt hd.pos) hd.lt hpool rfl rfl rfl rfl rfl
      stored := List.forall_mem_singleton.2 hstored
      shaped := List.forall_mem_singleton.2 hd
      shape := Or.inl (Pool.Linked.single rfl (Pool.block_next hb) rfl rfl)
      apart := by
        show ([b].flatMap extents ++ [(⟨pool, sizeofMemPool⟩ : Region)]).Pairwise Region.Apart
        rw [List.flatMap_singleton]
        exact hext ▸ hsp.apart
      obtained := hobt.symm
      requested := by
        refine List.forall_mem_singleton.2 ?_
        show b.dataAt ∈ w'.obtained
        rw [hobt]
        simp [MemBlock.regions]
      count := by
        show 1 ≤ w'.obtained.length
        rw [hobt]
        exact Nat.succ_pos _
      released := ⟨rfl, hrel⟩
      bytes := rfl }

end Create

/-- A new pool in memory. -/
theorem create_models (m : Mem) {pool es n : Int}
    (hsp : Spaced [⟨pool, sizeofMemPool⟩] g es n) (hes : InInt es) (hn : InInt n) :
    ∃ w h, memPoolCreate ⟨m, [], []⟩ (some pool) g es n = (some pool, w) ∧
      Pool.memPoolCreate (some pool) g.toPool es n = some h ∧ Models w pool h := by
  cases hb : g.toPool.block es n with
  | none => exact create_blockless hsp hes hn hb
  | some b => exact create_built hsp hes hn hb

end GameServer.RawPool
