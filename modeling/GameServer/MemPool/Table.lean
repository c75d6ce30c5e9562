/-
  The words of the free list.

  A block of `elem_num` elements keeps `elem_num + 1` words in its table, but
  `__mem_pool_alloc_block` requests `elem_num + 1` bytes for it. So the initialisation of a
  table already leaves what was requested, and the accesses of a run stay in the tables if
  and only if no table is ever obtained (`table_in_bounds_iff`).

  The accesses of a call are listed from the state before it. Words at other indices keep
  their contents (`initTable_unchanged`, `table_unchanged`).
-/
import GameServer.MemPool.Destroy

namespace GameServer.Pool

open CInt Runs

/-- An access to `block->table[index]`, with the bytes that were requested for the table. -/
structure TableAccess where
  index : Int
  requested : Nat
  deriving DecidableEq

/-- The word lies in what was requested. -/
def TableAccess.Within (a : TableAccess) : Prop :=
  0 ≤ a.index ∧ sizeofInt * (a.index + 1) ≤ a.requested

instance (a : TableAccess) : Decidable a.Within := inferInstanceAs (Decidable (_ ∧ _))

/-! ## The accesses of a call -/

/-- The initialisation of `__mem_pool_alloc_block`, which comes before the data is requested. -/
def allocBlockAccesses (g : Grant) (elemNum : Int) : List TableAccess :=
  match g.header, g.table with
  | some _, some _ =>
    let requested := sizeT (i32 (elemNum + 1))
    ((List.range elemNum.toNat).map fun i => ⟨i, requested⟩) ++ [⟨elemNum, requested⟩]
  | _, _ => []

/-- `block->table[block->head]`, read and then set to `ALLOCATED`. -/
def MemBlock.takeAccesses (b : MemBlock) : List TableAccess := [⟨b.head, b.tableAt.size⟩]

/-- `block->table[block->tail]` and `block->table[offset]` -/
def MemBlock.putAccesses (b : MemBlock) (p : Int) : List TableAccess :=
  [⟨b.tail, b.tableAt.size⟩, ⟨b.freeOffset p, b.tableAt.size⟩]

/-- The accesses of `mem_pool_malloc`. -/
def Heap.mallocAccesses (h : Heap) (g : Grant) : List TableAccess :=
  match h.search MemBlock.hasRoom with
  | some pos => (h.blocks[pos]?).toList.flatMap MemBlock.takeAccesses
  | none =>
    allocBlockAccesses g (h.pool.elemNum.tdiv 3) ++
      match h.pool.tail with
      | none => []
      | some _ =>
        (g.block h.pool.elemSize (h.pool.elemNum.tdiv 3)).toList.flatMap MemBlock.takeAccesses

/-- The accesses of `mem_pool_free`. -/
def Heap.freeAccesses (h : Heap) (p : Int) : List TableAccess :=
  (h.owner p).toList.flatMap (·.putAccesses p)

def Session.accesses (s : Session) : Call → List TableAccess
  | .malloc g => if s.fault = none then s.heap.mallocAccesses g else []
  | .free p => if s.fault = none then s.heap.freeAccesses p else []

/-- Every access of a call is to a word that was requested. -/
def InBounds (s : Session) (c : Call) : Prop := ∀ a ∈ s.accesses c, a.Within

/-! ## Nothing else is written -/

theorem initTable_unchanged {g : Grant} {header table : Int} (hh : g.header = some header)
    (ht : g.table = some table) {n i : Int} (hn : n ≤ intMax)
    (hi : ∀ a ∈ allocBlockAccesses g n, a.index ≠ i) : initTable g.residue n i = g.residue i := by
  unfold allocBlockAccesses at hi
  simp only [hh, ht, List.mem_append, List.mem_map, List.mem_range, List.mem_singleton] at hi
  have hend : n ≠ i := hi ⟨n, _⟩ (Or.inr rfl)
  unfold initTable
  rw [Function.update_of_ne (Ne.symm hend)]
  by_cases hn0 : n.toNat = 0
  · rw [hn0]
    rfl
  · rw [initLoop_apply _ _ (by omega), if_neg]
    rintro ⟨hlo, hhi⟩
    have hne : (i.toNat : Int) ≠ i := hi ⟨i.toNat, _⟩ (Or.inl ⟨i.toNat, by omega, rfl⟩)
    omega

theorem table_unchanged {s : Session} (hs : Running s) {c : Call} {pos : Nat} {b b' : MemBlock}
    (hb : s.heap.blocks[pos]? = some b) (hb' : (s.step c).heap.blocks[pos]? = some b') {i : Int}
    (hi : ∀ a ∈ s.accesses c, a.index ≠ i) : b'.table i = b.table i := by
  cases c with
  | malloc g =>
    obtain ⟨r, h', hm, hr⟩ := malloc_returns hs.linked g
    rw [step_returns hs.noFault hm] at hb'
    simp only [Session.accesses, hs.noFault, if_true, Heap.mallocAccesses] at hi
    cases hr with
    | @reuse j d hroom hd =>
      simp only [hroom, hd] at hi
      rcases ListUpdate.set_cases hb' with ⟨rfl, rfl⟩ | ⟨-, hsame⟩
      · obtain rfl : d = b := Option.some.inj (hd.symm.trans hb)
        have hne : d.head ≠ i := hi ⟨d.head, d.tableAt.size⟩ (by simp [MemBlock.takeAccesses])
        exact Function.update_of_ne (Ne.symm hne) _ _
      · rw [Option.some.inj (hsame.symm.trans hb)]
    | @grow d h' hroom hd hblocks hpool hobt hrel hat =>
      have hb'' : h'.blocks[pos]? = some b' := hb'
      rcases extended_cases (hblocks ▸ hb'') with ⟨a, next, ha, rfl⟩ | ⟨rfl, -⟩
      · rw [Option.some.inj (hb.symm.trans ha)]
      · simp at hb
    | fails hroom hd => rw [Option.some.inj (hb.symm.trans hb')]
  | free p =>
    rw [step_free p hs.noFault] at hb'
    simp only [Session.accesses, hs.noFault, if_true, Heap.freeAccesses] at hi
    cases hsearch : s.heap.search (·.accepts p) with
    | none =>
      rw [free_miss hsearch] at hb'
      rw [Option.some.inj (hb.symm.trans hb')]
    | some j =>
      rw [free_hit hsearch] at hb'
      rw [List.getElem?_modify, hb] at hb'
      by_cases hj : j = pos
      · subst hj
        rw [owner_eq_some hsearch hb] at hi
        have htail : b.tail ≠ i := hi ⟨b.tail, b.tableAt.size⟩ (by simp [MemBlock.putAccesses])
        have hoffset : b.freeOffset p ≠ i :=
          hi ⟨b.freeOffset p, b.tableAt.size⟩ (by simp [MemBlock.putAccesses])
        obtain rfl : b.putBack (b.freeOffset p) = b' := by simpa using hb'
        show Function.update (Function.update b.table b.tail _) _ endOfMem i = b.table i
        rw [Function.update_of_ne (Ne.symm hoffset), Function.update_of_ne (Ne.symm htail)]
      · obtain rfl : b = b' := by simpa [hj] using hb'
        rfl

/-! ## Runs -/

/-- The table of a block is not obtained. -/
def Grant.NoTable (g : Grant) : Prop := g.header = none ∨ g.table = none

instance (g : Grant) : Decidable g.NoTable := inferInstanceAs (Decidable (_ ∨ _))

/-- The call obtains no table. -/
def NoTableCall : Call → Prop
  | .malloc g => g.NoTable
  | .free _ => True

/-- The pool has no block. -/
structure Blockless (n : Int) (s : Session) : Prop where
  noFault : s.fault = none
  blocks : s.heap.blocks = []
  tail : s.heap.pool.tail = none
  elemNum : s.heap.pool.elemNum = n

/-- The last word that the initialisation writes is not in the table. -/
theorem alloc_in_bounds_iff {n : Int} (hn : 0 ≤ n) (hmax : n + 1 ≤ intMax) (g : Grant) :
    (∀ a ∈ allocBlockAccesses g n, a.Within) ↔ g.NoTable := by
  obtain ⟨header, table, data, residue⟩ := g
  unfold allocBlockAccesses Grant.NoTable
  cases header with
  | none => simp
  | some header =>
    cases table with
    | none => simp
    | some table =>
      simp only [reduceCtorEq, or_self, iff_false]
      intro hall
      obtain ⟨-, hend⟩ := hall ⟨n, sizeT (i32 (n + 1))⟩ (by simp)
      have hexact : i32 (n + 1) = n + 1 := i32_eq (by unfold intMin; omega) hmax
      rw [hexact, sizeT_eq (by omega) hmax] at hend
      simp only [sizeofInt, Nat.cast_ofNat] at hend
      omega

section Runs

variable {n : Int} {s : Session}

theorem Blockless.search (hs : Blockless n s) (test : MemBlock → Bool) :
    s.heap.search test = none := search_of_no_blocks hs.blocks test

/-- A call of a pool without a block accesses a table if and only if it obtains one. -/
theorem Blockless.inBounds_iff (hn : 3 ≤ n) (hmax : n + 1 ≤ intMax) (hs : Blockless n s)
    (c : Call) : InBounds s c ↔ NoTableCall c := by
  unfold InBounds Session.accesses
  cases c with
  | malloc g =>
    have hthird : n.tdiv 3 = n / 3 := Int.tdiv_eq_ediv_of_nonneg (by omega)
    simp only [hs.noFault, if_true, Heap.mallocAccesses, hs.search, hs.tail, hs.elemNum]
    rw [List.append_nil]
    exact alloc_in_bounds_iff (by omega) (by omega) g
  | free p => simp [hs.noFault, Heap.freeAccesses, Heap.owner, hs.search, NoTableCall]

/-- A pool without a block stays so while no table is obtained. -/
theorem Blockless.step (hs : Blockless n s) {c : Call} (hc : NoTableCall c) :
    Blockless n (s.step c) := by
  cases c with
  | malloc g =>
    have hfull : ¬ g.Full := by
      rintro ⟨hheader, htable, -⟩
      exact hc.elim hheader htable
    have hm := (malloc_blockless hs.blocks hs.tail g).2
    rw [if_neg hfull] at hm
    rw [step_returns hs.noFault hm]
    exact ⟨hs.noFault, hs.blocks, hs.tail, hs.elemNum⟩
  | free p =>
    rw [step_free p hs.noFault, free_miss (hs.search _)]
    exact ⟨hs.noFault, hs.blocks, hs.tail, hs.elemNum⟩

/-- In every run of a pool, each access to a table is to bytes requested for it if and only if
    no table is obtained, neither by `mem_pool_create` nor by any `mem_pool_malloc`. -/
theorem table_in_bounds_iff {es : Int} (hn : 3 ≤ n) (hmax : n + 1 ≤ intMax) {poolAt : Int}
    {g : Grant} {h : Heap} (hc : memPoolCreate (some poolAt) g es n = some h)
    (calls : List Call) :
    (∀ a ∈ allocBlockAccesses g n, a.Within) ∧
        Along Session.step InBounds (.start h) calls ↔
      g.NoTable ∧ ∀ c ∈ calls, NoTableCall c := by
  rw [alloc_in_bounds_iff (by omega) hmax]
  refine and_congr_right fun hg => ?_
  have hfull : ¬ g.Full := by
    rintro ⟨hheader, htable, -⟩
    exact hg.elim hheader htable
  obtain rfl := Option.some.inj ((create_blockless hfull poolAt es n).symm.trans hc)
  rw [← along_event Session.step]
  have hstep : ∀ s c, Blockless n s → NoTableCall c → Blockless n (s.step c) :=
    fun _ _ hs hc => hs.step hc
  exact along_iff hstep (fun _ c hs => hs.inBounds_iff hn hmax c) ⟨rfl, rfl, rfl, rfl⟩ calls

end Runs

/-- `mem_pool_create(4, 3)` without memory for a block. -/
def barePool : Heap := (memPoolCreate (some 16) noBlock 4 3).get (by decide)

theorem bare_in_bounds :
    (∀ a ∈ allocBlockAccesses noBlock 3, a.Within) ∧
      Along Session.step InBounds (.start barePool) [.malloc noBlock, .malloc noBlock] :=
  (@table_in_bounds_iff 3 4 (by decide) (by decide) 16 noBlock barePool rfl _).2
    ⟨by decide, by simp [NoTableCall, noBlock, Grant.NoTable]⟩

/-- `mem_pool_create(4, 3)` requests four bytes for a table of four words. -/
theorem small_table_overrun :
    memPoolCreate (some 16) (grantAt 1000) 4 3 = some smallPool ∧
      ⟨1, 4⟩ ∈ allocBlockAccesses (grantAt 1000) 3 ∧ ¬ (⟨1, 4⟩ : TableAccess).Within ∧
      ¬ ((∀ a ∈ allocBlockAccesses (grantAt 1000) 3, a.Within) ∧
        Along Session.step InBounds (.start smallPool) []) :=
  ⟨rfl, by decide, by decide, fun hall => absurd (hall.1 ⟨1, 4⟩ (by decide)) (by decide)⟩

end GameServer.Pool
