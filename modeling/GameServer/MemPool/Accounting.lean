/-
  The block list and the pool's counters.

  Whatever happens, the list from `pool->head` ends at `pool->tail`, and its blocks have the
  sizes they were asked for (`Ordered`, kept by every call). `pool->elem_total` is meant to
  be the number of elements in all blocks, but `mem_pool_malloc` adds `pool->elem_num` for a
  block of `pool->elem_num / 3` elements: a call keeps the counter right if and only if it
  does not extend the pool (`Unextended.accounted_step_iff`).
-/
import Mathlib.Algebra.BigOperators.Group.List.Basic
import GameServer.MemPool.Conservation
import GameServer.MemPool.Failure

namespace GameServer.Pool

open CInt Runs

/-- `path` are the headers met from `pos` along `next`, up to NULL. -/
inductive ListFrom (blocks : List MemBlock) : Option Nat → List Nat → Prop
  | null : ListFrom blocks none []
  | block {pos : Nat} {b : MemBlock} {path : List Nat} (hb : blocks[pos]? = some b)
      (hnext : ListFrom blocks b.next path) : ListFrom blocks (some pos) (pos :: path)

/-- The list of the pool made by `mem_pool_create(_, n)`: it reaches NULL without meeting a
    block twice, its last block is `pool->tail`, the first has `n` elements and every other
    `n / 3`. -/
structure Ordered (n : Int) (h : Heap) : Prop where
  ends : ListFrom h.blocks h.pool.head h.blockList
  acyclic : h.blockList.Nodup
  tail : ∃ pos b, h.pool.tail = some pos ∧ h.blockList.getLast? = some pos ∧
    h.blocks[pos]? = some b ∧ b.next = none
  sizes : ∃ k, h.poolBlocks.map MemBlock.elemNum = n :: List.replicate k (n.tdiv 3)

/-- The list is in order, and `elem_total` is the number of elements in its blocks. -/
structure Accounted (n : Int) (h : Heap) : Prop where
  ordered : Ordered n h
  total : h.pool.elemTotal = h.capacity

/-- The system `malloc` does not fail when a block is built. -/
def Supplied (s : Session) : Call → Prop
  | .malloc g => s.heap.search MemBlock.hasRoom = none → g.Full
  | .free _ => True

instance (s : Session) : (c : Call) → Decidable (Supplied s c)
  | .malloc _ => inferInstanceAs (Decidable (_ → _))
  | .free _ => inferInstanceAs (Decidable True)

/-- A call of `mem_pool_malloc` finds a block with room. -/
def NoGrowth (s : Session) : Call → Prop
  | .malloc _ => s.heap.search MemBlock.hasRoom ≠ none
  | .free _ => True

instance (s : Session) : (c : Call) → Decidable (NoGrowth s c)
  | .malloc _ => inferInstanceAs (Decidable (_ ≠ _))
  | .free _ => inferInstanceAs (Decidable True)

/-! ## The list -/

theorem listFrom_chained {blocks : List MemBlock} (hc : Chained blocks) (d : Nat) :
    ∀ pos, pos + d + 1 = blocks.length →
      ListFrom blocks (some pos) (List.range' pos (d + 1)) := by
  induction d with
  | zero =>
    intro pos hpos
    have hb : blocks[pos]? = some blocks[pos] := List.getElem?_eq_getElem (by omega)
    refine .block hb ?_
    rw [hc pos _ hb, if_neg (by omega)]
    exact .null
  | succ d ih =>
    intro pos hpos
    have hb : blocks[pos]? = some blocks[pos] := List.getElem?_eq_getElem (by omega)
    rw [List.range'_succ]
    refine .block hb ?_
    rw [hc pos _ hb, if_pos (by omega)]
    exact ih (pos + 1) (by omega)

theorem Linked.ordered {h : Heap} (hl : Linked h) {n : Int}
    (hsizes : ∃ k, h.blocks.map MemBlock.elemNum = n :: List.replicate k (n.tdiv 3)) :
    Ordered n h := by
  have hpos := hl.nonempty
  have hlast : h.blocks[h.blocks.length - 1]? = some h.blocks[h.blocks.length - 1] :=
    List.getElem?_eq_getElem (by omega)
  refine ⟨?_, ?_, ⟨_, _, hl.tail, ?_, hlast, ?_⟩, ?_⟩
  · rw [hl.blockList, hl.head, List.range_eq_range']
    have hlen : h.blocks.length = h.blocks.length - 1 + 1 := by omega
    rw [hlen]
    exact listFrom_chained hl.chained _ 0 (by omega)
  · rw [hl.blockList]
    exact List.nodup_range
  · rw [hl.blockList, List.getLast?_range, if_neg (by omega)]
  · rw [hl.chained _ _ hlast, if_neg (by omega)]
  · rw [hl.poolBlocks]
    exact hsizes

/-! ## What a call does to the list and the counter -/

/-- A pool that started with `n` elements and has been extended `k` times. -/
structure Grown (n : Int) (k : Nat) (s : Session) : Prop where
  running : Running s
  elemNum : s.heap.pool.elemNum = n
  sizes : s.heap.blocks.map MemBlock.elemNum = n :: List.replicate k (n.tdiv 3)

section Step

variable {n : Int} {k : Nat} {s : Session}

theorem Grown.ordered (hs : Grown n k s) : Ordered n s.heap :=
  hs.running.linked.ordered ⟨k, hs.sizes⟩

theorem Grown.capacity (hs : Grown n k s) : s.heap.capacity = n + k * n.tdiv 3 := by
  unfold Heap.capacity
  rw [hs.running.linked.poolBlocks, hs.sizes, List.sum_cons, List.sum_replicate, nsmul_eq_mul]

/-- A call that does not extend the pool leaves the sizes and the counter. -/
theorem Grown.still (hs : Grown n k s) {c : Call} (hno : NoGrowth s c) :
    Grown n k (s.step c) ∧ (s.step c).heap.pool.elemTotal = s.heap.pool.elemTotal := by
  have hrun := hs.running.step c
  cases c with
  | malloc g =>
    obtain ⟨r, h', hm, hr⟩ := malloc_returns hs.running.linked g
    rw [step_returns hs.running.noFault hm] at hrun ⊢
    cases hr with
    | @reuse pos b hroom hb =>
      have hsizes : (s.heap.blocks.set pos b.take.2).map MemBlock.elemNum =
          s.heap.blocks.map MemBlock.elemNum := ListUpdate.map_set_eq hb rfl
      exact ⟨⟨hrun, hs.elemNum, hsizes.trans hs.sizes⟩, rfl⟩
    | grow hroom hb hblocks hpool hobt hrel hat => exact absurd hroom hno
    | fails hroom hb => exact absurd hroom hno
  | free p =>
    rw [step_free p hs.running.noFault] at hrun ⊢
    cases hsearch : s.heap.search (·.accepts p) with
    | none =>
      rw [free_miss hsearch] at hrun ⊢
      exact ⟨⟨hrun, hs.elemNum, hs.sizes⟩, rfl⟩
    | some pos =>
      rw [free_hit hsearch] at hrun ⊢
      have hsizes : (s.heap.blocks.modify pos fun b => b.putBack (b.freeOffset p)).map
          MemBlock.elemNum = s.heap.blocks.map MemBlock.elemNum :=
        ListUpdate.map_modify_eq _ _ fun _ => rfl
      exact ⟨⟨hrun, hs.elemNum, hsizes.trans hs.sizes⟩, rfl⟩

/-- A call that extends the pool adds a block of `n / 3` elements, and `n` to the counter. -/
theorem Grown.grows (hs : Grown n k s) {g : Grant} (hg : g.Full)
    (hroom : s.heap.search MemBlock.hasRoom = none) :
    Grown n (k + 1) (s.step (.malloc g)) ∧
      (s.step (.malloc g)).heap.pool.elemTotal = i32 (s.heap.pool.elemTotal + n) := by
  have hrun := hs.running.step (.malloc g)
  obtain ⟨r, h', hm, hr⟩ := malloc_returns hs.running.linked g
  rw [step_returns hs.running.noFault hm] at hrun ⊢
  cases hr with
  | reuse hs' hb => exact absurd (hs'.symm.trans hroom) (by simp)
  | fails hs' hb => exact absurd hg ((g.not_full_iff _ _).2 hb)
  | @grow b h' hs' hb hblocks hpool hobt hrel hat =>
    rw [hs.elemNum] at hb hpool
    have hnum : b.take.2.elemNum = n.tdiv 3 := by
      obtain ⟨header, table, data, -, rfl⟩ := block_eq_some hb
      rfl
    refine ⟨⟨hrun, ?_, ?_⟩, by rw [hpool]⟩
    · rw [hpool]
      exact hs.elemNum
    · show h'.blocks.map MemBlock.elemNum = _
      rw [hblocks, map_extended fun _ _ => rfl, hs.sizes, hnum, List.cons_append,
        ← List.replicate_succ']

/-- A pool that has not been extended, with its counter at `n`. -/
structure Unextended (n : Int) (s : Session) : Prop where
  grown : Grown n 0 s
  total : s.heap.pool.elemTotal = n

theorem Unextended.step (hs : Unextended n s) {c : Call} (hno : NoGrowth s c) :
    Unextended n (s.step c) := by
  obtain ⟨hstill, htotal⟩ := hs.grown.still hno
  exact ⟨hstill, htotal.trans hs.total⟩

theorem Unextended.accounted (hs : Unextended n s) : Accounted n s.heap := by
  refine ⟨hs.grown.ordered, ?_⟩
  rw [hs.total, hs.grown.capacity]
  simp

/-- One step: the counter stays right if and only if the pool is not extended. -/
theorem Unextended.accounted_step_iff (hn : 3 ≤ n) (hmax : n ≤ intMax) (hs : Unextended n s)
    {c : Call} (hsup : Supplied s c) : Accounted n (s.step c).heap ↔ NoGrowth s c := by
  constructor
  · intro hacc
    cases c with
    | free p => trivial
    | malloc g =>
      intro hroom
      obtain ⟨hgrown, htotal⟩ := hs.grown.grows (hsup hroom) hroom
      have heq := hacc.total
      rw [htotal, hgrown.capacity, hs.total, Int.tdiv_eq_ediv_of_nonneg (by omega)] at heq
      -- `2 n` and `n + n / 3` differ, also when the sum wraps
      unfold i32 intMax at *
      have hmod := Int.bmod_emod (x := n + n) (m := 2 ^ 32)
      omega
  · exact fun hno => (hs.step hno).accounted

end Step

/-! ## Runs -/

theorem unextended_create {poolAt es n : Int} {g : Grant} (hg : g.Full) {h : Heap}
    (hc : memPoolCreate (some poolAt) g es n = some h) :
    Unextended n (.start h) := by
  have hrun := (create_running hg hc).2
  obtain ⟨b, hb⟩ := (g.full_iff es n).1 hg
  obtain ⟨hblocks, hpool, -⟩ := create_block hb hc
  have hnum : b.elemNum = n := by
    obtain ⟨header, table, data, -, rfl⟩ := block_eq_some hb
    rfl
  refine ⟨⟨hrun, by rw [Session.start, hpool], ?_⟩, by rw [Session.start, hpool]⟩
  show h.blocks.map MemBlock.elemNum = _
  rw [hblocks, List.map_singleton, hnum, List.replicate_zero]

end GameServer.Pool
