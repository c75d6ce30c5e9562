/-
  Allocations that fail.

  `mem_pool_malloc` checks whether its block could be built, so no call ends the run of a
  pool that has a block (`Running.step`). `mem_pool_create` does not check: it returns a pool
  without a block (`create_blockless`), and the first `mem_pool_malloc` that builds one writes
  through the NULL in `pool->tail`.
-/
import GameServer.MemPool.Session

namespace GameServer.Pool

open CInt Runs

/-- `pool->head` and `pool->tail` are the same block. -/
def HasBlock (h : Heap) : Prop :=
  ∃ pos b, h.pool.head = some pos ∧ h.pool.tail = some pos ∧ h.blocks[pos]? = some b

/-! ## Runs on a linked pool -/

theorem step_returns {s : Session} {g : Grant} {r : Option Int} {h' : Heap}
    (hf : s.fault = none) (hm : memPoolMalloc s.heap g = .ok (r, h')) :
    s.step (.malloc g) = { s with heap := h', live := r.toList ++ s.live } := by
  unfold Session.step
  cases r <;> simp [hf, hm]

/-- The run goes on, with a linked pool. -/
structure Running (s : Session) : Prop where
  noFault : s.fault = none
  linked : Linked s.heap

/-- No call ends the run, whichever `malloc` fails and whatever is freed. -/
theorem Running.step {s : Session} (hs : Running s) (c : Call) : Running (s.step c) := by
  cases c with
  | malloc g =>
    obtain ⟨r, h', hm, hr⟩ := malloc_returns hs.linked g
    rw [step_returns hs.noFault hm]
    exact ⟨hs.noFault, hs.linked.returns hr⟩
  | free p =>
    rw [step_free p hs.noFault]
    exact ⟨hs.noFault, hs.linked.free p⟩

/-- `elem_size` and `elem_num` are set once. -/
theorem Running.step_pool {s : Session} (hs : Running s) (c : Call) :
    (s.step c).heap.pool.elemSize = s.heap.pool.elemSize ∧
      (s.step c).heap.pool.elemNum = s.heap.pool.elemNum := by
  cases c with
  | malloc g =>
    obtain ⟨r, h', hm, hr⟩ := malloc_returns hs.linked g
    rw [step_returns hs.noFault hm]
    cases hr with
    | reuse hroom hb => exact ⟨rfl, rfl⟩
    | grow hroom hb hblocks hpool hobt hrel hat => simp only [hpool, and_self]
    | fails hroom hb => exact ⟨rfl, rfl⟩
  | free p =>
    rw [step_free p hs.noFault]
    cases hsearch : s.heap.search (·.accepts p) with
    | none => simp only [free_miss hsearch, and_self]
    | some pos => simp only [free_hit hsearch, and_self]

/-- What holds of every block before a call holds after it, if it holds of the slot-taking
    block, of a new block and of the block that takes a slot back. -/
theorem Running.forall_blocks {s : Session} (hs : Running s) {P : MemBlock → Prop}
    (hall : ∀ b ∈ s.heap.blocks, P b) (c : Call)
    (hnext : ∀ b next, P b → P { b with next := next })
    (htake : ∀ b ∈ s.heap.blocks, b.hasRoom = true → P b.take.2)
    (hnew : ∀ g b, c = .malloc g → s.heap.search MemBlock.hasRoom = none →
      g.block s.heap.pool.elemSize (s.heap.pool.elemNum.tdiv 3) = some b → P b.take.2)
    (hput : ∀ p b, c = .free p → b ∈ s.heap.blocks → s.heap.owner p = some b →
      P (b.putBack (b.freeOffset p))) :
    ∀ b ∈ (s.step c).heap.blocks, P b := by
  cases c with
  | malloc g =>
    obtain ⟨r, h', hm, hr⟩ := malloc_returns hs.linked g
    rw [step_returns hs.noFault hm]
    cases hr with
    | @reuse pos b hroom hb =>
      obtain ⟨b', hb', hroom', -⟩ := hs.linked.listed.search_some.1 hroom
      obtain rfl : b = b' := Option.some.inj (hb.symm.trans hb')
      exact ListUpdate.forall_set hall pos (htake b (List.mem_of_getElem? hb) hroom')
    | @grow b h' hroom hb hblocks hpool hobt hrel hat =>
      show ∀ d ∈ h'.blocks, P d
      rw [hblocks]
      exact forall_extended hall hnext (hnew g b rfl hroom hb)
    | fails hroom hb => exact hall
  | free p =>
    rw [step_free p hs.noFault]
    cases hsearch : s.heap.search (·.accepts p) with
    | none =>
      rw [free_miss hsearch]
      exact hall
    | some pos =>
      rw [free_hit hsearch]
      exact ListUpdate.forall_modify hall fun a ha =>
        hput p a rfl (List.mem_of_getElem? ha) (owner_eq_some hsearch ha)

/-- On a linked pool a call with memory available succeeds. -/
theorem malloc_succeeds {h : Heap} (hl : Linked h) {g : Grant} (hg : g.Full) :
    ∃ p h', memPoolMalloc h g = .ok (some p, h') := by
  obtain ⟨r, h', hm, hr⟩ := malloc_returns hl g
  cases hr with
  | reuse hs hb => exact ⟨_, _, hm⟩
  | grow hs hb hblocks hpool hobt hrel hat => exact ⟨_, _, hm⟩
  | fails hs hb => exact absurd hg ((g.not_full_iff _ _).2 hb)

/-! ## Creation -/

/-- `mem_pool_create` when its block is built. -/
theorem create_running {poolAt es n : Int} {g : Grant} (hg : g.Full) {h : Heap}
    (hc : memPoolCreate (some poolAt) g es n = some h) : HasBlock h ∧ Running (.start h) := by
  obtain ⟨b, hb⟩ := (g.full_iff es n).1 hg
  obtain ⟨hblocks, hpool, -⟩ := create_block hb hc
  refine ⟨⟨0, b, by rw [hpool], by rw [hpool], by rw [hblocks]; rfl⟩, rfl, ?_⟩
  exact Linked.single hblocks (block_next hb) (by rw [Session.start, hpool])
    (by rw [Session.start, hpool])

/-- `mem_pool_create` when its block is not built: it returns a pool all the same. -/
theorem create_blockless {g : Grant} (hg : ¬ g.Full) (poolAt es n : Int) :
    memPoolCreate (some poolAt) g es n = some
      { pool := ⟨es, n, n, none, none⟩, poolAt := ⟨poolAt, sizeofMemPool⟩, blocks := [],
        bytes := fun _ => 0, obtained := g.leaked n ++ [⟨poolAt, sizeofMemPool⟩],
        released := [] } := by
  unfold memPoolCreate
  simp only [allocBlock_fails ((g.not_full_iff es n).1 hg)]

/-- No memory for the block of a new pool. -/
def noBlock : Grant := ⟨none, none, none, fun _ => 0⟩

end GameServer.Pool
