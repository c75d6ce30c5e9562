/-
  Allocations that fail, with the pool in memory.

  A `mem_pool_malloc` that returns NULL leaves every byte of the memory in use as it was, if
  what it has written by then overlaps none of it: `__mem_pool_alloc_block` initialises the
  table before it asks for the data. The first `mem_pool_malloc` on a pool without a block
  writes through the NULL in `pool->tail`. So, with that condition, a run survives every
  pattern of failures if and only if the block that `mem_pool_create` asks for is built
  (`survives_failures_iff`).
-/
import GameServer.RawPool.Accounts

namespace GameServer.RawPool

open CInt Memory Runs
open Pool (MemBlock Heap Ascending HasBlock sizeofMemPool)

/-- The pool's fields and its blocks with their tables are the same, and so is every byte of
    the memory in use. -/
structure SamePool (w w' : World) (pool : Int) : Prop where
  fields : (view w' pool).pool = (view w pool).pool
  blocks : (view w' pool).blocks = (view w pool).blocks
  bytes : ∀ r ∈ inUse (view w pool), SameOn r w.bytes w'.bytes

/-- `mem_pool_malloc` dereferences no NULL pointer. If it returns NULL, it leaves the pool as
    it was, and a call with memory available succeeds on what it leaves. -/
def SurvivesFailure (s : Session) : Call → Prop
  | .malloc g => ∃ r w, memPoolMalloc s.world s.pool g = .ok (r, w) ∧
      (r = none → SamePool s.world w s.pool ∧
        ∀ g' : Grant, g'.toPool.Full →
          Spaced (inUse s.heap) g' s.heap.pool.elemSize (s.heap.pool.elemNum.tdiv 3) →
            ∃ p w', memPoolMalloc w s.pool g' = .ok (some p, w'))
  | .free _ => True
  | .store _ _ => True

variable {es n : Int} {s : Session} {c : Call} {calls : List Call} {g : Grant}

/-! ## One call -/

/-- A session with a linked pool whose free slots are in order. -/
structure Unbroken (es n : Int) (s : Session) : Prop where
  sizing : Sizing es n s
  ascending : ∀ b ∈ s.heap.blocks, Ascending b

theorem Unbroken.intact (hn : 3 ≤ n) (hs : Unbroken es n s) (hc : FreesNothing c) :
    Intact s c := hc.intact hn hs.sizing.pool.elemNum

theorem Unbroken.tidy (hn : 3 ≤ n) (hs : Unbroken es n s) (hc : FreesNothing c)
    (hclear : Clear s c) : Tidy s c :=
  ⟨hclear, headInTable_of_ascending hs.ascending (hs.intact hn hc)⟩

theorem Unbroken.step (hes : 0 < es) (hn : 3 ≤ n) (hmax : n ≤ intMax) (hs : Unbroken es n s)
    (hc : FreesNothing c) (hclear : Clear s c) : Unbroken es n (s.step c) := by
  have ht := hs.tidy hn hc hclear
  have hkept := hs.sizing.kept
  have hasc := hkept.sound.step_keeps ht (hkept.divides hes ht.1)
    (P := fun t => ∀ b ∈ t.heap.blocks, Ascending b) hs.ascending fun c' hc' =>
      hs.sizing.pool.ascending_step (by omega) hmax hs.ascending (hs.intact hn hc c' hc')
  exact ⟨hs.sizing.step hes (by omega) hmax ht, hasc.2⟩

/-- A call with memory available succeeds on a pool that is exhausted. -/
theorem malloc_grows {w : World} {pool : Int} {h : Heap} (hm : Models w pool h)
    (hl : Pool.Linked h) (hq : 0 < h.pool.elemNum.tdiv 3)
    (hroom : h.search MemBlock.hasRoom = none) (hg : g.toPool.Full)
    (hsp : Spaced (inUse h) g h.pool.elemSize (h.pool.elemNum.tdiv 3)) :
    ∃ p w', memPoolMalloc w pool g = .ok (some p, w') := by
  obtain ⟨p, h', hpool⟩ := Pool.malloc_succeeds hl hg
  have hin : ∀ b ∈ h.chosen g.toPool, InTable b.elemNum b.head := by
    intro b hb
    unfold Heap.chosen at hb
    simp only [hroom] at hb
    obtain ⟨header, table, data, -, rfl⟩ := toPool_block hb
    exact ⟨Int.min_le_left _ _, Int.le_of_lt hq⟩
  rcases hm.malloc hin fun _ => hsp with ⟨r, w', h'', hraw, hpool', -⟩ | ⟨-, hfault⟩
  · obtain ⟨rfl, -⟩ := Prod.mk.inj (Except.ok.inj (hpool.symm.trans hpool'))
    exact ⟨p, w', hraw⟩
  · cases hpool.symm.trans hfault

theorem Unbroken.survives (hn : 3 ≤ n) (hs : Unbroken es n s) (hc : FreesNothing c)
    (hclear : Clear s c) : SurvivesFailure s c := by
  cases c with
  | free p => trivial
  | store p v => trivial
  | malloc g =>
    have hlinked := hs.sizing.pool.running.linked
    obtain ⟨r, h', hpool, hr⟩ := Pool.malloc_returns hlinked g.toPool
    rcases hs.sizing.kept.sound.malloc (hs.tidy hn hc hclear) with
      ⟨r', w, hraw, hpool', hm, hkept⟩ | ⟨-, hfault⟩
    · obtain ⟨rfl, rfl⟩ := Prod.mk.inj (Except.ok.inj (hpool.symm.trans hpool'))
      refine ⟨r, w, hraw, fun hnone => ?_⟩
      subst hnone
      generalize hview : view w s.pool = h' at hr hm
      cases hr with
      | fails hroom hb =>
        have hq : 0 < s.toPool.heap.pool.elemNum.tdiv 3 := by
          rw [hs.sizing.pool.elemNum]
          exact Pool.third_pos hn
        have hsame : (view w s.pool).pool = s.heap.pool ∧
            (view w s.pool).blocks = s.heap.blocks := by
          rw [hview]
          exact ⟨rfl, rfl⟩
        refine ⟨⟨hsame.1, hsame.2, hkept rfl⟩, fun g' hg' hsp => ?_⟩
        exact malloc_grows hm { hlinked with } hq hroom hg' hsp
    · cases hpool.symm.trans hfault

/-! ## Creation -/

/-- `mem_pool_create` when its block is built. -/
theorem begun_unbroken (hes : InInt es) (hn : 0 ≤ n) (hmax : n ≤ intMax) (hg : g.toPool.Full)
    (hb : Begun g es n s) : HasBlock s.heap ∧ Unbroken es n s := by
  have hn' : InInt n := ⟨by unfold intMin; omega, hmax⟩
  obtain ⟨hs, hstart, pool, hpool⟩ := hb.start hes hn'
  obtain ⟨hsizing, b, hblock, hblocks⟩ := Pool.sizing_create hn hg hpool
  refine ⟨(Pool.create_running hg hpool).1, ⟨hb.kept hes hn', hstart ▸ hsizing⟩, ?_⟩
  intro b' hb'
  rw [hblocks, List.mem_singleton] at hb'
  rw [hb']
  exact (Pool.ascending_block hn hmax hblock).1

/-- `mem_pool_create` when its block is not built: the pool has none. -/
theorem begun_blockless (hes : InInt es) (hn : InInt n) (hg : ¬ g.toPool.Full)
    (hb : Begun g es n s) : ¬ HasBlock s.heap := by
  obtain ⟨-, -, pool, hpool⟩ := hb.start hes hn
  have hheap := Option.some.inj ((Pool.create_blockless hg pool es n).symm.trans hpool)
  rintro ⟨pos, b, hhead, -⟩
  rw [← hheap] at hhead
  cases hhead

/-- For every pattern of failures, where nothing that is written overlaps: the pool returned by
    `mem_pool_create` has a block and every later `mem_pool_malloc` is survived, if and only if
    `mem_pool_create` returned NULL or the three `malloc` calls for its block succeeded. -/
theorem survives_failures_iff (hes : 0 < es) (hesmax : es ≤ intMax) (hn : 3 ≤ n)
    (hmax : n ≤ intMax) (m : Mem) (poolAt : Option Int) (g : Grant)
    (hsp : ∀ pool ∈ poolAt, Spaced [⟨pool, sizeofMemPool⟩] g es n) (calls : List Call)
    (hfree : ∀ c ∈ calls, FreesNothing c)
    (hclear : ∀ s, Session.create m poolAt g es n = some s → Along Session.step Clear s calls) :
    (∀ s, Session.create m poolAt g es n = some s →
        HasBlock s.heap ∧ Along Session.step SurvivesFailure s calls) ↔
      (poolAt ≠ none → g.toPool.Full) := by
  have hes' : InInt es := ⟨by unfold intMin; omega, hesmax⟩
  have hn' : InInt n := ⟨by unfold intMin; omega, hmax⟩
  cases poolAt with
  | none => simp [Session.create, memPoolCreate]
  | some pool =>
    have hbegun : ∀ s, Session.create m (some pool) g es n = some s → Begun g es n s :=
      fun s hs => ⟨m, pool, hs, hsp pool rfl⟩
    constructor
    · intro hall _
      by_contra hg
      obtain ⟨w, h, hw, -⟩ := create_models m (hsp pool rfl) hes' hn'
      have hcreate : Session.create m (some pool) g es n = some ⟨w, pool, [], none⟩ := by
        unfold Session.create
        rw [hw]
      exact begun_blockless hes' hn' hg (hbegun _ hcreate) (hall _ hcreate).1
    · intro hg s hs
      obtain ⟨hblock, hun⟩ := begun_unbroken hes' (by omega) hmax (hg (by simp)) (hbegun s hs)
      refine ⟨hblock, ?_⟩
      exact along_of_inv (fun _ _ hs hc => Unbroken.step hes hn hmax hs hc.1 hc.2)
        (fun _ _ hs hc => hs.survives hn hc.1 hc.2) hun
        ((along_and _ _).2 ⟨(along_event _ _ _).2 hfree, hclear s hs⟩)

/-- Three elements, a fourth that fails after the table of its block was written, and one with
    memory available. -/
def retried : List Call :=
  mallocs (List.replicate 3 (grantAt 2000) ++ [noData, grantAt 3000])

theorem retried_survives : HasBlock smallSession.heap ∧
    Along Session.step SurvivesFailure smallSession retried := by
  refine (survives_failures_iff (by decide) (by decide) (by decide) (by decide) (fun _ => 7)
    (some 16) (grantAt 1000) ?_ retried ?_ ?_).2 (by decide) smallSession rfl
  · rintro pool ⟨⟩
    decide
  · simp [retried, mallocs, FreesNothing]
  · rintro s ⟨⟩
    decide +kernel

/-- `mem_pool_create(4, 3)` with no memory for its block. -/
def blocklessSession : Session := sessionOf ⟨none, none, none⟩ 4 3

/-- The pool without a block is returned, and the next `mem_pool_malloc` crashes although
    memory is available again. -/
theorem null_tail_dereferenced :
    Session.create (fun _ => 7) (some 16) ⟨none, none, none⟩ 4 3 = some blocklessSession ∧
      Along Session.step Clear blocklessSession [.malloc (grantAt 1000)] ∧
      poolHead blocklessSession.world.bytes blocklessSession.pool = 0 ∧
      poolTail blocklessSession.world.bytes blocklessSession.pool = 0 ∧
      ¬ (HasBlock blocklessSession.heap ∧
        Along Session.step SurvivesFailure blocklessSession [.malloc (grantAt 1000)]) ∧
      (blocklessSession.step (.malloc (grantAt 1000))).fault = some .nullDeref := by
  refine ⟨rfl, by decide +kernel, by decide +kernel, by decide +kernel, ?_, by decide +kernel⟩
  rintro ⟨-, ⟨r, w, hm, -⟩, -⟩
  have hcrash : (memPoolMalloc blocklessSession.world blocklessSession.pool
      (grantAt 1000)).map (fun _ => ()) = .error .nullDeref := by decide +kernel
  rw [hm] at hcrash
  cases hcrash

end GameServer.RawPool
