/-
  What `mem_pool_destroy` gives back.

  `mem_pool_destroy` frees the pool and the three regions of every block in the list. A
  block is in the list once all three of its `malloc` calls have succeeded; when the second
  or the third fails, `__mem_pool_alloc_block` returns NULL and drops what it has obtained.
  So in a run that does not crash, what is lost is what blocks given up midway had obtained
  (`Books.run`), and `mem_pool_destroy` returns all the rest (`Books.destroyed`).
-/
import GameServer.Lib.Ledger
import GameServer.MemPool.Failure

namespace GameServer.Pool

open CInt Runs Ledger

/-- The construction of a block succeeds, or fails before it has obtained anything. -/
def Grant.Clean (g : Grant) : Prop := g.header = none ∨ g.Full

instance (g : Grant) : Decidable g.Clean := inferInstanceAs (Decidable (_ ∨ _))

/-- No block is given up midway. -/
def CleanCall (s : Session) : Call → Prop
  | .malloc g => s.heap.search MemBlock.hasRoom = none → g.Clean
  | .free _ => True

instance (s : Session) : (c : Call) → Decidable (CleanCall s c)
  | .malloc _ => inferInstanceAs (Decidable (_ → _))
  | .free _ => inferInstanceAs (Decidable True)

theorem Grant.leaked_eq_nil {g : Grant} (hg : ¬ g.Full) (n : Int) : g.leaked n = [] ↔ g.Clean := by
  unfold Grant.Clean
  rw [or_iff_left hg]
  obtain ⟨header, table, data, residue⟩ := g
  cases header <;> cases table <;> simp [Grant.leaked]

/-! ## Destruction -/

/-- The regions that `mem_pool_destroy` would free. -/
def Heap.held (h : Heap) : List Region := h.blocks.flatMap MemBlock.regions ++ [h.poolAt]

theorem freeBlocks (blocks : List MemBlock) (h : Heap) :
    (blocks.foldl memPoolFreeBlock h).obtained = h.obtained ∧
      ((blocks.foldl memPoolFreeBlock h).released : Multiset Region) =
        blocks.flatMap MemBlock.regions + h.released := by
  induction blocks generalizing h with
  | nil => simp
  | cons b blocks ih =>
    obtain ⟨hobt, hrel⟩ := ih (memPoolFreeBlock h b)
    refine ⟨hobt, ?_⟩
    have hb : ((memPoolFreeBlock h b).released : Multiset Region) = b.regions + h.released := by
      have hperm : (memPoolFreeBlock h b).released.Perm (b.regions ++ h.released) :=
        (List.Perm.swap _ _ _).trans ((List.Perm.swap _ _ _).cons _)
      simpa using Multiset.coe_eq_coe.2 hperm
    rw [List.foldl_cons, hrel, hb, List.flatMap_cons, ← Multiset.coe_add, add_left_comm, add_assoc]

/-- `mem_pool_destroy` frees the pool and all blocks. -/
theorem destroy_released {h : Heap} (hl : h.Listed) :
    (memPoolDestroy h).obtained = h.obtained ∧
      ((memPoolDestroy h).released : Multiset Region) = h.held + h.released := by
  have hwalk : memPoolDestroy h = (h.blocks.foldl memPoolFreeBlock h).release h.poolAt := by
    rw [← ListUpdate.filterMap_range h.blocks, List.foldl_filterMap, ← hl]
    unfold memPoolDestroy
    congr 2
    funext h' pos
    cases h.blocks[pos]? <;> rfl
  obtain ⟨hobt, hrel⟩ := freeBlocks h.blocks h
  rw [hwalk]
  refine ⟨hobt, ?_⟩
  show ((h.poolAt :: (h.blocks.foldl memPoolFreeBlock h).released : List Region) :
    Multiset Region) = _
  rw [← Multiset.cons_coe, hrel, Heap.held, ← Multiset.coe_add, Multiset.coe_singleton,
    add_right_comm, Multiset.add_comm _ {h.poolAt}, Multiset.singleton_add]

/-! ## The books of a run -/

/-- The pool is linked, or was created without a block; nothing has been released, and what
    was obtained is in the pool or `lost`. -/
structure Books (lost : Multiset Region) (h : Heap) : Prop where
  shape : Linked h ∨ h.blocks = [] ∧ h.pool.head = none ∧ h.pool.tail = none
  unreleased : h.released = []
  accounts : Accounts (h.obtained : Multiset Region) (h.released : Multiset Region) h.held lost

theorem Books.listed {lost : Multiset Region} {h : Heap} (hb : Books lost h) : h.Listed := by
  rcases hb.shape with hl | ⟨hnone, -⟩
  · exact hl.listed
  · exact listed_of_no_blocks hnone

/-- After `mem_pool_destroy` nothing is held. -/
theorem Books.destroyed {lost : Multiset Region} {h : Heap} (hb : Books lost h) :
    Accounts ((memPoolDestroy h).obtained : Multiset Region)
      ((memPoolDestroy h).released : Multiset Region) 0 lost := by
  obtain ⟨hobt, hrel⟩ := destroy_released hb.listed
  rw [hobt, hrel]
  exact hb.accounts.release

theorem held_congr {h h' : Heap}
    (hregions : h'.blocks.map MemBlock.regions = h.blocks.map MemBlock.regions)
    (hat : h'.poolAt = h.poolAt) : h'.held = h.held := by
  unfold Heap.held
  rw [List.flatMap_def, List.flatMap_def, hregions, hat]

theorem held_grow {h h' : Heap} {b : MemBlock}
    (hblocks : h'.blocks =
      h.blocks.modify (h.blocks.length - 1) (.setNext h.blocks.length) ++ [b])
    (hat : h'.poolAt = h.poolAt) :
    (h'.held : Multiset Region) = h.held + b.regions := by
  unfold Heap.held
  rw [hblocks, hat, List.flatMap_def, map_extended fun _ _ => rfl, List.flatten_append,
    List.flatten_singleton, ← List.flatMap_def]
  simp only [← Multiset.coe_add]
  rw [add_right_comm]

/-- One call of `mem_pool_malloc` on a linked pool. -/
theorem Books.returns {lost : Multiset Region} {h h' : Heap} (hb : Books lost h) (hl : Linked h)
    {g : Grant} {r : Option Int} (hr : Returns h g r h') :
    ∃ more, Books (more + lost) h' ∧
      (more = 0 ↔ (h.search MemBlock.hasRoom = none → g.Clean)) := by
  have hl' := hl.returns hr
  have hacc := hb.accounts
  cases hr with
  | @reuse pos b hs hat =>
    refine ⟨0, ⟨Or.inl hl', hb.unreleased, ?_⟩, by simp [hs]⟩
    have hregions : (h.blocks.set pos b.take.2).map MemBlock.regions =
        h.blocks.map MemBlock.regions := ListUpdate.map_set_eq hat rfl
    have hheld : ({ h with blocks := h.blocks.set pos b.take.2 } : Heap).held = h.held :=
      held_congr hregions rfl
    rw [zero_add, hheld]
    exact hacc
  | @grow b h' hs hbuilt hblocks hpool hobt hrel hat =>
    have hfull : g.Full := (g.full_iff _ _).2 ⟨b, hbuilt⟩
    refine ⟨0, ⟨Or.inl hl', hrel.trans hb.unreleased, ?_⟩, by simp [Grant.Clean, hfull]⟩
    have hregions : b.take.2.regions = b.regions := rfl
    rw [zero_add, held_grow hblocks hat, hobt, hrel, hregions, ← Multiset.coe_add]
    exact hacc.obtain _
  | fails hs hbuilt =>
    have hfull := (g.not_full_iff _ _).2 hbuilt
    refine ⟨g.leaked (h.pool.elemNum.tdiv 3), ⟨Or.inl hl', hb.unreleased, ?_⟩, ?_⟩
    · rw [← Multiset.coe_add]
      exact hacc.lose _
    · rw [Multiset.coe_eq_zero, Grant.leaked_eq_nil hfull]
      simp [hs]

theorem Books.free {lost : Multiset Region} {h : Heap} (hb : Books lost h) (p : Int) :
    Books lost (memPoolFree h p) := by
  cases hs : h.search (·.accepts p) with
  | none => rwa [free_miss hs]
  | some pos =>
    have hshape : Linked (memPoolFree h p) ∨ (memPoolFree h p).blocks = [] ∧
        (memPoolFree h p).pool.head = none ∧ (memPoolFree h p).pool.tail = none := by
      rcases hb.shape with hl | ⟨hnone, hpool⟩
      · exact Or.inl (hl.free p)
      · rw [free_hit hs]
        exact Or.inr ⟨by simp [hnone], hpool⟩
    have hheld : (memPoolFree h p).held = h.held := by
      rw [free_hit hs]
      exact held_congr (ListUpdate.map_modify_eq _ _ fun _ => rfl) rfl
    refine ⟨hshape, ?_, ?_⟩
    · rw [free_hit hs]
      exact hb.unreleased
    · rw [hheld, free_hit hs]
      exact hb.accounts

/-- `mem_pool_malloc` on a pool without a block: it fails, or crashes. -/
theorem malloc_blockless {h : Heap} (hnone : h.blocks = []) (htail : h.pool.tail = none)
    (g : Grant) :
    h.search MemBlock.hasRoom = none ∧
      memPoolMalloc h g =
        if g.Full then .error .nullDeref
        else .ok (none, { h with obtained := g.leaked (h.pool.elemNum.tdiv 3) ++ h.obtained }) := by
  have hs : h.search MemBlock.hasRoom = none := by
    have hlist := listed_of_no_blocks hnone
    unfold Heap.search
    rw [hlist, hnone]
    rfl
  refine ⟨hs, ?_⟩
  by_cases hg : g.Full
  · obtain ⟨b, hb⟩ := (g.full_iff h.pool.elemSize (h.pool.elemNum.tdiv 3)).1 hg
    have ht : (h.afterBuild b).pool.tail = none := htail
    rw [if_pos hg]
    unfold memPoolMalloc
    rw [hs, allocBlock_block hb]
    simp only [ht]
  · rw [if_neg hg, malloc_fails hs ((g.not_full_iff _ _).1 hg)]

/-- The step lemma: a call that does not crash loses something if and only if it gives a
    block up midway. -/
theorem Books.step {lost : Multiset Region} {s : Session} (hb : Books lost s.heap)
    (hf : s.fault = none) (c : Call) (hf' : (s.step c).fault = none) :
    ∃ more, Books (more + lost) (s.step c).heap ∧ (more = 0 ↔ CleanCall s c) := by
  cases c with
  | free p =>
    rw [step_free p hf]
    refine ⟨0, ?_, by simp [CleanCall]⟩
    rw [zero_add]
    exact hb.free p
  | malloc g =>
    rcases hb.shape with hl | ⟨hnone, hhead, htail⟩
    · obtain ⟨r, h', hm, hr⟩ := malloc_returns hl g
      rw [step_returns hf hm]
      exact hb.returns hl hr
    · obtain ⟨hs, hm⟩ := malloc_blockless hnone htail g
      by_cases hg : g.Full
      · rw [if_pos hg] at hm
        simp [Session.step, hf, hm] at hf'
      · rw [if_neg hg] at hm
        rw [step_returns hf hm]
        refine ⟨g.leaked (s.heap.pool.elemNum.tdiv 3),
          ⟨Or.inr ⟨hnone, hhead, htail⟩, hb.unreleased, ?_⟩, ?_⟩
        · show Accounts ((g.leaked _ ++ s.heap.obtained : List Region) : Multiset Region) _ _ _
          rw [← Multiset.coe_add]
          exact hb.accounts.lose _
        · rw [Multiset.coe_eq_zero, Grant.leaked_eq_nil hg]
          exact ⟨fun hclean _ => hclean, fun hclean => hclean hs⟩

theorem exec_faulted {s : Session} (hf : s.fault ≠ none) (calls : List Call) :
    exec Session.step s calls = s := by
  induction calls with
  | nil => rfl
  | cons c calls ih =>
    have hstep : s.step c = s := by
      unfold Session.step
      cases hs : s.fault with
      | none => exact absurd hs hf
      | some f => cases c <;> rfl
    rw [exec_cons, hstep, ih]

/-- The run lemma. -/
theorem Books.run {calls : List Call} : ∀ {lost : Multiset Region} {s : Session},
    Books lost s.heap → (exec Session.step s calls).fault = none →
      ∃ more, Books (more + lost) (exec Session.step s calls).heap ∧
        (more = 0 ↔ Along Session.step CleanCall s calls) := by
  induction calls with
  | nil => exact fun {lost s} hb _ => ⟨0, by rwa [zero_add], by simp⟩
  | cons c calls ih =>
    intro lost s hb hrun
    have hf' : (s.step c).fault = none := by
      by_contra hf'
      rw [exec_cons, exec_faulted hf'] at hrun
      exact hf' hrun
    have hf : s.fault = none := by
      by_contra hf
      rw [exec_faulted hf] at hrun
      exact hf hrun
    obtain ⟨now, hnow, hclean⟩ := hb.step hf c hf'
    obtain ⟨later, hlater, hcleans⟩ := ih hnow hrun
    refine ⟨later + now, ?_, ?_⟩
    · rw [add_assoc]
      exact hlater
    · rw [along_cons, ← hclean, ← hcleans, add_eq_zero, and_comm]

/-- What `mem_pool_create` leaves. -/
theorem books_create {poolAt es n : Int} {g : Grant} {h : Heap}
    (hc : memPoolCreate (some poolAt) g es n = some h) :
    ∃ lost, Books lost h ∧ (lost = 0 ↔ g.Clean) := by
  by_cases hg : g.Full
  · obtain ⟨b, hb⟩ := (g.full_iff es n).1 hg
    obtain ⟨hblocks, hpool, hobt, hrel, hat⟩ := create_block hb hc
    refine ⟨0, ⟨Or.inl (create_running hg hc).2.linked, hrel, ?_⟩, by simp [Grant.Clean, hg]⟩
    unfold Accounts
    rw [hobt, hrel, Heap.held, hblocks, hat]
    simp
  · obtain rfl := Option.some.inj ((create_blockless hg poolAt es n).symm.trans hc)
    refine ⟨g.leaked n, ⟨Or.inr ⟨rfl, rfl, rfl⟩, rfl, ?_⟩, ?_⟩
    · unfold Accounts Heap.held
      rw [← Multiset.coe_add, add_comm]
      simp
    · rw [Multiset.coe_eq_zero, Grant.leaked_eq_nil hg]

end GameServer.Pool
