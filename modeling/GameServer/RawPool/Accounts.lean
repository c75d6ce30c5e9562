/-
  Counters, sizes and what is given back, for the pool in memory.

  In a run where nothing that is written overlaps and no entry outside a table is read, the
  pool's list and `elem_total` are right until the pool is extended
  (`accounting_iff_no_growth`), the sizes of all blocks are exact if those of the first are
  (`sizes_iff_first`), and `mem_pool_destroy` gives back all that was obtained if no block was
  given up midway (`destroy_frees_all_iff`).

  Without the condition on what is written none of it holds: the words of a table that lie in
  `mem_pool_t` overwrite its counters, those that lie in a header cut the list, and a user that
  writes into an element can write into a table.
-/
import GameServer.MemPool.Accounting
import GameServer.RawPool.Handout

namespace GameServer.RawPool

open CInt Memory Runs Ledger
open Pool (MemBlock Heap Linked sizeofMemPool)

/-- The system `malloc` does not fail when a block is built. -/
def Supplied : Session → Call → Prop := OnPool Pool.Supplied

/-- A call of `mem_pool_malloc` finds a block with room. -/
def NoGrowth : Session → Call → Prop := OnPool Pool.NoGrowth

/-- The product `block->head * block->elem_size` of `mem_pool_malloc` does not overflow. -/
def OffsetExact : Session → Call → Prop := OnPool Pool.OffsetExact

/-- No block is given up midway. -/
def CleanCall : Session → Call → Prop := OnPool Pool.CleanCall

/-- The sizes of all blocks in the pool's list are exact, and their data areas were obtained
    with these sizes. -/
def SizesExact (s : Session) : Prop :=
  ∀ b ∈ s.heap.poolBlocks, b.SizesExact ∧ b.dataAt ∈ s.world.obtained

/-- `mem_pool_destroy` comes to an end, and by then every region obtained has been passed to
    `free` as often as it was obtained, and nothing else has. -/
def ReturnsAll (s : Session) : Prop :=
  ∃ w, memPoolDestroy s.world s.pool = .ok w ∧ w.released.Perm (w.obtained.map Region.base)

instance (s : Session) (c : Call) : Decidable (Supplied s c) :=
  inferInstanceAs (Decidable (OnPool _ s c))

instance (s : Session) (c : Call) : Decidable (NoGrowth s c) :=
  inferInstanceAs (Decidable (OnPool _ s c))

instance (s : Session) (c : Call) : Decidable (CleanCall s c) :=
  inferInstanceAs (Decidable (OnPool _ s c))

variable {es n : Int} {s : Session} {c : Call} {calls : List Call} {g : Grant}

/-! ## The list and the counter -/

/-- A session whose pool has not been extended. -/
structure Unextended (es n : Int) (s : Session) : Prop where
  kept : Kept es n s
  pool : Pool.Unextended n s.toPool

theorem Unextended.step (hes : 0 < es) (hmax : n ≤ intMax) (hs : Unextended es n s)
    (ht : Tidy s c) (hno : NoGrowth s c) : Unextended es n (s.step c) := by
  have hpool := hs.kept.sound.step_keeps ht (hs.kept.divides hes ht.1) hs.pool
    fun c' hc' => hs.pool.step (hno c' hc')
  exact ⟨hs.kept.step hes hmax ht, hpool.2⟩

theorem Unextended.accounting_step_iff (hes : 0 < es) (hn : 3 ≤ n) (hmax : n ≤ intMax)
    (hs : Unextended es n s) (hsup : Supplied s c) (ht : Tidy s c) :
    Pool.Accounted n (s.step c).heap ↔ NoGrowth s c := by
  have hpool := (hs.kept.sound.step ht (hs.kept.divides hes ht.1)).2
  have hheap : (s.step c).heap = (poolStep s.toPool c.toPool).heap :=
    congrArg Pool.Session.heap hpool
  rw [hheap]
  cases hc : c.toPool with
  | none =>
    have hno : NoGrowth s c := fun c' hc' => by
      rw [hc] at hc'
      cases hc'
    exact iff_of_true hs.pool.accounted hno
  | some c' =>
    have hno : NoGrowth s c ↔ Pool.NoGrowth s.toPool c' := by
      unfold NoGrowth OnPool
      rw [hc]
      simp
    rw [hno]
    exact hs.pool.accounted_step_iff hn hmax (hsup c' hc)

/-- In a tidy run with memory available, the list is in order and `elem_total` is the number of
    elements in its blocks, in each state, if and only if no call extends the pool. -/
theorem accounting_iff_no_growth (hes : 0 < es) (hesmax : es ≤ intMax) (hn : 3 ≤ n)
    (hmax : n ≤ intMax) (hg : g.toPool.Full) (hb : Begun g es n s)
    (hsup : Along Session.step Supplied s calls) (ht : Along Session.step Tidy s calls) :
    Pool.Accounted n s.heap ∧
        Along Session.step (fun s c => Pool.Accounted n (s.step c).heap) s calls ↔
      Along Session.step NoGrowth s calls := by
  have hes' : InInt es := ⟨by unfold intMin; omega, hesmax⟩
  have hn' : InInt n := ⟨by unfold intMin; omega, hmax⟩
  obtain ⟨-, hstart, pool, hpool⟩ := hb.start hes' hn'
  have hun : Unextended es n s :=
    ⟨hb.kept hes' hn', hstart ▸ Pool.unextended_create hg hpool⟩
  refine (and_iff_right hun.pool.accounted).trans ?_
  exact along_iff_of_inv (fun _ _ hs ha hno => Unextended.step hes hmax hs ha.2 hno)
    (fun _ _ hs ha => hs.accounting_step_iff hes hn hmax ha.1 ha.2) hun
    ((along_and _ _).2 ⟨hsup, ht⟩)

/-- The pool of three elements begins a run. -/
theorem smallSession_begun : Begun (grantAt 1000) 4 3 smallSession :=
  ⟨fun _ => 7, 16, rfl, by decide⟩

/-- Three elements, the first of them written to and given back. -/
def threeTaken : List Call :=
  [.malloc (grantAt 2000), .malloc (grantAt 2000), .malloc (grantAt 2000), .store 1128 255,
    .free 1128]

theorem threeTaken_accounted : Pool.Accounted 3 smallSession.heap ∧
    Along Session.step (fun s c => Pool.Accounted 3 (s.step c).heap) smallSession threeTaken :=
  (accounting_iff_no_growth (by decide) (by decide) (by decide) (by decide) (by decide)
    smallSession_begun (by decide +kernel) (by decide +kernel)).2 (by decide +kernel)

/-- After the fourth element the pool has blocks of three elements and of one, and its
    `elem_total` says six. -/
theorem extension_miscounted : Begun (grantAt 1000) 4 3 smallSession ∧
    Along Session.step Supplied smallSession fourTaken ∧
    Along Session.step Tidy smallSession fourTaken ∧
    (exec Session.step smallSession fourTaken).heap.pool.elemTotal = 6 ∧
    ¬ Pool.Accounted 3 (exec Session.step smallSession fourTaken).heap :=
  ⟨smallSession_begun, by decide +kernel, by decide +kernel, by decide +kernel,
    fun h => absurd h.total (by decide +kernel)⟩

/-! ## Sizes -/

/-- A session whose blocks were requested for elements of `es` bytes, `n` of them at most. -/
structure Sizing (es n : Int) (s : Session) : Prop where
  kept : Kept es n s
  pool : Pool.Sizing es n s.toPool

theorem Sizing.step (hes : 0 < es) (hn : 0 ≤ n) (hmax : n ≤ intMax) (hs : Sizing es n s)
    (ht : Tidy s c) : Sizing es n (s.step c) := by
  have hpool := hs.kept.sound.step_keeps ht (hs.kept.divides hes ht.1) hs.pool
    fun c' _ => hs.pool.step hn c'
  exact ⟨hs.kept.step hes hmax ht, hpool.2⟩

theorem Sizing.sizesExact (hes : 0 < es) (hfits : es * (n + 1) ≤ intMax)
    (hs : Sizing es n s) : SizesExact s := by
  have hexact : Pool.SizesExact s.heap := hs.pool.sizesExact hes hfits
  have hlinked : Linked s.heap := hs.pool.running.linked
  intro b hb
  refine ⟨hexact b hb, hs.kept.sound.requested b ?_⟩
  rwa [hlinked.poolBlocks] at hb

/-- In a tidy run of a pool whose first block is built: the sizes of all blocks are exact in
    every state, and so is the offset computed in every `mem_pool_malloc` as long as no
    `mem_pool_free` stores into a free slot, if and only if the size of the first block is. -/
theorem sizes_iff_first (hes : 0 < es) (hesmax : es ≤ intMax) (hn : 3 ≤ n) (hmax : n ≤ intMax)
    (hg : g.toPool.Full) (hb : Begun g es n s) (ht : Along Session.step Tidy s calls) :
    (SizesExact s ∧ Along Session.step (fun s c => SizesExact (s.step c)) s calls ∧
        (Along Session.step Intact s calls → Along Session.step OffsetExact s calls)) ↔
      es * (n + 1) ≤ intMax := by
  have hes' : InInt es := ⟨by unfold intMin; omega, hesmax⟩
  have hn' : InInt n := ⟨by unfold intMin; omega, hmax⟩
  obtain ⟨hs, hstart, pool, hpool⟩ := hb.start hes' hn'
  have hkept := hb.kept hes' hn'
  constructor
  · rintro ⟨hexact, -⟩
    exact (Pool.sizes_exact_iff hes hn hg hpool []).1
      ⟨fun b hb => (hexact b hb).1, trivial, fun _ => trivial⟩
  · intro hfits
    have hsizing : Sizing es n s :=
      ⟨hkept, hstart ▸ (Pool.sizing_create (by omega) hg hpool).1⟩
    refine ⟨hsizing.sizesExact hes hfits, ?_, fun hin => ?_⟩
    · exact along_of_inv (fun _ _ hs ht => Sizing.step hes (by omega) hmax hs ht)
        (fun _ _ hs ht => (hs.step hes (by omega) hmax ht).sizesExact hes hfits) hsizing ht
    · have htd := hkept.tidy_divides hes hmax ht
      have hin' := (hs.along_iff htd Pool.Intact).1 hin
      have hpoolRun := (Pool.sizes_exact_iff hes hn hg hpool (calls.filterMap Call.toPool)).2 hfits
      rw [hstart] at hin'
      refine (hs.along_iff htd Pool.OffsetExact).2 ?_
      rw [hstart]
      exact hpoolRun.2.2 hin'

/-- Two elements taken, the first of them written to and given back. -/
def twoTaken : List Call :=
  [.malloc (grantAt 2000), .malloc (grantAt 2000), .store 1128 255, .free 1128]

theorem smallSession_sizes :
    SizesExact smallSession ∧
      Along Session.step (fun s c => SizesExact (s.step c)) smallSession twoTaken ∧
      (Along Session.step Intact smallSession twoTaken →
        Along Session.step OffsetExact smallSession twoTaken) :=
  (sizes_iff_first (by decide) (by decide) (by decide) (by decide) (by decide)
    smallSession_begun (by decide +kernel)).2 (by decide)

/-- Room for all the words of a table of 65535 elements. -/
def wideGrant : Grant := ⟨some 1000, some 1064, some 300000⟩

/-- `mem_pool_create(65537, 65535)` -/
def wideSession : Session := sessionOf wideGrant 65537 65535

/-- It asks for 65536 bytes of data, less than one element. -/
theorem wide_data_too_small : Begun wideGrant 65537 65535 wideSession ∧
    (∃ b ∈ wideSession.heap.blocks, b.dataAt.size = 65536 ∧ b.elemSize = 65537) ∧
    ¬ SizesExact wideSession := by
  have hb : Begun wideGrant 65537 65535 wideSession := ⟨fun _ => 7, 16, rfl, by decide +kernel⟩
  obtain ⟨hs, -, pool, hpool⟩ := hb.start (by decide) (by decide)
  obtain ⟨hblocks, -⟩ := Pool.create_block (g := wideGrant.toPool) rfl hpool
  have hlinked : Linked wideSession.heap := (Pool.create_running (by decide) hpool).2.linked
  have hmem : Pool.freshBlock (fun _ => 0) 1000 1064 300000 65537 65535 ∈
      wideSession.heap.blocks := by
    rw [hblocks]
    exact List.mem_singleton_self _
  refine ⟨hb, ⟨_, hmem, by decide, rfl⟩, fun hexact => ?_⟩
  rw [← hlinked.poolBlocks] at hmem
  exact absurd (hexact _ hmem).1.bytes (by decide)

/-! ## Giving everything back -/

theorem freeBlock_regions {w : World} {blocks : List MemBlock} {b : MemBlock}
    (hs : Header w.bytes blocks b) : (memPoolFreeBlock w b.headerAt.base).bytes = w.bytes ∧
      (memPoolFreeBlock w b.headerAt.base).obtained = w.obtained ∧
      (memPoolFreeBlock w b.headerAt.base).released.Perm
        (b.regions.map Region.base ++ w.released) := by
  refine ⟨rfl, rfl, ?_⟩
  show (b.headerAt.base :: data w.bytes b.headerAt.base :: table w.bytes b.headerAt.base ::
    w.released).Perm _
  rw [hs.data, hs.table]
  exact ((List.Perm.swap _ _ _).trans ((List.Perm.swap _ _ _).cons _))

/-- The loop of `mem_pool_destroy`. -/
theorem Models.freeBlocks {w : World} {pool : Int} {h : Heap} (hm : Models w pool h)
    (hl : Linked h) : ∀ fuel pos (w₁ : World), w₁.bytes = w.bytes → pos < h.blocks.length →
      h.blocks.length - pos ≤ fuel →
        ∃ w', RawPool.freeBlocks fuel (addr h.blocks (some pos)) w₁ = .ok w' ∧
          w'.obtained = w₁.obtained ∧
          w'.released.Perm (((h.blocks.drop pos).flatMap MemBlock.regions).map Region.base ++
            w₁.released)
  | 0, pos, w₁, hbytes, hpos, hf => by omega
  | fuel + 1, pos, w₁, hbytes, hpos, hf => by
    have hb : h.blocks[pos]? = some h.blocks[pos] := List.getElem?_eq_getElem hpos
    have hs := (hm.stored _ (List.mem_of_getElem? hb)).header
    obtain ⟨hkept, hobt, hrel⟩ := freeBlock_regions (w := w₁) (hbytes ▸ hs)
    rw [RawPool.freeBlocks, if_neg (hm.ne_zero hb), addr_some hb, hbytes, hs.next,
      hl.chained pos _ hb, List.drop_eq_getElem_cons hpos, List.flatMap_cons, List.map_append,
      List.append_assoc]
    by_cases hlast : pos + 1 < h.blocks.length
    · obtain ⟨w', hw', hobt', hrel'⟩ := Models.freeBlocks hm hl fuel (pos + 1)
        (memPoolFreeBlock w₁ h.blocks[pos].headerAt.base) (hkept.trans hbytes) hlast (by omega)
      rw [if_pos hlast]
      refine ⟨w', hw', hobt'.trans hobt, hrel'.trans ?_⟩
      exact (hrel.append_left _).trans (List.perm_append_comm_assoc _ _ _)
    · rw [if_neg hlast, List.drop_eq_nil_of_le (by omega)]
      refine ⟨memPoolFreeBlock w₁ h.blocks[pos].headerAt.base, ?_, hobt, hrel⟩
      cases fuel <;> rfl

/-- `mem_pool_destroy` frees the same in memory and without addresses. -/
theorem Models.destroy {w : World} {pool : Int} {h : Heap} (hm : Models w pool h) :
    ∃ w', memPoolDestroy w pool = .ok w' ∧ w'.obtained = (Pool.memPoolDestroy h).obtained ∧
      w'.released.Perm ((Pool.memPoolDestroy h).released.map Region.base) := by
  have hloop : ∃ w', RawPool.freeBlocks w.obtained.length (poolHead w.bytes pool) w = .ok w' ∧
      w'.obtained = w.obtained ∧
      w'.released.Perm ((h.blocks.flatMap MemBlock.regions).map Region.base) := by
    rw [hm.fields.head]
    rcases hm.shape with hl | ⟨hnone, hhead, -⟩
    · have hfreed := hm.freeBlocks hl w.obtained.length 0 w rfl hl.nonempty
        (by have := hm.count; omega)
      rw [List.drop_zero, hm.released.2, List.append_nil] at hfreed
      rwa [hl.head]
    · rw [hhead, hnone]
      refine ⟨w, ?_, rfl, ?_⟩
      · cases w.obtained.length <;> rfl
      · rw [hm.released.2]
        exact List.Perm.refl _
  obtain ⟨w', hw', hobt, hrel⟩ := hloop
  obtain ⟨hobt', hrel'⟩ := Pool.destroy_released hm.listed
  rw [hm.released.1, Multiset.coe_nil, add_zero, Multiset.coe_eq_coe] at hrel'
  unfold memPoolDestroy
  rw [hw']
  refine ⟨_, rfl, (hobt.trans hm.obtained.symm).trans hobt'.symm, ?_⟩
  have hheld : (pool :: w'.released).Perm (h.held.map Region.base) := by
    unfold Heap.held
    rw [hm.poolAt, List.map_append, List.map_singleton]
    exact (hrel.cons _).trans (List.perm_append_singleton _ _).symm
  exact hheld.trans (hrel'.map _).symm

/-- After `mem_pool_destroy` everything is returned if and only if nothing was lost. -/
theorem Sound.returnsAll_iff (hs : Sound s) {lost : Multiset Region}
    (hb : Pool.Books lost s.heap) : ReturnsAll s ↔ lost = 0 := by
  obtain ⟨w', hw', hobt, hrel⟩ := Models.destroy hs
  have hall : ReturnsAll s ↔ w'.released.Perm (w'.obtained.map Region.base) := by
    constructor
    · rintro ⟨w'', hw'', hperm⟩
      obtain rfl := Except.ok.inj (hw'.symm.trans hw'')
      exact hperm
    · exact fun hperm => ⟨w', hw', hperm⟩
  have hsettled := (hb.destroyed.map Region.base).settled_iff
  rw [Multiset.map_coe, Multiset.map_coe, Multiset.map_eq_zero] at hsettled
  rw [hall, hobt, ← hsettled, ← Multiset.coe_eq_coe, Multiset.coe_eq_coe.2 hrel]

/-- A run that ends without a fault has none on its way. -/
theorem along_noFault (hrun : (exec Session.step s calls).fault = none) :
    Along Session.step (fun s c => s.fault = none ∧ (s.step c).fault = none) s calls := by
  induction calls generalizing s with
  | nil => trivial
  | cons c calls ih =>
    have hstay : ∀ {s : Session}, s.fault ≠ none → ∀ calls, exec Session.step s calls = s := by
      intro s hf calls
      induction calls with
      | nil => rfl
      | cons c calls ih => rw [exec_cons, step_faulted hf, ih]
    have hf' : (s.step c).fault = none := by
      by_contra hf'
      rw [exec_cons, hstay hf'] at hrun
      exact hf' hrun
    have hf : s.fault = none := by
      by_contra hf
      rw [step_faulted hf] at hf'
      exact hf hf'
    exact ⟨⟨hf, hf'⟩, ih hrun⟩

theorem divides_of_noFault (hf : s.fault = none) (hf' : (s.step c).fault = none) :
    Divides s c := by
  cases c with
  | malloc g => trivial
  | store p v => trivial
  | free p =>
    intro f herror
    unfold Session.step at hf'
    simp only [hf, herror] at hf'
    cases hf'

/-- In every tidy run that creates a pool and does not crash, everything obtained is returned
    by the end of `mem_pool_destroy`, each region as often as it was obtained, if and only if no
    block was given up midway. -/
theorem destroy_frees_all_iff (hes : InInt es) (hn : InInt n) (hb : Begun g es n s)
    (ht : Along Session.step Tidy s calls) (hrun : (exec Session.step s calls).fault = none) :
    ReturnsAll (exec Session.step s calls) ↔
      g.toPool.Clean ∧ Along Session.step CleanCall s calls := by
  obtain ⟨hs, hstart, pool, hpool⟩ := hb.start hes hn
  have htd : Along Session.step (fun s c => Tidy s c ∧ Divides s c) s calls :=
    along_mono (fun _ _ hc => ⟨hc.1, divides_of_noFault hc.2.1 hc.2.2⟩)
      ((along_and _ _).2 ⟨ht, along_noFault hrun⟩)
  obtain ⟨hend, hexec⟩ := hs.run htd
  obtain ⟨lost, hbooks, hclean⟩ := Pool.books_create hpool
  have hfault : (exec Pool.Session.step (.start s.heap) (calls.filterMap Call.toPool)).fault =
      none := by
    rw [← hstart, ← hexec]
    show (exec Session.step s calls).fault.map _ = none
    rw [hrun]
    rfl
  obtain ⟨more, hbooks', hcleans⟩ := Pool.Books.run (s := .start s.heap) hbooks hfault
  rw [← hstart, ← hexec] at hbooks'
  rw [hend.returnsAll_iff hbooks', add_eq_zero, hclean, hcleans, ← hstart,
    ← hs.along_iff htd Pool.CleanCall, and_comm]
  rfl

/-- Four elements, a fifth for which there is no memory, and one given back. -/
def leanRun : List Call :=
  fourTaken ++ [.malloc ⟨none, none, none⟩, .free 1128]

theorem leanRun_freed : ReturnsAll (exec Session.step smallSession leanRun) :=
  (destroy_frees_all_iff (by decide) (by decide) smallSession_begun (by decide +kernel)
    (by decide +kernel)).2 (by decide +kernel)

/-- Memory for the header and the table of a block, and none for its data. -/
def noData : Grant := ⟨some 2000, some 2064, none⟩

/-- Three elements, and a fourth for which the block is given up midway. -/
def halfBlock : List Call :=
  mallocs (List.replicate 3 (grantAt 2000) ++ [noData])

/-- The header and the table of the block given up are never passed to `free`. -/
theorem half_block_kept : Begun (grantAt 1000) 4 3 smallSession ∧
    Along Session.step Tidy smallSession halfBlock ∧
    (exec Session.step smallSession halfBlock).fault = none ∧
    ¬ ReturnsAll (exec Session.step smallSession halfBlock) := by
  refine ⟨smallSession_begun, by decide +kernel, by decide +kernel, ?_⟩
  rintro ⟨w, hw, hperm⟩
  have hcounts : (memPoolDestroy (exec Session.step smallSession halfBlock).world
      (exec Session.step smallSession halfBlock).pool).map
        (fun w => (w.released.length, w.obtained.length)) = .ok (4, 6) := by decide +kernel
  rw [hw] at hcounts
  have hlengths := Prod.mk.inj (Except.ok.inj hcounts)
  have hlength := hperm.length_eq
  rw [List.length_map] at hlength
  omega

end GameServer.RawPool
