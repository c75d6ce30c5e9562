/-
  What a pool in memory hands out.

  As long as nothing that is written overlaps, a pool in memory hands out what the pool
  without addresses does: slots of its blocks that are not live (`pointers_fresh`), the free
  slots and the live ones being the capacity until something is freed
  (`balance_iff_no_free`), and without frees one slot after the other (`handout_exact`).

  The tables are too small, so `malloc` may well put a block where the words of an earlier
  table end. In the pool of ten elements with its data 16 bytes behind its table, clearing the
  data clears seven words of the table, and the sixth call returns the first element again
  (`cleared_table`).
-/
import GameServer.MemPool.Exact
import GameServer.MemPool.Pointers
import GameServer.MemPool.Conservation
import GameServer.RawPool.Session

namespace GameServer.RawPool

open CInt Memory Region Runs Chunks
open Pool (MemBlock Heap Ascending sizeofMemPool)

/-- What the user and the system allocator promise for one call: frees of live pointers only,
    and memory, at addresses that overlap nothing obtained before. -/
def Allowed : Session → Call → Prop := OnPool Pool.Allowed

/-- The call leaves the free lists in order. -/
def Intact : Session → Call → Prop := OnPool Pool.Intact

instance (s : Session) (c : Call) : Decidable (Allowed s c) :=
  inferInstanceAs (Decidable (OnPool _ s c))

instance (s : Session) (c : Call) : Decidable (Intact s c) :=
  inferInstanceAs (Decidable (OnPool _ s c))

/-- The session that begins with `mem_pool_create(es, n)`, with memory available. -/
def Created (es n : Int) (s : Session) : Prop :=
  ∃ m pool g, Session.create m (some pool) g es n = some s ∧
    Pool.GrantOk [⟨pool, sizeofMemPool⟩] g.toPool es n ∧ Spaced [⟨pool, sizeofMemPool⟩] g es n

/-- A call of `mem_pool_malloc` returns a slot of the pool, and no pointer that is live. -/
def FreshPointer (s : Session) : Call → Prop
  | .malloc g => ∃ p w, memPoolMalloc s.world s.pool g = .ok (some p, w) ∧
      Pool.InPool (view w s.pool) p ∧ p ∉ s.live
  | .free _ => True
  | .store _ _ => True

/-- A call of `mem_pool_malloc` appends a block only when every slot is live. -/
def GrowsWhenFull (s : Session) : Call → Prop
  | .malloc g => s.heap.poolBlocks.length < (s.step (.malloc g)).heap.poolBlocks.length →
      (s.live.length : Int) = s.heap.capacity
  | .free _ => True
  | .store _ _ => True

/-- The call is not one of `mem_pool_free`. -/
def FreesNothing : Call → Prop
  | .malloc _ => True
  | .free _ => False
  | .store _ _ => True

/-- `n` calls of `mem_pool_malloc`, with what the system answers during each. -/
def mallocs (grants : List Grant) : List Call := grants.map .malloc

/-- The next call of `mem_pool_malloc`, the `m`-th of a run, returns element `m` of the
    pool's chunks. -/
def ReturnsItem (es n : Int) (m : Nat) (s : Session) (g : Grant) : Prop :=
  ∃ p w b, memPoolMalloc s.world s.pool g = .ok (some p, w) ∧
    (view w s.pool).poolBlocks[chunkOf n (n.tdiv 3) m]? = some b ∧
    p = slot b.data es (placeOf n (n.tdiv 3) m)

/-! ## Free lists in order -/

variable {es n : Int} {s : Session} {c : Call} {calls : List Call}

/-- The head of a block in order is an index of its table. -/
theorem headInTable_of_ascending (ha : ∀ b ∈ s.heap.blocks, Ascending b) (hin : Intact s c) :
    HeadInTable s c := by
  cases c with
  | free p => trivial
  | store p v => trivial
  | malloc g =>
    intro b hb
    unfold Heap.chosen at hb
    cases hs : s.heap.search MemBlock.hasRoom with
    | some pos =>
      simp only [hs] at hb
      have hasc := ha b (List.mem_of_getElem? hb)
      have hlo := hasc.head_nonneg
      exact ⟨by omega, hasc.head_le⟩
    | none =>
      simp only [hs] at hb
      have hin' : Pool.Intact s.toPool (.malloc g.toPool) := onPool_malloc hin
      have hpos : 0 < s.heap.pool.elemNum.tdiv 3 := hin' hs
      obtain ⟨header, table, data, -, rfl⟩ := toPool_block hb
      exact ⟨Int.min_le_left _ _, Int.le_of_lt hpos⟩

/-- A session whose free lists are in order. -/
structure Steady (es n : Int) (s : Session) : Prop where
  sound : Sound s
  inv : Pool.Inv es n s.toPool

theorem Steady.tidy (hs : Steady es n s) (hes : 0 < es) (hc : Clear s c) (hin : Intact s c) :
    Tidy s c ∧ Divides s c := by
  have hasc : ∀ b ∈ s.heap.blocks, Ascending b := fun b hb => (hs.inv.bump b hb).ascending
  have hwidth : ∀ b ∈ s.heap.blocks, 0 < b.elemSize := fun b hb =>
    (hs.inv.bump b hb).width ▸ hes
  exact ⟨⟨hc, headInTable_of_ascending hasc hin⟩, hs.sound.divides hwidth hc⟩

/-- The step lemma. -/
theorem Steady.step (hes : 0 < es) (hn : 0 ≤ n) (hfits : es * (n + 1) ≤ intMax)
    (hs : Steady es n s) (ha : Allowed s c) (hc : Clear s c) (hin : Intact s c) :
    Steady es n (s.step c) := by
  obtain ⟨ht, hd⟩ := hs.tidy hes hc hin
  obtain ⟨hs', hinv⟩ := hs.sound.step_keeps ht hd hs.inv fun c' hc' =>
    Pool.inv_step hes hn hfits hs.inv (ha c' hc') (hin c' hc')
  exact ⟨hs', hinv⟩

/-- Sizes that fit are `int`s. -/
theorem inInt_sizes (hes : 0 < es) (hn : 0 ≤ n) (hfits : es * (n + 1) ≤ intMax) :
    InInt es ∧ InInt n := by
  have hwide : es * 1 ≤ es * (n + 1) := Int.mul_le_mul_of_nonneg_left (by omega) (by omega)
  have hmany : 1 * (n + 1) ≤ es * (n + 1) :=
    Int.mul_le_mul_of_nonneg_right (by omega) (by omega)
  unfold InInt intMin
  omega

theorem Created.start (hes : 0 < es) (hn : 0 ≤ n) (hfits : es * (n + 1) ≤ intMax)
    (hc : Created es n s) :
    Sound s ∧ s.toPool = .start s.heap ∧ Pool.Created es n s.heap := by
  obtain ⟨m, pool, g, hcreate, hok, hsp⟩ := hc
  obtain ⟨hes', hn'⟩ := inInt_sizes hes hn hfits
  obtain ⟨w, h, hraw, hpool, hm⟩ := create_models m hsp hes' hn'
  unfold Session.create at hcreate
  rw [hraw] at hcreate
  obtain rfl := Option.some.inj hcreate
  obtain rfl := hm.view_eq
  exact ⟨hm, rfl, pool, g.toPool, hpool, hok⟩

theorem steady_start (hes : 0 < es) (hn : 0 ≤ n) (hfits : es * (n + 1) ≤ intMax)
    (hc : Created es n s) : Steady es n s := by
  obtain ⟨hs, hstart, hpool⟩ := hc.start hes hn hfits
  exact ⟨hs, hstart ▸ Pool.inv_start hes hn hfits hpool⟩

/-! ## Pointers -/

theorem Steady.freshPointer (hes : 0 < es) (hn : 0 ≤ n) (hfits : es * (n + 1) ≤ intMax)
    (hs : Steady es n s) (ha : Allowed s c) (hc : Clear s c) (hin : Intact s c) :
    FreshPointer s c := by
  cases c with
  | free p => trivial
  | store p v => trivial
  | malloc g =>
    obtain ⟨p, h', hm, hpool, hlive⟩ : Pool.FreshPointer s.toPool (.malloc g.toPool) :=
      Pool.freshPointer_of_inv hes hn hfits hs.inv (onPool_malloc ha) (onPool_malloc hin)
    rcases hs.sound.malloc (hs.tidy hes hc hin).1 with ⟨r, w, hraw, hm', -⟩ | ⟨-, hm'⟩
    · obtain ⟨rfl, rfl⟩ := Prod.mk.inj (Except.ok.inj (hm'.symm.trans hm))
      exact ⟨p, w, hraw, hpool, hlive⟩
    · cases hm'.symm.trans hm

/-- In a run where nothing that is written overlaps and the free lists stay in order, every
    pointer returned by `mem_pool_malloc` is a slot of the pool and differs from every pointer
    that is live. -/
theorem pointers_fresh (hes : 0 < es) (hn : 1 ≤ n) (hfits : es * (n + 1) ≤ intMax)
    (hc : Created es n s) (ha : Along Session.step Allowed s calls)
    (hclear : Along Session.step Clear s calls) (hin : Along Session.step Intact s calls) :
    Along Session.step FreshPointer s calls :=
  along_of_inv (fun _ _ hs hc => hs.step hes (by omega) hfits hc.1 hc.2.1 hc.2.2)
    (fun _ _ hs hc => hs.freshPointer hes (by omega) hfits hc.1 hc.2.1 hc.2.2)
    (steady_start hes (by omega) hfits hc)
    ((along_and _ _).2 ⟨ha, (along_and _ _).2 ⟨hclear, hin⟩⟩)

/-! ### A pool of three elements -/

/-- The system allocator puts the header at `a`, the table and the data behind it. -/
def grantAt (a : Int) : Grant := ⟨some a, some (a + 64), some (a + 128)⟩

/-- The session that `mem_pool_create(es, n)` begins with the pool at 16 and its block at `g`,
    in memory that is not clear. -/
def sessionOf (g : Grant) (es n : Int) : Session :=
  ⟨(memPoolCreate ⟨fun _ => 7, [], []⟩ (some 16) g es n).2, 16, [], none⟩

def smallSession : Session := sessionOf (grantAt 1000) 4 3

theorem smallSession_created : Created 4 3 smallSession :=
  ⟨fun _ => 7, 16, grantAt 1000, rfl, by decide, by decide⟩

/-- Three elements, the first written to and given back, then a second block. -/
def smallRun : List Call :=
  [.malloc (grantAt 2000), .store 1130 255, .malloc (grantAt 2000), .malloc (grantAt 2000),
    .free 1128, .malloc (grantAt 2000)]

theorem smallRun_pointers : Along Session.step FreshPointer smallSession smallRun :=
  pointers_fresh (by decide) (by decide) (by decide) smallSession_created (by decide +kernel)
    (by decide +kernel) (by decide +kernel)

/-- The pointer returned, the areas of the pool's blocks, and the element size. -/
def returned (pool : Int) : Except Fault (Option Int × World) →
    Option Int × List (Int × Int) × Int
  | .ok (p, w) => (p, (view w pool).poolBlocks.map fun b => (b.data, b.elemNum),
      (view w pool).pool.elemSize)
  | .error _ => (none, [], 0)

/-- `mem_pool_create(4, 1)` -/
def tinySession : Session := sessionOf (grantAt 1000) 4 1

def tinyRun : List Call := [.malloc (grantAt 2000), .malloc (grantAt 2000), .malloc (grantAt 3000)]

/-- The user and the system allocator keep the contract and nothing that is written overlaps,
    and the third pointer of the pool of one element is `block->data - 8` of the block built by
    the second call. -/
theorem pointer_below_block : Created 4 1 tinySession ∧
    Along Session.step Allowed tinySession tinyRun ∧
    Along Session.step Clear tinySession tinyRun ∧
    ¬ Along Session.step FreshPointer tinySession tinyRun := by
  refine ⟨⟨fun _ => 7, 16, grantAt 1000, rfl, by decide, by decide⟩, by decide +kernel,
    by decide +kernel, ?_⟩
  intro hall
  have hlast : Along Session.step FreshPointer tinySession
      (tinyRun.take 2 ++ [.malloc (grantAt 3000)]) := hall
  obtain ⟨p, w, hm, ⟨b, hb, k, hk, hkn, hp⟩, -⟩ := along_at _ hlast
  rw [exec_pool] at hm hb hp
  have hret := congrArg (returned tinySession.pool) hm
  have hval : returned tinySession.pool (memPoolMalloc (exec Session.step tinySession
      (tinyRun.take 2)).world tinySession.pool (grantAt 3000)) =
      (some 2120, [(1128, 1), (2128, 0)], 4) := by decide +kernel
  have hret' := hval.symm.trans hret
  simp only [returned, Prod.mk.injEq, Option.some.injEq] at hret'
  obtain ⟨rfl, hareas, hes⟩ := hret'
  have hmem : (b.data, b.elemNum) ∈ [((1128 : Int), (1 : Int)), (2128, 0)] := by
    rw [hareas]
    exact List.mem_map_of_mem hb
  rw [← hes] at hp
  simp only [List.mem_cons, Prod.mk.injEq, List.not_mem_nil, or_false] at hmem
  omega

/-! ## The balance of live and free slots -/

/-- A session in which nothing has been freed. -/
structure Unfreed (es n : Int) (s : Session) : Prop where
  sound : Sound s
  counted : Pool.Counted es n s.toPool

theorem Unfreed.steady (hs : Unfreed es n s) : Steady es n s := ⟨hs.sound, hs.counted.inv⟩

/-- Calls that free nothing leave the free lists in order. -/
theorem FreesNothing.intact (hn : 3 ≤ n) (hnum : s.toPool.heap.pool.elemNum = n)
    (hc : FreesNothing c) : Intact s c := by
  intro c' hc'
  cases c with
  | free p => exact hc.elim
  | store p v => cases hc'
  | malloc g =>
    obtain rfl := Option.some.inj hc'
    intro _
    rw [hnum]
    exact Pool.third_pos hn

theorem Unfreed.intact (hn : 3 ≤ n) (hs : Unfreed es n s) (hc : FreesNothing c) : Intact s c :=
  hc.intact hn hs.counted.inv.elemNum

theorem Unfreed.step (hes : 0 < es) (hn : 3 ≤ n) (hfits : es * (n + 1) ≤ intMax)
    (hs : Unfreed es n s) (ha : Allowed s c) (hclear : Clear s c) (hc : FreesNothing c) :
    Unfreed es n (s.step c) := by
  obtain ⟨ht, hd⟩ := hs.steady.tidy hes hclear (hs.intact hn hc)
  have hcounted : ∀ c' ∈ c.toPool, Pool.Counted es n (s.toPool.step c') := by
    intro c' hc'
    cases c with
    | free p => exact hc.elim
    | store p v => cases hc'
    | malloc g =>
      obtain rfl := Option.some.inj hc'
      exact Pool.counted_malloc hes hn hfits hs.counted (onPool_malloc ha)
  obtain ⟨hs', hcount⟩ := hs.sound.step_keeps ht hd hs.counted hcounted
  exact ⟨hs', hcount⟩

/-- One call: the balance is kept if and only if nothing is freed. -/
theorem Unfreed.balance_step_iff (hes : 0 < es) (hn : 3 ≤ n) (hfits : es * (n + 1) ≤ intMax)
    (hs : Unfreed es n s) (ha : Allowed s c) (hclear : Clear s c) :
    Pool.Conserved (s.step c).toPool ∧ GrowsWhenFull s c ↔ FreesNothing c := by
  cases c with
  | store p v =>
    have hs' := hs.step hes hn hfits ha hclear trivial
    exact ⟨fun _ => trivial, fun _ =>
      ⟨(Pool.conserved_iff hs'.counted.inv).2 hs'.counted.count, trivial⟩⟩
  | free p =>
    have hwidth : ∀ b ∈ s.heap.blocks, 0 < b.elemSize := fun b hb =>
      (hs.counted.inv.bump b hb).width ▸ hes
    have hpool := (hs.sound.step (c := .free p) ⟨hclear, trivial⟩
      (hs.sound.divides hwidth hclear)).2
    have hiff := Pool.conserves_step_iff hes hn hfits _ (.free p) hs.counted (onPool_free ha)
    rw [hpool]
    exact hiff
  | malloc g =>
    obtain ⟨ht, hd⟩ := hs.steady.tidy hes hclear (hs.intact hn (c := .malloc g) trivial)
    have hpool := (hs.sound.step ht hd).2
    have hiff := Pool.conserves_step_iff hes hn hfits _ (.malloc g.toPool) hs.counted
      (onPool_malloc ha)
    have hheap : (s.step (.malloc g)).heap = (s.toPool.step (.malloc g.toPool)).heap :=
      congrArg Pool.Session.heap hpool
    have hgrows : GrowsWhenFull s (.malloc g) ↔
        Pool.GrowsWhenFull s.toPool (.malloc g.toPool) := by
      show (_ < (s.step (.malloc g)).heap.poolBlocks.length → _) ↔ _
      rw [hheap]
      rfl
    rw [hpool, hgrows]
    exact hiff

/-- In a run where nothing that is written overlaps, the balance of live elements, free slots
    and capacity holds in every state, and every growth finds the pool exhausted, if and only if
    the run frees nothing. -/
theorem balance_iff_no_free (hes : 0 < es) (hn : 3 ≤ n) (hfits : es * (n + 1) ≤ intMax)
    (hc : Created es n s) (ha : Along Session.step Allowed s calls)
    (hclear : Along Session.step Clear s calls) :
    Pool.Conserved s.toPool ∧
        Along Session.step (fun s c => Pool.Conserved (s.step c).toPool ∧ GrowsWhenFull s c)
          s calls ↔
      ∀ c ∈ calls, FreesNothing c := by
  obtain ⟨hs, hstart, hpool⟩ := hc.start hes (by omega) hfits
  have hcounted : Unfreed es n s := ⟨hs, hstart ▸ Pool.counted_start hes (by omega) hfits hpool⟩
  rw [and_iff_right ((Pool.conserved_iff hcounted.counted.inv).2 hcounted.counted.count),
    ← along_event Session.step s calls]
  exact along_iff_of_inv (fun _ _ hs ha hc => hs.step hes hn hfits ha.1 ha.2 hc)
    (fun _ _ hs ha => hs.balance_step_iff hes hn hfits ha.1 ha.2) hcounted
    ((along_and _ _).2 ⟨ha, hclear⟩)

/-- Four elements from the pool of three, the first of them written to. -/
def fourTaken : List Call :=
  [.malloc (grantAt 2000), .store 1128 255, .malloc (grantAt 2000), .malloc (grantAt 2000),
    .malloc (grantAt 2000)]

theorem fourTaken_balance : Pool.Conserved smallSession.toPool ∧
    Along Session.step (fun s c => Pool.Conserved (s.step c).toPool ∧ GrowsWhenFull s c)
      smallSession fourTaken :=
  (balance_iff_no_free (by decide) (by decide) (by decide) smallSession_created
    (by decide +kernel) (by decide +kernel)).2 (by simp [fourTaken, FreesNothing])

/-- One element taken and given back: no pointer is live, and two of three slots are free. -/
theorem slot_lost_by_free : Created 4 3 smallSession ∧
    Along Session.step Allowed smallSession [.malloc (grantAt 2000), .free 1128] ∧
    Along Session.step Clear smallSession [.malloc (grantAt 2000), .free 1128] ∧
    ¬ Pool.Conserved (exec Session.step smallSession
      [.malloc (grantAt 2000), .free 1128]).toPool := by
  refine ⟨smallSession_created, by decide +kernel, by decide +kernel, ?_⟩
  rintro ⟨frees, hfrees, htotal⟩
  have hval : ((exec Session.step smallSession
      [.malloc (grantAt 2000), .free 1128]).toPool.heap.poolBlocks.map Pool.MemBlock.freeSlots,
      (exec Session.step smallSession [.malloc (grantAt 2000), .free 1128]).toPool.heap.capacity,
      (exec Session.step smallSession [.malloc (grantAt 2000), .free 1128]).toPool.live.length) =
      ([some 2], 3, 0) := by decide +kernel
  simp only [Prod.mk.injEq] at hval
  obtain ⟨hslots, hcapacity, hlive⟩ := hval
  rw [hslots] at hfrees
  rw [hcapacity, hlive] at htotal
  obtain ⟨k, rest, rfl, hk, hrest⟩ := List.map_eq_cons_iff.1 hfrees.symm
  obtain rfl := List.map_eq_nil_iff.1 hrest
  obtain rfl := Option.some.inj hk
  simp at htotal

/-! ## One slot after the other -/

theorem mallocs_toPool (grants : List Grant) :
    (mallocs grants).filterMap Call.toPool = Pool.mallocs (grants.map Grant.toPool) := by
  unfold mallocs Pool.mallocs
  rw [List.filterMap_map, List.map_map, ← List.filterMap_eq_map]
  rfl

/-- Calls of `mem_pool_malloc` are tidy. -/
theorem Unfreed.tidy_mallocs (hes : 0 < es) (hn : 3 ≤ n) (hfits : es * (n + 1) ≤ intMax)
    (hs : Unfreed es n s) {grants : List Grant}
    (ha : Along Session.step Allowed s (mallocs grants))
    (hclear : Along Session.step Clear s (mallocs grants)) :
    Along Session.step (fun s c => Tidy s c ∧ Divides s c) s (mallocs grants) := by
  have hfree : ∀ c ∈ mallocs grants, FreesNothing c := by
    intro c hc
    obtain ⟨g, -, rfl⟩ := List.mem_map.1 hc
    trivial
  exact along_of_inv (fun _ _ hs hc => Unfreed.step hes hn hfits hs hc.1 hc.2.1 hc.2.2)
    (fun _ _ hs hc => hs.steady.tidy hes hc.2.1 (hs.intact hn hc.2.2)) hs
    ((along_and _ _).2 ⟨ha, (along_and _ _).2 ⟨hclear, (along_event _ _ _).2 hfree⟩⟩)

/-- Of consecutive calls on a fresh pool, while memory is available and nothing that is written
    overlaps, the `m`-th returns item `m` of the pool's chunks, and after all of them the pool
    has the blocks that so many items need, with their tables packed. -/
theorem handout_exact (hes : 0 < es) (hn : 3 ≤ n) (hfits : es * (n + 1) ≤ intMax)
    (hc : Created es n s) {grants : List Grant}
    (ha : Along Session.step Allowed s (mallocs grants))
    (hclear : Along Session.step Clear s (mallocs grants)) :
    (∀ (m : Nat) (g : Grant), grants[m]? = some g →
        ReturnsItem es n m (exec Session.step s (mallocs (grants.take m))) g) ∧
      Pool.AfterCalls n grants.length (exec Session.step s (mallocs grants)).toPool := by
  obtain ⟨hs, hstart, hpool⟩ := hc.start hes (by omega) hfits
  have hun : Unfreed es n s := ⟨hs, hstart ▸ Pool.counted_start hes (by omega) hfits hpool⟩
  have ht := hun.tidy_mallocs hes hn hfits ha hclear
  have hallowed := (hs.along_iff ht Pool.Allowed).1 ha
  rw [mallocs_toPool, hstart] at hallowed
  obtain ⟨hitems, hend⟩ := Pool.malloc_exact hes hn hfits hpool hallowed
  constructor
  · intro m g hg
    obtain ⟨hlt, rfl⟩ := List.getElem?_eq_some_iff.1 hg
    have hsplit : mallocs grants = mallocs (grants.take m) ++
        .malloc grants[m] :: mallocs (grants.drop (m + 1)) := by
      unfold mallocs
      rw [← List.map_cons, ← List.map_append, ← List.drop_eq_getElem_cons hlt,
        List.take_append_drop]
    rw [hsplit, along_append] at ht
    obtain ⟨hm, hrun⟩ := hs.run ht.1
    rw [mallocs_toPool, hstart, List.map_take] at hrun
    obtain ⟨p, h', b, hmalloc, hb, hp⟩ := hitems m grants[m].toPool (by simp [hlt])
    rw [← hrun] at hmalloc
    rcases hm.malloc ht.2.1.1 with ⟨r, w, hraw, hm', -⟩ | ⟨-, hm'⟩
    · obtain ⟨rfl, rfl⟩ := Prod.mk.inj (Except.ok.inj (hm'.symm.trans hmalloc))
      exact ⟨p, w, b, hraw, hb, hp⟩
    · cases hm'.symm.trans hmalloc
  · rw [(hs.run ht).2, mallocs_toPool, hstart]
    rwa [List.length_map] at hend

/-- Five elements from the pool of three: two blocks are added. -/
def fiveGrants : List Grant :=
  [grantAt 2000, grantAt 2000, grantAt 2000, grantAt 2000, grantAt 3000]

theorem fiveGrants_handout :
    (∀ (m : Nat) (g : Grant), fiveGrants[m]? = some g →
        ReturnsItem 4 3 m (exec Session.step smallSession (mallocs (fiveGrants.take m))) g) ∧
      Pool.AfterCalls 3 fiveGrants.length
        (exec Session.step smallSession (mallocs fiveGrants)).toPool :=
  handout_exact (by decide) (by decide) (by decide) smallSession_created (by decide +kernel)
    (by decide +kernel)

/-- The table of ten elements, of eleven bytes, and the data right behind it. -/
def closeGrant : Grant := ⟨some 992, some 1056, some 1072⟩

/-- `mem_pool_create(4, 10)` -/
def closeSession : Session := sessionOf closeGrant 4 10

/-- The requested regions do not overlap. The data cover the words of the table from 4 on, and
    the sixth call of `mem_pool_malloc` returns slot 0, which is live. -/
theorem cleared_table :
    Session.create (fun _ => 7) (some 16) closeGrant 4 10 = some closeSession ∧
      Pool.GrantOk [⟨16, sizeofMemPool⟩] closeGrant.toPool 4 10 ∧
      Along Session.step Allowed closeSession (mallocs (List.replicate 6 closeGrant)) ∧
      ¬ ReturnsItem 4 10 5 (exec Session.step closeSession
        (mallocs ((List.replicate 6 closeGrant).take 5))) closeGrant := by
  refine ⟨rfl, by decide, by decide +kernel, ?_⟩
  rintro ⟨p, w, b, hm, hb, hp⟩
  rw [exec_pool] at hm hb
  have hret := congrArg (returned closeSession.pool) hm
  have hval : returned closeSession.pool (memPoolMalloc (exec Session.step closeSession
      (mallocs ((List.replicate 6 closeGrant).take 5))).world closeSession.pool closeGrant) =
      (some 1072, [(1072, 10)], 4) := by decide +kernel
  have hret' := hval.symm.trans hret
  simp only [returned, Prod.mk.injEq, Option.some.injEq] at hret'
  obtain ⟨rfl, hareas, -⟩ := hret'
  have hmem : (b.data, b.elemNum) ∈ [((1072 : Int), (10 : Int))] := by
    rw [hareas]
    exact List.mem_map_of_mem (List.mem_of_getElem? hb)
  rw [List.mem_singleton, Prod.mk.injEq] at hmem
  rw [hmem.1] at hp
  exact absurd hp (by decide)

end GameServer.RawPool
