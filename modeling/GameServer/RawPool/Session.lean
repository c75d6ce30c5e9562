/-
  Runs of the pool in memory, and what they show without addresses.

  `Session.toPool` reads the pool of a session from memory. A step keeps a sound session
  sound, and what it reads afterwards is what the same call makes of the pool without
  addresses (`Sound.step`), as long as the call is `Tidy`. That is `Clear`, where nothing that
  the call writes overlaps memory in use for something else, and `HeadInTable`, where
  `mem_pool_malloc` reads an entry of a table. So a property of runs without addresses is one
  of runs in memory (`Sound.along_iff`).
-/
import GameServer.MemPool.Clearing
import GameServer.RawPool.Refine

namespace GameServer.RawPool

open CInt Memory Runs
open Pool (MemBlock Heap sizeofMemPool sizeofInt)

/-- The pool that memory holds. -/
def Session.heap (s : Session) : Heap := view s.world s.pool

/-- The session, read from memory. -/
def Session.toPool (s : Session) : Pool.Session :=
  { heap := s.heap, live := s.live, fault := s.fault.map fun _ => .nullDeref }

/-- The call of the pool's function, if it is one. -/
def Call.toPool : Call → Option Pool.Call
  | .malloc g => some (.malloc g.toPool)
  | .free p => some (.free p)
  | .store _ _ => none

/-- A property of calls without addresses, of the pool read from memory. -/
def OnPool (P : Pool.Session → Pool.Call → Prop) (s : Session) (c : Call) : Prop :=
  ∀ c' ∈ c.toPool, P s.toPool c'

/-- What the call writes does not overlap what is in use for something else: the header, all
    words of the table and the data of a new block overlap neither each other nor the pool; the
    four bytes that `mem_pool_free` clears overlap no header, no table and not `mem_pool_t`; and
    the user writes into data areas. -/
def Clear (s : Session) : Call → Prop
  | .malloc g => s.heap.search MemBlock.hasRoom = none →
      Spaced (inUse s.heap) g s.heap.pool.elemSize (s.heap.pool.elemNum.tdiv 3)
  | .free p => s.heap.search (·.accepts p) ≠ none →
      ∀ r ∈ control s.heap, Region.Apart ⟨p, sizeofInt⟩ r
  | .store p _ => ∃ b ∈ s.heap.blocks, b.dataAt.Contains p

/-- `mem_pool_malloc` takes a slot whose entry is in the table. -/
def HeadInTable (s : Session) : Call → Prop
  | .malloc g => ∀ b ∈ s.heap.chosen g.toPool, InTable b.elemNum b.head
  | .free _ => True
  | .store _ _ => True

def Tidy (s : Session) (c : Call) : Prop := Clear s c ∧ HeadInTable s c

/-- No division fails in `mem_pool_free`. -/
def Divides (s : Session) : Call → Prop
  | .malloc _ => True
  | .free p => ∀ f, memPoolFree s.world s.pool p ≠ .error f
  | .store _ _ => True

instance (s : Session) : (c : Call) → Decidable (Clear s c)
  | .malloc _ => inferInstanceAs (Decidable (_ → _))
  | .free _ => inferInstanceAs (Decidable (_ → _))
  | .store _ _ => inferInstanceAs (Decidable (∃ b ∈ _, _))

instance (s : Session) : (c : Call) → Decidable (HeadInTable s c)
  | .malloc _ => inferInstanceAs (Decidable (∀ b ∈ _, _))
  | .free _ => inferInstanceAs (Decidable True)
  | .store _ _ => inferInstanceAs (Decidable True)

instance (s : Session) (c : Call) : Decidable (Tidy s c) := inferInstanceAs (Decidable (_ ∧ _))

instance (P : Pool.Session → Pool.Call → Prop) [∀ s c, Decidable (P s c)] (s : Session)
    (c : Call) : Decidable (OnPool P s c) :=
  inferInstanceAs (Decidable (∀ c' ∈ c.toPool, P s.toPool c'))

/-- The memory holds the pool that is read from it. -/
def Sound (s : Session) : Prop := Models s.world s.pool s.heap

/-- The pool without addresses after a call. -/
def poolStep (t : Pool.Session) : Option Pool.Call → Pool.Session
  | some c => t.step c
  | none => t

@[simp] theorem poolStep_some (t : Pool.Session) (c : Pool.Call) :
    poolStep t (some c) = t.step c := rfl

@[simp] theorem poolStep_none (t : Pool.Session) : poolStep t none = t := rfl

variable {s : Session} {c : Call} {calls : List Call}

theorem onPool_malloc {P : Pool.Session → Pool.Call → Prop} {g : Grant}
    (h : OnPool P s (.malloc g)) : P s.toPool (.malloc g.toPool) := h _ (Option.mem_some_self _)

theorem onPool_free {P : Pool.Session → Pool.Call → Prop} {p : Int}
    (h : OnPool P s (.free p)) : P s.toPool (.free p) := h _ (Option.mem_some_self _)

/-! ## One call -/

theorem Sound.malloc (hs : Sound s) {g : Grant} (ht : Tidy s (.malloc g)) :
    (∃ r w, memPoolMalloc s.world s.pool g = .ok (r, w) ∧
        Pool.memPoolMalloc s.heap g.toPool = .ok (r, view w s.pool) ∧
        Models w s.pool (view w s.pool) ∧
        (r = none → ∀ x ∈ inUse s.heap, SameOn x s.world.bytes w.bytes)) ∨
      memPoolMalloc s.world s.pool g = .error .nullDeref ∧
        Pool.memPoolMalloc s.heap g.toPool = .error .nullDeref := by
  rcases Models.malloc hs ht.2 ht.1 with ⟨r, w, h, hraw, hpool, hm, hkept⟩ | hfault
  · obtain rfl := hm.view_eq
    exact Or.inl ⟨r, w, hraw, hpool, hm, hkept⟩
  · exact Or.inr hfault

theorem Sound.free (hs : Sound s) {p : Int} (hc : Clear s (.free p)) (hd : Divides s (.free p)) :
    ∃ w, memPoolFree s.world s.pool p = .ok w ∧ Models w s.pool (view w s.pool) ∧
      view w s.pool = Pool.memPoolFree s.heap p := by
  rcases Models.free hs hc with ⟨f, hf, -⟩ | ⟨w, hraw, hm, -⟩
  · exact absurd hf (hd f)
  · have hview := hm.view_eq
    exact ⟨w, hraw, by rwa [hview], hview⟩

theorem step_faulted (hf : s.fault ≠ none) (c : Call) : s.step c = s := by
  unfold Session.step
  cases hs : s.fault with
  | none => exact absurd hs hf
  | some f => rfl

theorem step_pool (s : Session) (c : Call) : (s.step c).pool = s.pool := by
  unfold Session.step
  split
  · rfl
  · split <;> rfl
  · split <;> rfl
  · rfl

theorem exec_pool (s : Session) (calls : List Call) :
    (exec Session.step s calls).pool = s.pool := by
  induction calls generalizing s with
  | nil => rfl
  | cons c calls ih => rw [exec_cons, ih, step_pool]

theorem Sound.step_malloc (hs : Sound s) (hf : s.fault = none) {g : Grant}
    (ht : Tidy s (.malloc g)) : Sound (s.step (.malloc g)) ∧
      (s.step (.malloc g)).toPool = s.toPool.step (.malloc g.toPool) := by
  have hf' : s.toPool.fault = none := by simp [Session.toPool, hf]
  rcases hs.malloc ht with ⟨r, w, hraw, hpool, hm, -⟩ | ⟨hraw, hpool⟩
  · have hstep : s.step (.malloc g) = { s with world := w, live := r.toList ++ s.live } := by
      unfold Session.step
      simp only [hf, hraw]
    rw [hstep, Pool.step_returns hf' hpool]
    exact ⟨hm, rfl⟩
  · have hstep : s.step (.malloc g) = { s with fault := some .nullDeref } := by
      unfold Session.step
      simp only [hf, hraw]
    have hpool' : s.toPool.step (.malloc g.toPool) =
        { s.toPool with fault := some .nullDeref } := by
      have hcrash : Pool.memPoolMalloc s.toPool.heap g.toPool = .error .nullDeref := hpool
      unfold Pool.Session.step
      simp only [hf', hcrash]
    rw [hstep, hpool']
    exact ⟨hs, rfl⟩

theorem Sound.step_free (hs : Sound s) (hf : s.fault = none) {p : Int}
    (hc : Clear s (.free p)) (hd : Divides s (.free p)) : Sound (s.step (.free p)) ∧
      (s.step (.free p)).toPool = s.toPool.step (.free p) := by
  have hf' : s.toPool.fault = none := by simp [Session.toPool, hf]
  obtain ⟨w, hraw, hm, hview⟩ := hs.free hc hd
  have hstep : s.step (.free p) = { s with world := w, live := s.live.erase p } := by
    unfold Session.step
    simp only [hf, hraw]
  rw [hstep, Pool.step_free p hf']
  refine ⟨hm, ?_⟩
  show Pool.Session.mk (view w s.pool) _ _ = _
  rw [hview]
  rfl

theorem Sound.step_store (hs : Sound s) (hf : s.fault = none) {p : Int} {v : UInt8}
    (hc : Clear s (.store p v)) : Sound (s.step (.store p v)) ∧
      (s.step (.store p v)).toPool = s.toPool := by
  have hm := Models.store hs v hc
  have hstep : s.step (.store p v) =
      { s with world := { s.world with bytes := Function.update s.world.bytes p v } } := by
    unfold Session.step
    simp only [hf]
  have hview := hm.view_eq
  rw [hstep]
  constructor
  · show Models _ s.pool (view _ s.pool)
    rwa [hview]
  · show Pool.Session.mk (view _ s.pool) _ _ = s.toPool
    rw [hview]
    rfl

/-- The step lemma. -/
theorem Sound.step (hs : Sound s) (ht : Tidy s c) (hd : Divides s c) :
    Sound (s.step c) ∧ (s.step c).toPool = poolStep s.toPool c.toPool := by
  by_cases hf : s.fault = none
  · cases c with
    | malloc g => exact hs.step_malloc hf ht
    | free p => exact hs.step_free hf ht.1 hd
    | store p v => exact hs.step_store hf ht.1
  · rw [step_faulted hf]
    refine ⟨hs, ?_⟩
    cases hc : c.toPool with
    | none => rfl
    | some c' =>
      have hf' : s.toPool.fault ≠ none := by
        simpa [Session.toPool, Option.map_eq_none_iff] using hf
      exact (Pool.exec_faulted hf' [c']).symm

/-- What the call keeps without addresses, it keeps in memory. -/
theorem Sound.step_keeps (hs : Sound s) (ht : Tidy s c) (hd : Divides s c)
    {P : Pool.Session → Prop} (hP : P s.toPool) (hstep : ∀ c' ∈ c.toPool, P (s.toPool.step c')) :
    Sound (s.step c) ∧ P (s.step c).toPool := by
  obtain ⟨hs', hpool⟩ := hs.step ht hd
  refine ⟨hs', ?_⟩
  rw [hpool]
  cases hc : c.toPool with
  | none => exact hP
  | some c' => exact hstep c' hc

/-! ## Runs -/

/-- The run lemma. -/
theorem Sound.run (hs : Sound s)
    (ht : Along Session.step (fun s c => Tidy s c ∧ Divides s c) s calls) :
    Sound (exec Session.step s calls) ∧ (exec Session.step s calls).toPool =
      exec Pool.Session.step s.toPool (calls.filterMap Call.toPool) := by
  induction calls generalizing s with
  | nil => exact ⟨hs, rfl⟩
  | cons c calls ih =>
    obtain ⟨hs', hpool⟩ := hs.step ht.1.1 ht.1.2
    obtain ⟨hend, hrest⟩ := ih hs' ht.2
    refine ⟨hend, ?_⟩
    rw [exec_cons, hrest, hpool]
    cases hc : c.toPool with
    | none => rw [List.filterMap_cons_none hc, poolStep_none]
    | some c' => rw [List.filterMap_cons_some hc, exec_cons, poolStep_some]

/-- A property of calls holds along a run in memory if and only if it holds along the run
    without addresses. -/
theorem Sound.along_iff (hs : Sound s)
    (ht : Along Session.step (fun s c => Tidy s c ∧ Divides s c) s calls)
    (P : Pool.Session → Pool.Call → Prop) :
    Along Session.step (OnPool P) s calls ↔
      Along Pool.Session.step P s.toPool (calls.filterMap Call.toPool) := by
  induction calls generalizing s with
  | nil => simp
  | cons c calls ih =>
    obtain ⟨hs', hpool⟩ := hs.step ht.1.1 ht.1.2
    have hrest := ih hs' ht.2
    rw [hpool] at hrest
    unfold OnPool at hrest ⊢
    cases hc : c.toPool with
    | none =>
      rw [hc, poolStep_none] at hrest
      rw [List.filterMap_cons_none hc, along_cons, hc]
      simpa using hrest
    | some c' =>
      rw [hc, poolStep_some] at hrest
      rw [List.filterMap_cons_some hc, along_cons, along_cons, hc]
      simpa using fun _ => hrest

/-! ## Divisions -/

/-- No division fails where elements have a size. -/
theorem Sound.divides (hs : Sound s) (hes : ∀ b ∈ s.heap.blocks, 0 < b.elemSize)
    (hc : Clear s c) : Divides s c := by
  cases c with
  | malloc g => trivial
  | store p v => trivial
  | free p =>
    intro f hf
    rcases Models.free hs hc with ⟨f', -, b, hb, hoffset⟩ | ⟨w, hw, -⟩
    · exact Models.freeOffset_ok hs hb (hes b hb) p f' hoffset
    · rw [hw] at hf
      cases hf

/-- A sound session with elements of `es` bytes. -/
structure Kept (es n : Int) (s : Session) : Prop where
  sound : Sound s
  regular : Pool.Regular es n s.toPool

theorem Kept.divides {es n : Int} (hes : 0 < es) (hs : Kept es n s) (hc : Clear s c) :
    Divides s c :=
  hs.sound.divides (fun b hb => (hs.regular.sized b hb).1 ▸ hes) hc

theorem Kept.step {es n : Int} (hes : 0 < es) (hn : n ≤ intMax) (hs : Kept es n s)
    (ht : Tidy s c) : Kept es n (s.step c) := by
  obtain ⟨hs', hregular⟩ := hs.sound.step_keeps ht (hs.divides hes ht.1) hs.regular
    fun c' _ => hs.regular.step hn c'
  exact ⟨hs', hregular⟩

/-- In a tidy run no division fails. -/
theorem Kept.tidy_divides {es n : Int} (hes : 0 < es) (hn : n ≤ intMax) (hs : Kept es n s)
    (ht : Along Session.step Tidy s calls) :
    Along Session.step (fun s c => Tidy s c ∧ Divides s c) s calls :=
  along_of_inv (fun _ _ hs ht => Kept.step hes hn hs ht)
    (fun _ _ hs ht => ⟨ht, hs.divides hes ht.1⟩) hs ht

/-! ## The beginning of a run -/

/-- A session that begins with a call of `mem_pool_create(es, n)` that returns a pool, for
    whose block `malloc` answers `g`. What that call writes does not overlap. -/
def Begun (g : Grant) (es n : Int) (s : Session) : Prop :=
  ∃ m pool, Session.create m (some pool) g es n = some s ∧
    Spaced [⟨pool, sizeofMemPool⟩] g es n

theorem Begun.start {g : Grant} {es n : Int} (hb : Begun g es n s) (hes : InInt es)
    (hn : InInt n) :
    Sound s ∧ s.toPool = .start s.heap ∧ ∃ pool, Pool.memPoolCreate (some pool) g.toPool es n =
      some s.heap := by
  obtain ⟨m, pool, hc, hsp⟩ := hb
  obtain ⟨w, h, hraw, hpool, hm⟩ := create_models m hsp hes hn
  unfold Session.create at hc
  rw [hraw] at hc
  obtain rfl := Option.some.inj hc
  obtain rfl := hm.view_eq
  exact ⟨hm, rfl, pool, hpool⟩

theorem Begun.kept {g : Grant} {es n : Int} (hb : Begun g es n s) (hes : InInt es)
    (hn : InInt n) : Kept es n s := by
  obtain ⟨hs, hstart, pool, hpool⟩ := hb.start hes hn
  exact ⟨hs, hstart ▸ Pool.regular_create hn.2 hpool⟩

end GameServer.RawPool
