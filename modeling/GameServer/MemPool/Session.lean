/-
  Runs of a pool and its user: what each call is allowed to be, what it does, and the
  invariant of a run in which the free lists stay in bump order.

  `Allowed` is the contract of a run. The user frees only pointers it holds. The system
  allocator does not fail, and the regions it grants for a new block overlap neither each
  other nor a region obtained before (`Placed`).

  `Intact` is the condition under which a call leaves the free lists in bump order: the
  pool is not extended by a block without elements, and `mem_pool_free` does not store into
  a free slot, that is, the offset at which its search loop breaks belongs to a slot already
  handed out by the block that accepted the pointer. Under both, `inv_step` keeps `Inv`.
-/
import GameServer.Lib.Run
import GameServer.MemPool.Bump

namespace GameServer.Pool

open CInt Region Runs

/-! ## The contract -/

/-- The regions of `b` lie in the address space and overlap neither each other nor any of
    `obtained`. -/
def Placed (obtained : List Region) (b : MemBlock) : Prop :=
  (∀ r ∈ b.regions, r.InSpace) ∧ (b.regions ++ obtained).Pairwise Region.Apart

instance (obtained : List Region) (b : MemBlock) : Decidable (Placed obtained b) :=
  inferInstanceAs (Decidable (_ ∧ _))

/-- No `malloc` call behind `g` fails, and the block of `n` elements it makes is placed. -/
def GrantOk (obtained : List Region) (g : Grant) (es n : Int) : Prop :=
  ∃ b, g.block es n = some b ∧ Placed obtained b

/-- The pool made by `mem_pool_create(es, n)`, with memory available. -/
def Created (es n : Int) (h : Heap) : Prop :=
  ∃ poolAt g, memPoolCreate (some poolAt) g es n = some h ∧
    GrantOk [⟨poolAt, sizeofMemPool⟩] g es n

/-- What the user and the system allocator promise for one call. -/
def Allowed (s : Session) : Call → Prop
  | .malloc g => s.heap.search MemBlock.hasRoom = none →
      GrantOk s.heap.obtained g s.heap.pool.elemSize (s.heap.pool.elemNum.tdiv 3)
  | .free p => p ∈ s.live

/-- The call leaves the free lists in bump order. -/
def Intact (s : Session) : Call → Prop
  | .malloc _ => s.heap.search MemBlock.hasRoom = none → 0 < s.heap.pool.elemNum.tdiv 3
  | .free p => ∀ b ∈ s.heap.owner p, b.freeOffset p < b.head

instance (obtained : List Region) (g : Grant) (es n : Int) :
    Decidable (GrantOk obtained g es n) :=
  match hb : g.block es n with
  | none => isFalse (by rintro ⟨b, hb', -⟩; rw [hb] at hb'; cases hb')
  | some b => decidable_of_iff (Placed obtained b)
      ⟨fun h => ⟨b, hb, h⟩, by
        rintro ⟨b', hb', h⟩
        obtain rfl : b = b' := Option.some.inj (hb.symm.trans hb')
        exact h⟩

instance : (s : Session) → (c : Call) → Decidable (Allowed s c)
  | _, .malloc _ => inferInstanceAs (Decidable (_ → _))
  | _, .free _ => inferInstanceAs (Decidable (_ ∈ _))

instance : (s : Session) → (c : Call) → Decidable (Intact s c)
  | _, .malloc _ => inferInstanceAs (Decidable (_ → _))
  | _, .free _ => inferInstanceAs (Decidable (∀ b ∈ _, _))

/-! ## What a call does -/

/-- The two ways in which `mem_pool_malloc` hands out `p` and leaves `h'`. -/
inductive Gives (h : Heap) (g : Grant) : Int → Heap → Prop
  | reuse {pos : Nat} {b : MemBlock} (hb : h.blocks[pos]? = some b) (hroom : b.hasRoom = true) :
      Gives h g b.take.1 { h with blocks := h.blocks.set pos b.take.2 }
  | grow {b : MemBlock} {h' : Heap} (hs : h.search MemBlock.hasRoom = none)
      (hb : g.block h.pool.elemSize (h.pool.elemNum.tdiv 3) = some b)
      (hplaced : Placed h.obtained b)
      (hblocks : h'.blocks =
        h.blocks.modify (h.blocks.length - 1) (.setNext h.blocks.length) ++ [b.take.2])
      (hpool : h'.pool = { h.pool with
        tail := some h.blocks.length, elemTotal := i32 (h.pool.elemTotal + h.pool.elemNum) })
      (hobt : h'.obtained = b.regions ++ h.obtained) :
      Gives h g b.take.1 h'

/-- On a linked pool with memory available `mem_pool_malloc` returns a pointer. -/
theorem malloc_gives {s : Session} {g : Grant} (hl : Linked s.heap)
    (ha : Allowed s (.malloc g)) :
    ∃ p h', memPoolMalloc s.heap g = .ok (some p, h') ∧ Gives s.heap g p h' := by
  cases hs : s.heap.search MemBlock.hasRoom with
  | some pos =>
    obtain ⟨b, hb, hroom, -⟩ := hl.listed.search_some.1 hs
    exact ⟨_, _, malloc_reuse g hs hb, .reuse hb hroom⟩
  | none =>
    obtain ⟨b, hb, hplaced⟩ := ha hs
    obtain ⟨h', hm, hblocks, hpool, hobt, -⟩ := malloc_grow hl hs hb
    exact ⟨_, _, hm, .grow hs hb hplaced hblocks hpool hobt⟩

theorem step_malloc {s : Session} {g : Grant} {p : Int} {h' : Heap} (hf : s.fault = none)
    (hm : memPoolMalloc s.heap g = .ok (some p, h')) :
    s.step (.malloc g) = { s with heap := h', live := p :: s.live } := by
  unfold Session.step
  simp only [hf, hm]

theorem step_free {s : Session} (p : Int) (hf : s.fault = none) :
    s.step (.free p) = { s with heap := memPoolFree s.heap p, live := s.live.erase p } := by
  unfold Session.step
  simp only [hf]

/-! ## The invariant -/

/-- The blocks of `blocks` that were there before are still there, with as many slots
    handed out. -/
def Keeps (blocks blocks' : List MemBlock) : Prop :=
  ∀ (pos : Nat) (b : MemBlock), blocks[pos]? = some b →
    ∃ b' : MemBlock, blocks'[pos]? = some b' ∧ b'.dataAt = b.dataAt ∧ b.head ≤ b'.head

/-- `p` is a slot that some block has handed out. -/
def HandedOut (es : Int) (blocks : List MemBlock) (p : Int) : Prop :=
  ∃ (pos : Nat) (b : MemBlock) (k : Int),
    blocks[pos]? = some b ∧ 0 ≤ k ∧ k < b.head ∧ p = slot b.data es k

structure Inv (es n : Int) (s : Session) : Prop where
  noFault : s.fault = none
  linked : Linked s.heap
  elemSize : s.heap.pool.elemSize = es
  elemNum : s.heap.pool.elemNum = n
  bump : ∀ b ∈ s.heap.blocks, Bump es b
  apart : (s.heap.blocks.map MemBlock.dataAt).Pairwise Region.Apart
  obtained : ∀ r ∈ s.heap.blocks.map MemBlock.dataAt, r ∈ s.heap.obtained
  live : ∀ p ∈ s.live, HandedOut es s.heap.blocks p

theorem HandedOut.mono {es p : Int} {blocks blocks' : List MemBlock}
    (hp : HandedOut es blocks p) (hk : Keeps blocks blocks') : HandedOut es blocks' p := by
  obtain ⟨pos, b, k, hb, h0, hkh, rfl⟩ := hp
  obtain ⟨b', hb', hdata, hhead⟩ := hk pos b hb
  exact ⟨pos, b', k, hb', h0, by omega, by rw [MemBlock.data, MemBlock.data, hdata]⟩

theorem keeps_set {blocks : List MemBlock} {pos : Nat} {b b' : MemBlock}
    (hb : blocks[pos]? = some b) (hd : b'.dataAt = b.dataAt) (hh : b.head ≤ b'.head) :
    Keeps blocks (blocks.set pos b') := by
  intro i c hc
  have hi := (List.getElem?_eq_some_iff.1 hc).1
  rw [List.getElem?_set]
  by_cases hpi : pos = i
  · subst hpi
    obtain rfl : b = c := Option.some.inj (hb.symm.trans hc)
    exact ⟨b', by simp [hi], hd, hh⟩
  · exact ⟨c, by simp [hpi, hc], rfl, Int.le_refl _⟩

theorem keeps_modify (blocks : List MemBlock) (pos : Nat) {f : MemBlock → MemBlock}
    (hd : ∀ b, (f b).dataAt = b.dataAt) (hh : ∀ b, b.head ≤ (f b).head) :
    Keeps blocks (blocks.modify pos f) := by
  intro i c hc
  rw [List.getElem?_modify, hc]
  by_cases hpi : pos = i
  · exact ⟨f c, by simp [hpi], hd c, hh c⟩
  · exact ⟨c, by simp [hpi], rfl, Int.le_refl _⟩

theorem Keeps.append {blocks blocks' : List MemBlock} (hk : Keeps blocks blocks')
    (tail : List MemBlock) : Keeps blocks (blocks' ++ tail) := by
  intro pos b hb
  obtain ⟨b', hb', h⟩ := hk pos b hb
  have hlt := (List.getElem?_eq_some_iff.1 hb').1
  exact ⟨b', by rw [List.getElem?_append_left hlt, hb'], h⟩

/-! ## `mem_pool_malloc` keeps it -/

section Step

variable {es n : Int} {s : Session}

theorem Inv.bump_at (hi : Inv es n s) {pos : Nat} {b : MemBlock}
    (hb : s.heap.blocks[pos]? = some b) : Bump es b :=
  hi.bump b (List.mem_of_getElem? hb)

/-- The size of the blocks a pool is extended by stays below that of its first block. -/
theorem growth_fits (hes : 0 < es) (hn : 0 ≤ n) (hfits : es * (n + 1) ≤ intMax) :
    0 ≤ n.tdiv 3 ∧ es * (n.tdiv 3 + 1) ≤ intMax := by
  have hdiv : n.tdiv 3 = n / 3 := Int.tdiv_eq_ediv_of_nonneg hn
  have hle : es * (n.tdiv 3 + 1) ≤ es * (n + 1) :=
    Int.mul_le_mul_of_nonneg_left (by omega) (Int.le_of_lt hes)
  exact ⟨by omega, by omega⟩

theorem bump_block (hes : 0 < es) (hn : 0 ≤ n) (hfits : es * (n + 1) ≤ intMax) {g : Grant}
    {b : MemBlock} {obtained : List Region} (hb : g.block es n = some b)
    (hp : Placed obtained b) : Bump es b ∧ b.head = 0 ∧ b.elemNum = n ∧ b.next = none := by
  obtain ⟨header, table, data, -, rfl⟩ := block_eq_some hb
  exact ⟨bump_fresh _ _ _ hes hn hfits (hp.1 _ (by simp [MemBlock.regions])), rfl, rfl, rfl⟩

/-- The block by which a call extends the pool, which leaves the free lists in bump order. -/
theorem Inv.new_block (hes : 0 < es) (hn : 0 ≤ n) (hfits : es * (n + 1) ≤ intMax)
    (hi : Inv es n s) {g : Grant} (hs : s.heap.search MemBlock.hasRoom = none) {b : MemBlock}
    (hb : g.block s.heap.pool.elemSize (s.heap.pool.elemNum.tdiv 3) = some b)
    (hplaced : Placed s.heap.obtained b) (hin : Intact s (.malloc g)) :
    Bump es b ∧ b.head = 0 ∧ b.head < b.elemNum ∧ b.elemNum = n.tdiv 3 ∧ b.next = none := by
  have hpos := hin hs
  rw [hi.elemNum] at hpos
  rw [hi.elemSize, hi.elemNum] at hb
  obtain ⟨hn', hfits'⟩ := growth_fits hes hn hfits
  obtain ⟨hbump, hhead, hnum, hnext⟩ := bump_block hes hn' hfits' hb hplaced
  exact ⟨hbump, hhead, by omega, hnum, hnext⟩

/-- The block that gives the slot is a bump block with room, and its data area is there. -/
theorem gives_source (hes : 0 < es) (hn : 0 ≤ n) (hfits : es * (n + 1) ≤ intMax)
    (hi : Inv es n s) {g : Grant} {p : Int} {h' : Heap} (hg : Gives s.heap g p h')
    (hin : Intact s (.malloc g)) :
    ∃ pos b, Bump es b ∧ b.head < b.elemNum ∧ p = b.take.1 ∧ h'.blocks[pos]? = some b.take.2 ∧
      (s.heap.blocks[pos]? = some b ∨
        pos = s.heap.blocks.length ∧ Placed s.heap.obtained b) := by
  cases hg with
  | @reuse pos b hb hroom =>
    have hbump := hi.bump_at hb
    have hlt := (List.getElem?_eq_some_iff.1 hb).1
    exact ⟨pos, b, hbump, hbump.hasRoom_iff.1 hroom, rfl, by simp [hlt], Or.inl hb⟩
  | @grow b h' hs hb hplaced hblocks hpool hobt =>
    obtain ⟨hbump, -, hroom, -⟩ := hi.new_block hes hn hfits hs hb hplaced hin
    exact ⟨s.heap.blocks.length, b, hbump, hroom, rfl, by simp [hblocks],
      Or.inr ⟨rfl, hplaced⟩⟩

theorem gives_keeps (hes : 0 < es) (hi : Inv es n s) {g : Grant} {p : Int} {h' : Heap}
    (hg : Gives s.heap g p h') : Keeps s.heap.blocks h'.blocks := by
  cases hg with
  | @reuse pos b hb hroom =>
    have hbump := hi.bump_at hb
    have hhead := (bump_take hes hbump (hbump.hasRoom_iff.1 hroom)).2.1
    exact keeps_set hb rfl (by omega)
  | grow hs hb hplaced hblocks hpool hobt =>
    rw [hblocks]
    refine (keeps_modify _ _ ?_ ?_).append _
    · exact fun _ => rfl
    · exact fun _ => Int.le_refl _

/-- The pointer returned is not one of those handed out before. -/
theorem gives_fresh (hes : 0 < es) (hn : 0 ≤ n) (hfits : es * (n + 1) ≤ intMax)
    (hi : Inv es n s) {g : Grant} {p : Int} {h' : Heap} (hg : Gives s.heap g p h')
    (hin : Intact s (.malloc g)) : ¬ HandedOut es s.heap.blocks p := by
  rintro ⟨i, c, k, hc, hk0, hkc, hpc⟩
  obtain ⟨pos, b, hbump, hroom, hpb, -, hsrc⟩ := gives_source hes hn hfits hi hg hin
  have hcbump := hi.bump_at hc
  have hch := hcbump.head_le
  have hb0 := hbump.head_nonneg
  have hp := (bump_take hes hbump hroom).1
  have heq : slot b.data es b.head = slot c.data es k := by rw [← hp, ← hpb, hpc]
  have hcr : c.dataAt ∈ s.heap.blocks.map MemBlock.dataAt :=
    List.mem_map_of_mem (List.mem_of_getElem? hc)
  have hapart : ∀ h : b.dataAt.Apart c.dataAt, False := fun h =>
    slot_ne_of_apart h hes (Int.le_of_eq hbump.size.symm) (Int.le_of_eq hcbump.size.symm) hb0
      (by omega) hk0 (by omega) heq
  rcases hsrc with hb | ⟨-, hplaced⟩
  · -- both slots in old blocks: the same block, or two that do not overlap
    rcases ListUpdate.eq_or_rel_of_pairwise (fun _ _ => Region.Apart.symm) hi.apart
      (by rw [List.getElem?_map, hb]; rfl) (by rw [List.getElem?_map, hc]; rfl) with h | h
    · subst h
      obtain rfl : b = c := Option.some.inj (hb.symm.trans hc)
      have := slot_inj hes heq
      omega
    · exact hapart h
  · -- the slot of a new block, whose data area overlaps nothing obtained before
    have hpw := (List.pairwise_append.1 hplaced.2).2.2
    exact hapart (hpw _ (by simp [MemBlock.regions]) _ (hi.obtained _ hcr))

theorem gives_handedOut (hes : 0 < es) (hn : 0 ≤ n) (hfits : es * (n + 1) ≤ intMax)
    (hi : Inv es n s) {g : Grant} {p : Int} {h' : Heap} (hg : Gives s.heap g p h')
    (hin : Intact s (.malloc g)) : HandedOut es h'.blocks p := by
  obtain ⟨pos, b, hbump, hroom, hpb, hpos, -⟩ := gives_source hes hn hfits hi hg hin
  obtain ⟨haddr, hhead, -⟩ := bump_take hes hbump hroom
  exact ⟨pos, b.take.2, b.head, hpos, hbump.head_nonneg, by omega, by rw [hpb, haddr]; rfl⟩

theorem inv_gives (hes : 0 < es) (hn : 0 ≤ n) (hfits : es * (n + 1) ≤ intMax)
    (hi : Inv es n s) {g : Grant} {p : Int} {h' : Heap} (hg : Gives s.heap g p h')
    (hin : Intact s (.malloc g)) : Inv es n { s with heap := h', live := p :: s.live } := by
  have hkeeps := gives_keeps hes hi hg
  have hlive : ∀ q ∈ p :: s.live, HandedOut es h'.blocks q := by
    intro q hq
    rcases List.mem_cons.1 hq with rfl | hq
    · exact gives_handedOut hes hn hfits hi hg hin
    · exact (hi.live q hq).mono hkeeps
  cases hg with
  | @reuse pos b hb hroom =>
    have hbump := hi.bump_at hb
    have hdata : (s.heap.blocks.set pos b.take.2).map MemBlock.dataAt =
        s.heap.blocks.map MemBlock.dataAt := ListUpdate.map_set_eq hb rfl
    exact
      { noFault := hi.noFault
        linked := hi.linked.set hb rfl
        elemSize := hi.elemSize
        elemNum := hi.elemNum
        bump := ListUpdate.forall_set hi.bump pos
          (bump_take hes hbump (hbump.hasRoom_iff.1 hroom)).2.2
        apart := by rw [hdata]; exact hi.apart
        obtained := by rw [hdata]; exact hi.obtained
        live := hlive }
  | @grow b h' hs hb hplaced hblocks hpool hobt =>
    obtain ⟨hbump, -, hroom, -, hnext⟩ := hi.new_block hes hn hfits hs hb hplaced hin
    have hdata : h'.blocks.map MemBlock.dataAt =
        s.heap.blocks.map MemBlock.dataAt ++ [b.dataAt] := by
      rw [hblocks, map_extended fun _ _ => rfl]
      rfl
    have hnew := (List.pairwise_append.1 hplaced.2).2.2 b.dataAt (by simp [MemBlock.regions])
    exact
      { noFault := hi.noFault
        linked := hi.linked.grow (b := b.take.2) hnext hblocks (by rw [hpool]) (by rw [hpool])
        elemSize := by rw [hpool]; exact hi.elemSize
        elemNum := by rw [hpool]; exact hi.elemNum
        bump := by
          rw [hblocks]
          exact forall_extended hi.bump (fun a next ha => { ha with })
            (bump_take hes hbump hroom).2.2
        apart := by
          rw [hdata, List.pairwise_append]
          refine ⟨hi.apart, List.pairwise_singleton _ _, fun r hr c hc => ?_⟩
          rw [List.mem_singleton.1 hc]
          exact (hnew r (hi.obtained r hr)).symm
        obtained := by
          intro r hr
          rw [hdata, List.mem_append, List.mem_singleton] at hr
          rw [hobt, List.mem_append]
          rcases hr with hr | rfl
          · exact Or.inr (hi.obtained r hr)
          · exact Or.inl (by simp [MemBlock.regions])
        live := hlive }

/-! ## `mem_pool_free` keeps it, and the run -/

theorem inv_free (hi : Inv es n s) {p : Int} (hin : Intact s (.free p)) :
    Inv es n { s with heap := memPoolFree s.heap p, live := s.live.erase p } := by
  cases hs : s.heap.search (·.accepts p) with
  | none =>
    rw [free_miss hs]
    exact { hi with live := fun q hq => hi.live q (List.mem_of_mem_erase hq) }
  | some pos =>
    have hlinked := hi.linked.free p
    rw [free_hit hs] at hlinked ⊢
    have hdata : (s.heap.blocks.modify pos fun b => b.putBack (b.freeOffset p)).map
        MemBlock.dataAt = s.heap.blocks.map MemBlock.dataAt :=
      ListUpdate.map_modify_eq _ _ fun _ => rfl
    exact
      { noFault := hi.noFault
        linked := hlinked
        elemSize := hi.elemSize
        elemNum := hi.elemNum
        bump := ListUpdate.forall_modify hi.bump fun a ha =>
          bump_putBack (hi.bump_at ha) (hin a (owner_eq_some hs ha))
        apart := by rw [hdata]; exact hi.apart
        obtained := by rw [hdata]; exact hi.obtained
        live := fun q hq => (hi.live q (List.mem_of_mem_erase hq)).mono
          (keeps_modify _ _ (fun _ => rfl) fun _ => Int.le_refl _) }

/-- The step lemma. -/
theorem inv_step (hes : 0 < es) (hn : 0 ≤ n) (hfits : es * (n + 1) ≤ intMax) (hi : Inv es n s)
    {c : Call} (ha : Allowed s c) (hin : Intact s c) : Inv es n (s.step c) := by
  cases c with
  | malloc g =>
    obtain ⟨p, h', hm, hg⟩ := malloc_gives hi.linked ha
    rw [step_malloc hi.noFault hm]
    exact inv_gives hes hn hfits hi hg hin
  | free p =>
    rw [step_free p hi.noFault]
    exact inv_free hi hin

theorem inv_start (hes : 0 < es) (hn : 0 ≤ n) (hfits : es * (n + 1) ≤ intMax) {h : Heap}
    (hc : Created es n h) : Inv es n (.start h) := by
  obtain ⟨poolAt, g, hcreate, b, hb, hplaced⟩ := hc
  obtain ⟨hblocks, hpool, hobt, -⟩ := create_block hb hcreate
  obtain ⟨hbump, -, -, hnext⟩ := bump_block hes hn hfits hb hplaced
  exact
    { noFault := rfl
      linked := Linked.single hblocks hnext (by rw [Session.start, hpool])
        (by rw [Session.start, hpool])
      elemSize := by simp [Session.start, hpool]
      elemNum := by simp [Session.start, hpool]
      bump := by simpa [Session.start, hblocks] using hbump
      apart := by simp [Session.start, hblocks]
      obtained := by simp [Session.start, hblocks, hobt, MemBlock.regions]
      live := by simp [Session.start] }

end Step

/-! ## A pool of three elements -/

/-- The system allocator puts the header at `a`, the table and the data behind it. -/
def grantAt (a : Int) : Grant := ⟨some a, some (a + 64), some (a + 128), fun _ => 0⟩

/-- `mem_pool_create(4, 3)` -/
def smallPool : Heap := (memPoolCreate (some 16) (grantAt 1000) 4 3).get (by decide)

end GameServer.Pool
