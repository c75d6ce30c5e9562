/-
  What becomes of freed elements.

  `Conserved`: the live pointers and the free slots add up to the capacity of the blocks. A
  free slot is one that the chain from `block->head` meets before `block->tail`.

  As long as the free lists are in bump order, the slots below the heads are the ones that
  left the chains for good (`conserved_iff`). `mem_pool_malloc` moves one slot from a chain
  to the live pointers. `mem_pool_free` takes a pointer from the live ones and puts no slot
  on a chain: it leaves `tail` where it is, so a slot stored behind the old tail is never
  met. Hence a call keeps the balance if and only if it frees nothing
  (`conserves_step_iff`).
-/
import GameServer.Lib.IndexChain
import GameServer.MemPool.Session

namespace GameServer.Pool

open CInt Region Runs IndexChain

/-- Length of the chain from `block->head` along `block->table` to `block->tail`; it has
    none when it leaves the table. -/
def MemBlock.freeSlots (b : MemBlock) : Option Nat :=
  chainLength b.table b.tail (fun i => decide (0 ≤ i ∧ i ≤ b.elemNum)) (b.elemNum.toNat + 1) b.head

/-- Elements that the pool's blocks can hold. -/
def Heap.capacity (h : Heap) : Int := (h.poolBlocks.map MemBlock.elemNum).sum

/-- Every block has a chain of free slots, and together with the live pointers they make up
    the capacity. -/
def Conserved (s : Session) : Prop :=
  ∃ frees : List Nat, s.heap.poolBlocks.map MemBlock.freeSlots = frees.map some ∧
    (s.live.length : Int) + frees.sum = s.heap.capacity

/-- A call of `mem_pool_malloc` appends a block only when every slot is live. -/
def GrowsWhenFull (s : Session) : Call → Prop
  | .malloc g => s.heap.poolBlocks.length < (s.step (.malloc g)).heap.poolBlocks.length →
      (s.live.length : Int) = s.heap.capacity
  | .free _ => True

/-- Slots handed out so far, summed over the blocks. -/
def Heap.handedOut (h : Heap) : Int := (h.blocks.map MemBlock.head).sum

/-! ## Chains of bump blocks -/

theorem Bump.freeSlots {es : Int} {b : MemBlock} (hb : Bump es b) :
    b.freeSlots = some (b.elemNum - b.head).toNat := by
  have h0 := hb.head_nonneg
  have hle := hb.head_le
  refine chainLength_ascending _ _ _ (by rw [hb.tail]; omega) (by omega) fun j hj hjt => ?_
  rw [hb.tail] at hjt
  exact ⟨by simp only [decide_eq_true_eq]; omega, hb.free j hj hjt⟩

/-- A slot put back while it is on the chain cuts the chain off. -/
theorem freeSlots_putBack {es : Int} {b : MemBlock} (hb : Bump es b) {offset : Int}
    (ho : b.head ≤ offset) (hon : offset < b.elemNum) : (b.putBack offset).freeSlots = none := by
  have h0 := hb.head_nonneg
  have hupd : (b.putBack offset).table offset = endOfMem := Function.update_self ..
  refine chainLength_leaves (m := offset) ?_ ?_ ?_ ?_ (offset - b.head).toNat _ _ ?_ ?_
  · simp only [decide_eq_true_eq]
    exact ⟨by omega, Int.le_of_lt hon⟩
  · show offset < b.tail
    rw [hb.tail]
    exact hon
  · rw [hupd]
    simp [endOfMem]
  · show (b.putBack offset).table offset ≠ b.tail
    rw [hupd, hb.tail]
    unfold endOfMem
    omega
  · show b.head + _ = offset
    omega
  · intro j hj hjo
    have hj' : b.head ≤ j := hj
    refine ⟨?_, ?_⟩
    · simp only [decide_eq_true_eq]
      exact ⟨by omega, by show j ≤ b.elemNum; omega⟩
    · show Function.update (Function.update b.table b.tail offset) offset endOfMem j = j + 1
      rw [Function.update_of_ne (by omega), Function.update_of_ne (by rw [hb.tail]; omega)]
      exact hb.free j hj' (by omega)

theorem freeSlots_of_bump {es : Int} {blocks : List MemBlock} (hb : ∀ b ∈ blocks, Bump es b) :
    blocks.map MemBlock.freeSlots =
      (blocks.map fun b => (b.elemNum - b.head).toNat).map some := by
  rw [List.map_map]
  exact List.map_congr_left fun b hmem => (hb b hmem).freeSlots

/-- Handed out and free slots make up the capacity. -/
theorem sum_freeSlots {es : Int} {blocks : List MemBlock} (hb : ∀ b ∈ blocks, Bump es b) :
    (blocks.map MemBlock.head).sum +
        (((blocks.map fun b => (b.elemNum - b.head).toNat).sum : Nat) : Int) =
      (blocks.map MemBlock.elemNum).sum := by
  induction blocks with
  | nil => rfl
  | cons b blocks ih =>
    have hle := (hb b (by simp)).head_le
    have := ih fun c hc => hb c (by simp [hc])
    simp only [List.map_cons, List.sum_cons, Int.natCast_add] at this ⊢
    omega

/-- In bump order the balance says that the live pointers are the slots handed out. -/
theorem conserved_iff {es n : Int} {s : Session} (hi : Inv es n s) :
    Conserved s ↔ (s.live.length : Int) = s.heap.handedOut := by
  have hsum := sum_freeSlots hi.bump
  unfold Conserved Heap.capacity Heap.handedOut
  rw [hi.linked.poolBlocks, freeSlots_of_bump hi.bump]
  constructor
  · rintro ⟨frees, hfrees, htotal⟩
    rw [List.map_inj_right fun _ _ => Option.some.inj] at hfrees
    rw [← hfrees] at htotal
    omega
  · intro hlive
    exact ⟨_, rfl, by omega⟩

/-! ## The two kinds of calls -/

section Run

variable {es n : Int} {s : Session}

theorem gives_handedOut_succ (hes : 0 < es) (hn : 0 ≤ n) (hfits : es * (n + 1) ≤ intMax)
    (hi : Inv es n s) {g : Grant} {p : Int} {h' : Heap} (hg : Gives s.heap g p h')
    (hin : Intact s (.malloc g)) : h'.handedOut = s.heap.handedOut + 1 := by
  unfold Heap.handedOut
  cases hg with
  | @reuse pos b hb hroom =>
    have hbump := hi.bump_at hb
    have hhead := (bump_take hes hbump (hbump.hasRoom_iff.1 hroom)).2.1
    rw [ListUpdate.sum_map_set hb, hhead]
    omega
  | @grow b h' hs hb hplaced hblocks hpool hobt =>
    obtain ⟨hbump, hhead, hroom, -⟩ := hi.new_block hes hn hfits hs hb hplaced hin
    have htake := (bump_take hes hbump hroom).2.1
    rw [hblocks, map_extended fun _ _ => rfl, List.sum_append, List.sum_singleton]
    omega

/-- When no block has room, all slots are handed out. -/
theorem handedOut_full (hi : Inv es n s) (hs : s.heap.search MemBlock.hasRoom = none) :
    s.heap.handedOut = s.heap.capacity := by
  have hfull := hi.linked.listed.search_none.1 hs
  unfold Heap.handedOut Heap.capacity
  rw [hi.linked.poolBlocks]
  refine congrArg List.sum (List.map_congr_left fun b hb => ?_)
  have hroom := hfull b hb
  have hle := (hi.bump b hb).head_le
  have hiff := (hi.bump b hb).hasRoom_iff
  rw [hroom] at hiff
  have : ¬ b.head < b.elemNum := fun h => Bool.noConfusion (hiff.2 h)
  omega

theorem growsWhenFull (hes : 0 < es) (hn : 0 ≤ n) (hfits : es * (n + 1) ≤ intMax)
    (hi : Inv es n s) (hcount : (s.live.length : Int) = s.heap.handedOut) {g : Grant}
    (ha : Allowed s (.malloc g)) (hin : Intact s (.malloc g)) : GrowsWhenFull s (.malloc g) := by
  intro hlt
  obtain ⟨p, h', hm, hg⟩ := malloc_gives hi.linked ha
  have hi' := inv_gives hes hn hfits hi hg hin
  rw [step_malloc hi.noFault hm, hi.linked.poolBlocks, hi'.linked.poolBlocks] at hlt
  cases hg with
  | reuse hb hroom => simp at hlt
  | grow hs hb hplaced hblocks hpool hobt => rw [hcount, handedOut_full hi hs]

theorem handedOut_free (h : Heap) (p : Int) : (memPoolFree h p).handedOut = h.handedOut := by
  cases hs : h.search (·.accepts p) with
  | none => rw [free_miss hs]
  | some pos =>
    rw [free_hit hs]
    exact congrArg List.sum (ListUpdate.map_modify_eq _ _ fun _ => rfl)

/-- The block at which `mem_pool_free` stores, when it stores into a free slot. -/
theorem not_intact_free (hi : Inv es n s) {p : Int} (hin : ¬ Intact s (.free p)) :
    ∃ pos b, s.heap.search (·.accepts p) = some pos ∧ s.heap.blocks[pos]? = some b ∧
      b.head ≤ b.freeOffset p ∧ b.freeOffset p < b.elemNum := by
  cases hs : s.heap.search (·.accepts p) with
  | none =>
    refine absurd (fun b hb => ?_) hin
    simp [Heap.owner, hs] at hb
  | some pos =>
    obtain ⟨b, hb, haccept, -⟩ := hi.linked.listed.search_some.1 hs
    simp only [MemBlock.accepts, Bool.and_eq_true, decide_eq_true_eq] at haccept
    refine ⟨pos, b, rfl, hb, ?_, haccept.2⟩
    by_contra hlt
    refine hin fun c hc => ?_
    rw [owner_eq_some hs hb, Option.mem_some_iff] at hc
    rw [← hc]
    omega

/-- No `mem_pool_free` keeps the balance. -/
theorem not_conserved_free (hi : Inv es n s)
    (hcount : (s.live.length : Int) = s.heap.handedOut) {p : Int} (hp : p ∈ s.live) :
    ¬ Conserved (s.step (.free p)) := by
  rw [step_free p hi.noFault]
  by_cases hin : Intact s (.free p)
  · rw [conserved_iff (inv_free hi hin), List.length_erase_of_mem hp, handedOut_free, ← hcount]
    have := List.length_pos_of_mem hp
    omega
  · obtain ⟨pos, b, hs, hb, hlo, hhi⟩ := not_intact_free hi hin
    rintro ⟨frees, hfrees, -⟩
    have hlinked := hi.linked.free p
    have hmem : b.putBack (b.freeOffset p) ∈ (memPoolFree s.heap p).poolBlocks := by
      rw [hlinked.poolBlocks, free_hit hs]
      exact List.mem_of_getElem? (i := pos) (by simp [hb])
    have hnone : (none : Option Nat) ∈ frees.map some := by
      rw [← hfrees, ← freeSlots_putBack (hi.bump_at hb) hlo hhi]
      exact List.mem_map_of_mem hmem
    simp at hnone

/-- A call is not `mem_pool_free`. -/
def IsMalloc : Call → Prop
  | .malloc _ => True
  | .free _ => False

/-- What holds as long as nothing is freed: the live pointers are the slots handed out. -/
structure Counted (es n : Int) (s : Session) : Prop where
  inv : Inv es n s
  count : (s.live.length : Int) = s.heap.handedOut

/-- A pool whose blocks all have elements is always extended by a block that has some. -/
theorem intact_malloc (hi : Inv es n s) (hn : 3 ≤ n) (g : Grant) : Intact s (.malloc g) := by
  intro _
  rw [hi.elemNum, Int.tdiv_eq_ediv_of_nonneg (by omega)]
  omega

theorem counted_malloc (hes : 0 < es) (hn : 3 ≤ n) (hfits : es * (n + 1) ≤ intMax)
    (hs : Counted es n s) {g : Grant} (ha : Allowed s (.malloc g)) :
    Counted es n (s.step (.malloc g)) := by
  have hin := intact_malloc hs.inv hn g
  obtain ⟨p, h', hm, hg⟩ := malloc_gives hs.inv.linked ha
  have hsucc := gives_handedOut_succ hes (by omega) hfits hs.inv hg hin
  rw [step_malloc hs.inv.noFault hm]
  refine ⟨inv_gives hes (by omega) hfits hs.inv hg hin, ?_⟩
  rw [List.length_cons, Int.natCast_succ, hs.count, hsucc]

theorem conserves_step_iff (hes : 0 < es) (hn : 3 ≤ n) (hfits : es * (n + 1) ≤ intMax) :
    ∀ s c, Counted es n s → Allowed s c →
      (Conserved (s.step c) ∧ GrowsWhenFull s c ↔ IsMalloc c)
  | s, .malloc g, hs, ha => by
    have hs' := counted_malloc hes hn hfits hs ha
    have hgrow := growsWhenFull hes (by omega) hfits hs.inv hs.count ha
      (intact_malloc hs.inv hn g)
    exact ⟨fun _ => trivial, fun _ => ⟨(conserved_iff hs'.inv).2 hs'.count, hgrow⟩⟩
  | s, .free p, hs, ha =>
    ⟨fun h => absurd h.1 (not_conserved_free hs.inv hs.count ha), False.elim⟩

theorem counted_start (hes : 0 < es) (hn : 0 ≤ n) (hfits : es * (n + 1) ≤ intMax) {h : Heap}
    (hc : Created es n h) : Counted es n (.start h) := by
  refine ⟨inv_start hes hn hfits hc, ?_⟩
  obtain ⟨poolAt, g, hcreate, b, hb, -⟩ := hc
  have hblocks := (create_block hb hcreate).1
  obtain ⟨header, table, data, -, rfl⟩ := block_eq_some hb
  show (0 : Int) = (h.blocks.map MemBlock.head).sum
  rw [hblocks]
  rfl

end Run

end GameServer.Pool
