/-
  Allocation without frees.

  A pool that only hands elements out fills its blocks one after the other, each from slot 0
  on, and asks for a new block when all are full: its elements are items laid out in chunks,
  `elem_num` of them in the first block and `elem_num / 3` in every other (`Filled`). So the
  `m`-th call returns the element that division gives, and the number of blocks and every
  word of their tables are known after any number of calls (`malloc_exact`).
-/
import GameServer.Lib.Chunks
import GameServer.MemPool.Session

namespace GameServer.Pool

open CInt Region Runs Chunks

/-- `n` calls of `mem_pool_malloc`, with what the system answers during each. -/
def mallocs (grants : List Grant) : List Call := grants.map .malloc

/-- The next call of `mem_pool_malloc`, the `m`-th of a run, returns element `m` of the
    pool's chunks. -/
def ReturnsItem (es n : Int) (m : Nat) (h : Heap) (g : Grant) : Prop :=
  ∃ p h' b, memPoolMalloc h g = .ok (some p, h') ∧
    h'.poolBlocks[chunkOf n (n.tdiv 3) m]? = some b ∧
    p = slot b.data es (placeOf n (n.tdiv 3) m)

/-- The slots below `head` are handed out, and the others linked up to the end mark. -/
structure Packed (b : MemBlock) : Prop where
  head_nonneg : 0 ≤ b.head
  head_le : b.head ≤ b.tail
  tail : b.tail = b.elemNum
  taken : ∀ i, 0 ≤ i → i < b.head → b.table i = allocated
  free : ∀ i, b.head ≤ i → i < b.elemNum → b.table i = i + 1
  ends : b.table b.elemNum = endOfMem

/-- A pool after `m` calls. -/
structure AfterCalls (n : Int) (m : Nat) (s : Session) : Prop where
  noFault : s.fault = none
  count : s.heap.poolBlocks.length = chunkCount n (n.tdiv 3) m
  packed : ∀ b ∈ s.heap.poolBlocks, Packed b

/-! ## Blocks -/

/-- What a table holds besides its free slots. -/
structure Marked (b : MemBlock) : Prop where
  taken : ∀ i, 0 ≤ i → i < b.head → b.table i = allocated
  ends : b.table b.elemNum = endOfMem

theorem Bump.packed {es : Int} {b : MemBlock} (hb : Bump es b) (hm : Marked b) : Packed b where
  head_nonneg := hb.head_nonneg
  head_le := hb.tail ▸ hb.head_le
  tail := hb.tail
  taken := hm.taken
  free := hb.free
  ends := hm.ends

theorem marked_block {g : Grant} {es n : Int} {b : MemBlock} (hb : g.block es n = some b) :
    Marked b := by
  obtain ⟨header, table, data, -, rfl⟩ := block_eq_some hb
  refine ⟨fun i hlo hhi => ?_, Function.update_self ..⟩
  have hhi' : i < 0 := hhi
  omega

/-- A slot taken is marked. -/
theorem marked_take {es : Int} {b : MemBlock} (hes : 0 < es) (hb : Bump es b) (hm : Marked b)
    (hroom : b.head < b.elemNum) : Marked b.take.2 := by
  have hnext := (bump_take hes hb hroom).2.1
  constructor
  · intro i hlo hhi
    show Function.update b.table b.head allocated i = allocated
    by_cases hi : i = b.head
    · rw [hi, Function.update_self]
    · rw [Function.update_of_ne hi]
      exact hm.taken i hlo (by omega)
  · show Function.update b.table b.head allocated b.elemNum = endOfMem
    rw [Function.update_of_ne (by omega)]
    exact hm.ends

/-! ## Filling the blocks -/

/-- `m` elements are handed out of `k + 1` blocks, and all but the last are full. -/
structure Filled (es n : Int) (k m : Nat) (s : Session) : Prop where
  inv : Inv es n s
  length : s.heap.blocks.length = k + 1
  lo : k = 0 ∨ start n (n.tdiv 3) k < m
  hi : (m : Int) ≤ start n (n.tdiv 3) (k + 1)
  sizes : ∀ (pos : Nat) (b : MemBlock), s.heap.blocks[pos]? = some b →
    b.elemNum = size n (n.tdiv 3) pos
  full : ∀ (pos : Nat) (b : MemBlock), s.heap.blocks[pos]? = some b → pos < k →
    b.head = b.elemNum
  last : ∀ b, s.heap.blocks[k]? = some b → b.head = m - start n (n.tdiv 3) k
  marked : ∀ b ∈ s.heap.blocks, Marked b

theorem third_pos {n : Int} (hn : 3 ≤ n) : 0 < n.tdiv 3 := by
  rw [Int.tdiv_eq_ediv_of_nonneg (by omega)]
  omega

section Step

variable {es n : Int} {k m : Nat} {s : Session} {g : Grant} {p : Int} {h' : Heap}

/-- A slot is taken from the last block, the only one that can have room. -/
theorem Filled.reuse (hes : 0 < es) (hf : Filled es n k m s) {pos : Nat} {b : MemBlock}
    (hb : s.heap.blocks[pos]? = some b) (hroom : b.hasRoom = true)
    (hinv : Inv es n { s with
      heap := { s.heap with blocks := s.heap.blocks.set pos b.take.2 }
      live := b.take.1 :: s.live }) :
    pos = k ∧ b.head = m - start n (n.tdiv 3) k ∧ m < start n (n.tdiv 3) (k + 1) ∧
      Filled es n k (m + 1) { s with
        heap := { s.heap with blocks := s.heap.blocks.set pos b.take.2 }
        live := b.take.1 :: s.live } := by
  have hbump := hf.inv.bump_at hb
  have hlt := hbump.hasRoom_iff.1 hroom
  have hbound := (List.getElem?_eq_some_iff.1 hb).1
  have hlen := hf.length
  obtain rfl : pos = k := by
    by_contra hne
    have hfull := hf.full pos b hb (by omega)
    omega
  have hlast := hf.last b hb
  have hsize := hf.sizes pos b hb
  have hstart : start n (n.tdiv 3) (pos + 1) = start n (n.tdiv 3) pos + size n (n.tdiv 3) pos := rfl
  have h0 := hbump.head_nonneg
  have hnext := (bump_take hes hbump hlt).2.1
  refine ⟨rfl, hlast, by omega, ?_⟩
  exact
    { inv := hinv
      length := by simpa using hlen
      lo := Or.inr (by push_cast; omega)
      hi := by push_cast; omega
      sizes := by
        intro i c hc
        rcases ListUpdate.set_cases hc with ⟨rfl, rfl⟩ | ⟨-, hold⟩
        · exact hsize
        · exact hf.sizes i c hold
      full := by
        intro i c hc hik
        rcases ListUpdate.set_cases hc with ⟨rfl, -⟩ | ⟨-, hold⟩
        · omega
        · exact hf.full i c hold hik
      last := by
        intro c hc
        rcases ListUpdate.set_cases hc with ⟨-, rfl⟩ | ⟨hne, -⟩
        · rw [hnext, hlast]
          push_cast
          omega
        · exact absurd rfl hne
      marked := ListUpdate.forall_set hf.marked _
        (marked_take hes hbump (hf.marked b (List.mem_of_getElem? hb)) hlt) }

/-- A pool with no room is full up to its last slot. -/
theorem Filled.no_room (hf : Filled es n k m s) (hs : s.heap.search MemBlock.hasRoom = none) :
    (m : Int) = start n (n.tdiv 3) (k + 1) ∧
      ∀ (pos : Nat) (b : MemBlock), s.heap.blocks[pos]? = some b → b.head = b.elemNum := by
  have hall : ∀ (pos : Nat) (b : MemBlock), s.heap.blocks[pos]? = some b →
      b.head = b.elemNum := by
    intro pos b hb
    have hbump := hf.inv.bump_at hb
    have hno := hf.inv.linked.listed.search_none.1 hs b (List.mem_of_getElem? hb)
    rw [← Bool.not_eq_true, hbump.hasRoom_iff] at hno
    have hle := hbump.head_le
    omega
  have hb := List.getElem?_eq_getElem (show k < s.heap.blocks.length by rw [hf.length]; omega)
  have hhead := hall k _ hb
  have hlast := hf.last _ hb
  have hsize := hf.sizes k _ hb
  have hstart : start n (n.tdiv 3) (k + 1) = start n (n.tdiv 3) k + size n (n.tdiv 3) k := rfl
  exact ⟨by omega, hall⟩

/-- A new block is begun when all are full. -/
theorem Filled.grow (hes : 0 < es) (hf : Filled es n k m s)
    (hs : s.heap.search MemBlock.hasRoom = none) {b : MemBlock} (hbump : Bump es b)
    (hhead : b.head = 0) (hroom : b.head < b.elemNum) (hnum : b.elemNum = n.tdiv 3)
    (hmarked : Marked b)
    (hblocks : h'.blocks =
      s.heap.blocks.modify (s.heap.blocks.length - 1) (.setNext s.heap.blocks.length) ++
        [b.take.2])
    {live : List Int} (hinv : Inv es n { s with heap := h', live := live }) :
    (m : Int) = start n (n.tdiv 3) (k + 1) ∧
      Filled es n (k + 1) (m + 1) { s with heap := h', live := live } := by
  obtain ⟨hm, hall⟩ := hf.no_room hs
  have hnext := (bump_take hes hbump hroom).2.1
  have hlen := hf.length
  have hmore : size n (n.tdiv 3) (k + 1) = n.tdiv 3 := if_neg (Nat.succ_ne_zero k)
  have hstart : start n (n.tdiv 3) (k + 1 + 1) =
      start n (n.tdiv 3) (k + 1) + size n (n.tdiv 3) (k + 1) := rfl
  have hcases := fun (i : Nat) (c : MemBlock) (hc : h'.blocks[i]? = some c) =>
    extended_cases (hblocks ▸ hc)
  refine ⟨hm, ?_⟩
  exact
    { inv := hinv
      length := by simp [hblocks, hlen]
      lo := Or.inr (by push_cast; omega)
      hi := by push_cast; omega
      sizes := by
        intro i c hc
        rcases hcases i c hc with ⟨a, next, ha, rfl⟩ | ⟨rfl, rfl⟩
        · exact hf.sizes i a ha
        · show b.elemNum = _
          rw [hlen, hmore, hnum]
      full := by
        intro i c hc hik
        rcases hcases i c hc with ⟨a, next, ha, rfl⟩ | ⟨rfl, rfl⟩
        · exact hall i a ha
        · omega
      last := by
        intro c hc
        rcases hcases (k + 1) c hc with ⟨a, next, ha, rfl⟩ | ⟨-, rfl⟩
        · have hpos := (List.getElem?_eq_some_iff.1 ha).1
          omega
        · rw [hnext]
          push_cast
          omega
      marked := by
        rw [hblocks]
        exact forall_extended hf.marked (fun a next ha => ⟨ha.taken, ha.ends⟩)
          (marked_take hes hbump hmarked hroom) }

/-- The step lemma: the next element of the chunks is handed out. -/
theorem Filled.gives (hes : 0 < es) (hn : 3 ≤ n) (hfits : es * (n + 1) ≤ intMax)
    (hf : Filled es n k m s) (hg : Gives s.heap g p h') :
    ∃ k', Filled es n k' (m + 1) { s with heap := h', live := p :: s.live } ∧
      start n (n.tdiv 3) k' ≤ m ∧ m < start n (n.tdiv 3) (k' + 1) ∧
      ∃ b, h'.blocks[k']? = some b ∧ p = slot b.data es (m - start n (n.tdiv 3) k') := by
  have hin : Intact s (.malloc g) := fun _ => by rw [hf.inv.elemNum]; exact third_pos hn
  have hinv := inv_gives hes (by omega) hfits hf.inv hg hin
  cases hg with
  | @reuse pos b hb hroom =>
    obtain ⟨rfl, hhead, hend, hnext⟩ := hf.reuse hes hb hroom hinv
    have hbump := hf.inv.bump_at hb
    have h0 := hbump.head_nonneg
    have haddr := (bump_take hes hbump (hbump.hasRoom_iff.1 hroom)).1
    have hbound := (List.getElem?_eq_some_iff.1 hb).1
    refine ⟨pos, hnext, by omega, hend, b.take.2, by simp [hbound], ?_⟩
    rw [haddr, hhead]
    rfl
  | @grow b h' hs hb hplaced hblocks hpool hobt =>
    obtain ⟨hbump, hhead, hroom, hnum, -⟩ :=
      hf.inv.new_block hes (by omega) hfits hs hb hplaced hin
    obtain ⟨hm, hnext⟩ := hf.grow hes hs hbump hhead hroom hnum (marked_block hb) hblocks hinv
    have hhi := hnext.hi
    have haddr := (bump_take hes hbump hroom).1
    refine ⟨k + 1, hnext, by omega, by push_cast at hhi; omega, b.take.2, ?_, ?_⟩
    · rw [hblocks, ← hf.length]
      simp
    · rw [haddr, hhead, ← hm, Int.sub_self]
      rfl

end Step

/-! ## Runs -/

theorem filled_start {es n : Int} (hes : 0 < es) (hn : 0 ≤ n) (hfits : es * (n + 1) ≤ intMax)
    {h : Heap} (hc : Created es n h) : Filled es n 0 0 (.start h) := by
  have hinv := inv_start hes hn hfits hc
  obtain ⟨poolAt, g, hcreate, b, hb, hplaced⟩ := hc
  have hblocks := (create_block hb hcreate).1
  obtain ⟨-, hhead, hnum, -⟩ := bump_block hes hn hfits hb hplaced
  have hsingle : ∀ (pos : Nat) (c : MemBlock), h.blocks[pos]? = some c → pos = 0 ∧ c = b := by
    intro pos c hc
    rw [hblocks] at hc
    exact ListUpdate.singleton_cases hc
  exact
    { inv := hinv
      length := by simp [Session.start, hblocks]
      lo := Or.inl rfl
      hi := by show (0 : Int) ≤ 0 + n; omega
      sizes := by
        intro pos c hc
        obtain ⟨rfl, rfl⟩ := hsingle pos c hc
        exact hnum
      full := fun pos c hc hlt => absurd hlt (Nat.not_lt_zero pos)
      last := by
        intro c hc
        obtain ⟨-, rfl⟩ := hsingle 0 c hc
        exact hhead
      marked := by
        intro c hc
        obtain ⟨pos, hpos⟩ := List.mem_iff_getElem?.1 hc
        obtain ⟨-, rfl⟩ := hsingle pos c hpos
        exact marked_block hb }

section Runs

variable {es n : Int} {k m : Nat} {s : Session}

theorem Filled.step (hes : 0 < es) (hn : 3 ≤ n) (hfits : es * (n + 1) ≤ intMax)
    (hf : Filled es n k m s) {g : Grant} (ha : Allowed s (.malloc g)) :
    ReturnsItem es n m s.heap g ∧ ∃ k', Filled es n k' (m + 1) (s.step (.malloc g)) := by
  obtain ⟨p, h', hm, hg⟩ := malloc_gives hf.inv.linked ha
  obtain ⟨k', hnext, hlo, hhi, b, hb, hp⟩ := hf.gives hes hn hfits hg
  have hq := third_pos hn
  constructor
  · refine ⟨p, h', b, hm, ?_, ?_⟩
    · have hblocks : h'.poolBlocks = h'.blocks := hnext.inv.linked.poolBlocks
      rw [hblocks, chunkOf_eq hq hlo hhi]
      exact hb
    · rw [placeOf_eq hq hlo hhi]
      exact hp
  · refine ⟨k', ?_⟩
    rw [step_malloc hf.inv.noFault hm]
    exact hnext

/-- The run lemma. -/
theorem Filled.run (hes : 0 < es) (hn : 3 ≤ n) (hfits : es * (n + 1) ≤ intMax)
    {grants : List Grant} : ∀ {k m : Nat} {s : Session}, Filled es n k m s →
      Along Session.step Allowed s (mallocs grants) →
      (∃ k', Filled es n k' (m + grants.length) (exec Session.step s (mallocs grants))) ∧
        ∀ (i : Nat) (g : Grant), grants[i]? = some g →
          ReturnsItem es n (m + i) (exec Session.step s (mallocs (grants.take i))).heap g := by
  induction grants with
  | nil => exact fun hf _ => ⟨⟨_, hf⟩, by simp⟩
  | cons g grants ih =>
    intro k m s hf ha
    obtain ⟨hitem, k', hnext⟩ := hf.step hes hn hfits ha.1
    obtain ⟨⟨k'', hend⟩, hitems⟩ := ih hnext ha.2
    refine ⟨⟨k'', ?_⟩, fun i g' hg' => ?_⟩
    · rw [List.length_cons, Nat.add_comm grants.length 1, ← Nat.add_assoc]
      exact hend
    · cases i with
      | zero =>
        obtain rfl : g = g' := by simpa using hg'
        exact hitem
      | succ i =>
        have hlater := hitems i g' (by simpa using hg')
        rw [Nat.add_assoc, Nat.add_comm 1 i] at hlater
        exact hlater

theorem Filled.afterCalls (hn : 3 ≤ n) (hf : Filled es n k m s) : AfterCalls n m s := by
  have hblocks := hf.inv.linked.poolBlocks
  refine ⟨hf.inv.noFault, ?_, ?_⟩
  · rw [hblocks, hf.length, chunkCount_eq (third_pos hn) hf.lo hf.hi]
  · rw [hblocks]
    exact fun b hb => (hf.inv.bump b hb).packed (hf.marked b hb)

/-- Of consecutive calls on a fresh pool, while memory is available, the `m`-th returns item
    `m` of the pool's chunks, and after all of them the pool has the blocks that so many items
    need, with their tables packed. -/
theorem malloc_exact (hes : 0 < es) (hn : 3 ≤ n) (hfits : es * (n + 1) ≤ intMax) {h : Heap}
    (hc : Created es n h) {grants : List Grant}
    (ha : Along Session.step Allowed (.start h) (mallocs grants)) :
    (∀ (m : Nat) (g : Grant), grants[m]? = some g →
        ReturnsItem es n m (exec Session.step (.start h) (mallocs (grants.take m))).heap g) ∧
      AfterCalls n grants.length (exec Session.step (.start h) (mallocs grants)) := by
  obtain ⟨⟨k, hend⟩, hitems⟩ := (filled_start hes (by omega) hfits hc).run hes hn hfits ha
  rw [Nat.zero_add] at hend
  refine ⟨fun m g hg => ?_, hend.afterCalls hn⟩
  have hitem := hitems m g hg
  rwa [Nat.zero_add] at hitem

end Runs

end GameServer.Pool
