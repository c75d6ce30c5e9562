/-
  The block list of a pool as its functions see it.

  `Linked` says that the `next` fields chain the headers in the order of allocation, from
  the pool's `head` to its `tail`. On a linked heap a `FOREACH_BLOCK_LIST` loop visits every
  block once (`Linked.listed`), so a search is a search in `Heap.blocks`
  (`Heap.Listed.search_some`). From there one lemma per function and branch says what it
  returns and what it leaves (`malloc_reuse`, `malloc_grow`, `malloc_fails`, together
  `malloc_returns`; `free_miss`, `free_hit`), and the list stays linked.
-/
import GameServer.MemPool.Basic
import GameServer.Lib.ListUpdate

namespace GameServer.Pool

open CInt

/-- The `next` fields of `blocks` lead from each block to the one after it. -/
def Chained (blocks : List MemBlock) : Prop :=
  ∀ pos b, blocks[pos]? = some b → b.next = if pos + 1 < blocks.length then some (pos + 1) else none

/-- The pool's list is the list of all headers, in order, with at least one block. -/
structure Linked (h : Heap) : Prop where
  nonempty : 0 < h.blocks.length
  head : h.pool.head = some 0
  tail : h.pool.tail = some (h.blocks.length - 1)
  chained : Chained h.blocks

theorem foreachBlockList_chained {blocks : List MemBlock} (hc : Chained blocks) :
    ∀ fuel pos, pos < blocks.length → blocks.length - pos ≤ fuel →
      foreachBlockList blocks fuel (some pos) = List.range' pos (blocks.length - pos)
  | 0, pos, hp, hf => by omega
  | fuel + 1, pos, hp, hf => by
    have hb : blocks[pos]? = some blocks[pos] := List.getElem?_eq_getElem hp
    have hlen : blocks.length - pos = (blocks.length - (pos + 1)) + 1 := by omega
    rw [foreachBlockList, hb, Option.bind_some, hc pos _ hb, hlen, List.range'_succ]
    by_cases hlast : pos + 1 < blocks.length
    · rw [if_pos hlast, foreachBlockList_chained hc fuel (pos + 1) hlast (by omega)]
    · have hzero : blocks.length - (pos + 1) = 0 := by omega
      rw [if_neg hlast, hzero]
      cases fuel <;> rfl

theorem Linked.blockList {h : Heap} (hl : Linked h) :
    h.blockList = List.range h.blocks.length := by
  unfold Heap.blockList
  rw [hl.head, foreachBlockList_chained hl.chained _ 0 hl.nonempty (by omega), Nat.sub_zero,
    List.range_eq_range']

/-- The pool's list has all blocks, in the order of allocation. Other than a linked heap, it
    may have none. -/
def Heap.Listed (h : Heap) : Prop := h.blockList = List.range h.blocks.length

theorem Linked.listed {h : Heap} (hl : Linked h) : h.Listed := hl.blockList

theorem listed_of_no_blocks {h : Heap} (hb : h.blocks = []) : h.Listed := by
  unfold Heap.Listed Heap.blockList
  rw [hb]
  rfl

theorem Linked.poolBlocks {h : Heap} (hl : Linked h) : h.poolBlocks = h.blocks := by
  unfold Heap.poolBlocks
  rw [hl.blockList]
  exact ListUpdate.filterMap_range h.blocks

/-! ## Searches -/

/-- The break of a search loop: the first block that passes the test. -/
theorem Heap.Listed.search_some {h : Heap} (hl : h.Listed) {test : MemBlock → Bool} {pos : Nat} :
    h.search test = some pos ↔ ∃ b, h.blocks[pos]? = some b ∧ test b = true ∧
      ∀ j c, j < pos → h.blocks[j]? = some c → test c = false := by
  unfold Heap.search
  rw [hl, List.find?_range_eq_some]
  constructor
  · rintro ⟨htest, hmem, hmin⟩
    have hb := List.getElem?_eq_getElem (List.mem_range.1 hmem)
    rw [hb, Option.any_some] at htest
    refine ⟨_, hb, htest, fun j c hj hc => ?_⟩
    simpa [hc] using hmin j hj
  · rintro ⟨b, hb, hbt, hmin⟩
    have hpos := (List.getElem?_eq_some_iff.1 hb).1
    refine ⟨by simp [hb, hbt], List.mem_range.2 hpos, fun j hj => ?_⟩
    have hj' : j < h.blocks.length := by omega
    simp [List.getElem?_eq_getElem hj', hmin j _ hj (List.getElem?_eq_getElem hj')]

theorem Heap.Listed.search_none {h : Heap} (hl : h.Listed) {test : MemBlock → Bool} :
    h.search test = none ↔ ∀ b ∈ h.blocks, test b = false := by
  unfold Heap.search
  rw [hl, List.find?_range_eq_none]
  constructor
  · intro hall b hb
    obtain ⟨pos, hpos, rfl⟩ := List.getElem_of_mem hb
    simpa [List.getElem?_eq_getElem hpos] using hall pos hpos
  · intro hall pos hpos
    simp [List.getElem?_eq_getElem hpos, hall _ (List.getElem_mem hpos)]

theorem search_of_no_blocks {h : Heap} (hb : h.blocks = []) (test : MemBlock → Bool) :
    h.search test = none := by
  rw [(listed_of_no_blocks hb).search_none, hb]
  exact fun b hmem => absurd hmem List.not_mem_nil

/-! ## What one call does -/

/-- The block that `__mem_pool_alloc_block` builds when its three `malloc` calls succeed. -/
def freshBlock (residue : Int → Int) (header table data elemSize elemNum : Int) : MemBlock :=
  { elemNum := elemNum, elemSize := elemSize, head := 0, tail := elemNum,
    table := initTable residue elemNum, next := none,
    headerAt := ⟨header, sizeofMemBlock⟩,
    tableAt := ⟨table, sizeT (i32 (elemNum + 1))⟩,
    dataAt := ⟨data, sizeT (i32 (elemSize * i32 (elemNum + 1)))⟩ }

/-- The block built from `g`, if none of the `malloc` calls fails. -/
def Grant.block (g : Grant) (elemSize elemNum : Int) : Option MemBlock :=
  match g.header, g.table, g.data with
  | some header, some table, some data =>
    some (freshBlock g.residue header table data elemSize elemNum)
  | _, _, _ => none

/-- The three regions of a block. -/
def MemBlock.regions (b : MemBlock) : List Region := [b.dataAt, b.tableAt, b.headerAt]

/-- The memory after that: the three regions obtained, the data area cleared. -/
def Heap.afterBuild (h : Heap) (b : MemBlock) : Heap :=
  { h with
    obtained := b.regions ++ h.obtained, bytes := memset h.bytes b.data 0 b.dataAt.size }

theorem block_eq_some {g : Grant} {es n : Int} {b : MemBlock} (hb : g.block es n = some b) :
    ∃ header table data, g = ⟨some header, some table, some data, g.residue⟩ ∧
      b = freshBlock g.residue header table data es n := by
  obtain ⟨header, table, data, residue⟩ := g
  unfold Grant.block at hb
  split at hb
  · rename_i header table data h1 h2 h3
    simp only at h1 h2 h3
    subst h1 h2 h3
    exact ⟨header, table, data, rfl, (Option.some.inj hb).symm⟩
  · cases hb

theorem allocBlock_block {g : Grant} {es n : Int} {b : MemBlock} (hb : g.block es n = some b)
    (h : Heap) : memPoolAllocBlock h g es n = (some b, h.afterBuild b) := by
  obtain ⟨header, table, data, hg, rfl⟩ := block_eq_some hb
  rw [hg]
  rfl

/-- All three `malloc` calls of a block succeed. -/
def Grant.Full (g : Grant) : Prop := g.header ≠ none ∧ g.table ≠ none ∧ g.data ≠ none

instance (g : Grant) : Decidable g.Full := inferInstanceAs (Decidable (_ ∧ _))

theorem Grant.full_iff (g : Grant) (es n : Int) : g.Full ↔ ∃ b, g.block es n = some b := by
  obtain ⟨header, table, data, residue⟩ := g
  unfold Grant.Full Grant.block
  cases header <;> cases table <;> cases data <;> simp

theorem Grant.not_full_iff (g : Grant) (es n : Int) : ¬ g.Full ↔ g.block es n = none := by
  rw [g.full_iff es n, Option.eq_none_iff_forall_ne_some, not_exists]

/-- What a call that fails has obtained before. -/
def Grant.leaked (g : Grant) (elemNum : Int) : List Region :=
  match g.header, g.table with
  | none, _ => []
  | some header, none => [⟨header, sizeofMemBlock⟩]
  | some header, some table =>
    [⟨table, sizeT (i32 (elemNum + 1))⟩, ⟨header, sizeofMemBlock⟩]

theorem allocBlock_fails {g : Grant} {es n : Int} (hb : g.block es n = none) (h : Heap) :
    memPoolAllocBlock h g es n = (none, { h with obtained := g.leaked n ++ h.obtained }) := by
  obtain ⟨header, table, data, residue⟩ := g
  unfold Grant.block at hb
  cases header with
  | none => rfl
  | some header =>
    cases table with
    | none => rfl
    | some table =>
      cases data with
      | none => rfl
      | some data => cases hb

theorem block_next {g : Grant} {es n : Int} {b : MemBlock} (hb : g.block es n = some b) :
    b.next = none := by
  obtain ⟨header, table, data, -, rfl⟩ := block_eq_some hb
  rfl

/-- The pool that `mem_pool_create` returns when its block is built. -/
theorem create_block {poolAt es n : Int} {g : Grant} {b : MemBlock} (hb : g.block es n = some b)
    {h : Heap} (hc : memPoolCreate (some poolAt) g es n = some h) :
    h.blocks = [b] ∧ h.pool = ⟨es, n, n, some 0, some 0⟩ ∧
      h.obtained = b.regions ++ [⟨poolAt, sizeofMemPool⟩] ∧ h.released = [] ∧
      h.poolAt = ⟨poolAt, sizeofMemPool⟩ := by
  unfold memPoolCreate at hc
  simp only [allocBlock_block hb] at hc
  obtain rfl := Option.some.inj hc
  exact ⟨rfl, rfl, rfl, rfl, rfl⟩

/-- `mem_pool_malloc` while some block has a free slot: the first such block gives one. -/
theorem malloc_reuse {h : Heap} (g : Grant) {pos : Nat} {b : MemBlock}
    (hs : h.search MemBlock.hasRoom = some pos) (hb : h.blocks[pos]? = some b) :
    memPoolMalloc h g = .ok (some b.take.1, { h with blocks := h.blocks.set pos b.take.2 }) := by
  unfold memPoolMalloc
  rw [hs]
  simp only [Heap.takeFrom, hb]

theorem link_takeFrom (h : Heap) (tail : Nat) (b : MemBlock) :
    (h.link tail b).takeFrom h.blocks.length =
      .ok (some b.take.1, { h.link tail b with
        blocks := h.blocks.modify tail (.setNext h.blocks.length) ++ [b.take.2] }) := by
  simp [Heap.takeFrom, Heap.link]

/-- `mem_pool_malloc` while no block has one: a block is built, linked in behind the last,
    and gives its first slot. -/
theorem malloc_grow {h : Heap} (hl : Linked h) {g : Grant} {b : MemBlock}
    (hs : h.search MemBlock.hasRoom = none)
    (hb : g.block h.pool.elemSize (h.pool.elemNum.tdiv 3) = some b) :
    ∃ h' : Heap, memPoolMalloc h g = .ok (some b.take.1, h') ∧
      h'.blocks = h.blocks.modify (h.blocks.length - 1) (.setNext h.blocks.length) ++
        [b.take.2] ∧
      h'.pool = { h.pool with
        tail := some h.blocks.length, elemTotal := i32 (h.pool.elemTotal + h.pool.elemNum) } ∧
      h'.obtained = b.regions ++ h.obtained ∧ h'.released = h.released ∧
      h'.poolAt = h.poolAt := by
  unfold memPoolMalloc
  rw [hs, allocBlock_block hb]
  have ht : (h.afterBuild b).pool.tail = some (h.blocks.length - 1) := hl.tail
  simp only [ht]
  exact ⟨_, link_takeFrom (h.afterBuild b) _ b, rfl, rfl, rfl, rfl, rfl⟩

/-- The blocks of a pool that was extended: the old ones, linked, and the new one. -/
theorem extended_cases {blocks : List MemBlock} {b c : MemBlock} {pos : Nat}
    (hc : (blocks.modify (blocks.length - 1) (.setNext blocks.length) ++ [b])[pos]? = some c) :
    (∃ a next, blocks[pos]? = some a ∧ c = { a with next := next }) ∨
      pos = blocks.length ∧ c = b := by
  rw [List.getElem?_append, List.length_modify] at hc
  by_cases hpos : pos < blocks.length
  · rw [if_pos hpos, List.getElem?_modify, List.getElem?_eq_getElem hpos] at hc
    have ha := List.getElem?_eq_getElem hpos
    refine Or.inl ⟨_, c.next, ha, ?_⟩
    split at hc <;> (obtain rfl := Option.some.inj hc; rfl)
  · rw [if_neg hpos, List.getElem?_singleton] at hc
    split at hc
    · exact Or.inr ⟨by omega, (Option.some.inj hc).symm⟩
    · cases hc

/-- Linking a block in leaves every field but `next`. -/
theorem map_extended {α : Type*} {f : MemBlock → α} (hf : ∀ pos b, f (.setNext pos b) = f b)
    (blocks : List MemBlock) (b : MemBlock) :
    (blocks.modify (blocks.length - 1) (.setNext blocks.length) ++ [b]).map f =
      blocks.map f ++ [f b] := by
  rw [List.map_append, ListUpdate.map_modify_eq _ _ (hf _), List.map_singleton]

/-- What holds of all blocks, whatever their `next`, holds after the extension, if it holds of
    the new one. -/
theorem forall_extended {P : MemBlock → Prop} {blocks : List MemBlock}
    (hall : ∀ a ∈ blocks, P a) (hnext : ∀ a next, P a → P { a with next := next })
    {b : MemBlock} (hb : P b) :
    ∀ c ∈ blocks.modify (blocks.length - 1) (.setNext blocks.length) ++ [b], P c := by
  intro c hc
  obtain ⟨pos, hpos⟩ := List.mem_iff_getElem?.1 hc
  rcases extended_cases hpos with ⟨a, next, ha, rfl⟩ | ⟨-, rfl⟩
  · exact hnext a next (hall a (List.mem_of_getElem? ha))
  · exact hb

/-- `mem_pool_malloc` while no block has one and none can be built. -/
theorem malloc_fails {h : Heap} {g : Grant} (hs : h.search MemBlock.hasRoom = none)
    (hb : g.block h.pool.elemSize (h.pool.elemNum.tdiv 3) = none) :
    memPoolMalloc h g =
      .ok (none, { h with obtained := g.leaked (h.pool.elemNum.tdiv 3) ++ h.obtained }) := by
  unfold memPoolMalloc
  rw [hs, allocBlock_fails hb]

/-- The ways in which `mem_pool_malloc` returns `r` and leaves `h'`. -/
inductive Returns (h : Heap) (g : Grant) : Option Int → Heap → Prop
  | reuse {pos : Nat} {b : MemBlock} (hs : h.search MemBlock.hasRoom = some pos)
      (hb : h.blocks[pos]? = some b) :
      Returns h g (some b.take.1) { h with blocks := h.blocks.set pos b.take.2 }
  | grow {b : MemBlock} {h' : Heap} (hs : h.search MemBlock.hasRoom = none)
      (hb : g.block h.pool.elemSize (h.pool.elemNum.tdiv 3) = some b)
      (hblocks : h'.blocks =
        h.blocks.modify (h.blocks.length - 1) (.setNext h.blocks.length) ++ [b.take.2])
      (hpool : h'.pool = { h.pool with
        tail := some h.blocks.length, elemTotal := i32 (h.pool.elemTotal + h.pool.elemNum) })
      (hobt : h'.obtained = b.regions ++ h.obtained) (hrel : h'.released = h.released)
      (hat : h'.poolAt = h.poolAt) :
      Returns h g (some b.take.1) h'
  | fails (hs : h.search MemBlock.hasRoom = none)
      (hb : g.block h.pool.elemSize (h.pool.elemNum.tdiv 3) = none) :
      Returns h g none { h with obtained := g.leaked (h.pool.elemNum.tdiv 3) ++ h.obtained }

/-- On a linked heap `mem_pool_malloc` dereferences no NULL pointer. -/
theorem malloc_returns {h : Heap} (hl : Linked h) (g : Grant) :
    ∃ r h', memPoolMalloc h g = .ok (r, h') ∧ Returns h g r h' := by
  cases hs : h.search MemBlock.hasRoom with
  | some pos =>
    obtain ⟨b, hb, -⟩ := hl.listed.search_some.1 hs
    exact ⟨_, _, malloc_reuse g hs hb, .reuse hs hb⟩
  | none =>
    cases hb : g.block h.pool.elemSize (h.pool.elemNum.tdiv 3) with
    | none => exact ⟨_, _, malloc_fails hs hb, .fails hs hb⟩
    | some b =>
      obtain ⟨h', hm, hblocks, hpool, hobt, hrel, hat⟩ := malloc_grow hl hs hb
      exact ⟨_, h', hm, .grow hs hb hblocks hpool hobt hrel hat⟩

/-- The block at which the search loop of `mem_pool_free` breaks. -/
def Heap.owner (h : Heap) (p : Int) : Option MemBlock :=
  (h.search (·.accepts p)).bind (h.blocks[·]?)

theorem owner_eq_some {h : Heap} {p : Int} {pos : Nat} {b : MemBlock}
    (hs : h.search (·.accepts p) = some pos) (hb : h.blocks[pos]? = some b) :
    h.owner p = some b := by
  unfold Heap.owner
  rw [hs, Option.bind_some, hb]

theorem free_miss {h : Heap} {p : Int} (hs : h.search (·.accepts p) = none) :
    memPoolFree h p = h := by
  unfold memPoolFree
  rw [hs]

theorem free_hit {h : Heap} {p : Int} {pos : Nat} (hs : h.search (·.accepts p) = some pos) :
    memPoolFree h p = { h with
      bytes := memset h.bytes p 0 sizeofInt,
      blocks := h.blocks.modify pos fun b => b.putBack (b.freeOffset p) } := by
  unfold memPoolFree
  rw [hs]

/-! ## Every call keeps the list linked -/

theorem chained_of_map_next {blocks blocks' : List MemBlock} (hc : Chained blocks)
    (hn : blocks'.map MemBlock.next = blocks.map MemBlock.next) : Chained blocks' := by
  have hlen : blocks'.length = blocks.length := by simpa using congrArg List.length hn
  intro pos b hb
  have hpos : pos < blocks.length := hlen ▸ (List.getElem?_eq_some_iff.1 hb).1
  have hnext : b.next = blocks[pos].next := by
    have := congrArg (·[pos]?) hn
    simpa [List.getElem?_map, hb, List.getElem?_eq_getElem hpos] using this
  rw [hnext, hlen]
  exact hc pos _ (List.getElem?_eq_getElem hpos)

/-- Linking a new last block in. -/
theorem Chained.grow {blocks : List MemBlock} (hc : Chained blocks) {b : MemBlock}
    (hb : b.next = none) :
    Chained (blocks.modify (blocks.length - 1) (.setNext blocks.length) ++ [b]) := by
  intro pos c hcpos
  rw [List.length_append, List.length_modify, List.length_singleton]
  rw [List.getElem?_append, List.length_modify] at hcpos
  by_cases hpos : pos < blocks.length
  · rw [if_pos hpos, List.getElem?_modify, List.getElem?_eq_getElem hpos] at hcpos
    rw [if_pos (by omega)]
    by_cases hlast : blocks.length - 1 = pos
    · have hlen : blocks.length = pos + 1 := by omega
      simp only [hlast, if_true, Option.map_eq_map, Option.map_some, Option.some.injEq] at hcpos
      rw [← hcpos, hlen]
      rfl
    · simp only [hlast, if_false, Option.map_eq_map, Option.map_some,
        Option.some.injEq] at hcpos
      rw [← hcpos, hc pos _ (List.getElem?_eq_getElem hpos), if_pos (by omega)]
  · rw [if_neg hpos] at hcpos
    have hlt := (List.getElem?_eq_some_iff.1 hcpos).1
    rw [List.length_singleton] at hlt
    have hzero : pos - blocks.length = 0 := by omega
    rw [hzero] at hcpos
    obtain rfl : b = c := by simpa using hcpos
    rw [hb, if_neg (by omega)]

theorem Linked.set {h : Heap} (hl : Linked h) {pos : Nat} {b b' : MemBlock}
    (hb : h.blocks[pos]? = some b) (hn : b'.next = b.next) :
    Linked { h with blocks := h.blocks.set pos b' } where
  nonempty := by simpa using hl.nonempty
  head := hl.head
  tail := by simpa using hl.tail
  chained := chained_of_map_next hl.chained (ListUpdate.map_set_eq hb hn)

theorem Linked.grow {h h' : Heap} (hl : Linked h) {b : MemBlock} (hn : b.next = none)
    (hblocks : h'.blocks =
      h.blocks.modify (h.blocks.length - 1) (.setNext h.blocks.length) ++ [b])
    (hhead : h'.pool.head = h.pool.head) (htail : h'.pool.tail = some h.blocks.length) :
    Linked h' where
  nonempty := by simp [hblocks]
  head := hhead.trans hl.head
  tail := by simp [htail, hblocks]
  chained := by
    rw [hblocks]
    exact hl.chained.grow hn

/-- Whatever `mem_pool_malloc` returns, the list stays linked. -/
theorem Linked.returns {h h' : Heap} (hl : Linked h) {g : Grant} {r : Option Int}
    (hr : Returns h g r h') : Linked h' := by
  cases hr with
  | reuse hs hb => exact hl.set hb rfl
  | @grow b h' hs hb hblocks hpool hobt hrel hat =>
    have hnext : b.next = none := block_next hb
    exact hl.grow (b := b.take.2) hnext hblocks (by rw [hpool]) (by rw [hpool])
  | fails hs hb => exact { hl with }

/-- A pool of one block. -/
theorem Linked.single {h : Heap} {b : MemBlock} (hblocks : h.blocks = [b]) (hn : b.next = none)
    (hhead : h.pool.head = some 0) (htail : h.pool.tail = some 0) : Linked h where
  nonempty := by simp [hblocks]
  head := hhead
  tail := by simp [htail, hblocks]
  chained := by
    intro pos c hc
    rw [hblocks] at hc
    obtain ⟨rfl, rfl⟩ := ListUpdate.singleton_cases hc
    simp [hblocks, hn]

theorem Linked.free {h : Heap} (hl : Linked h) (p : Int) : Linked (memPoolFree h p) := by
  cases hs : h.search (·.accepts p) with
  | none => rwa [free_miss hs]
  | some pos =>
    rw [free_hit hs]
    exact { nonempty := by simpa using hl.nonempty
            head := hl.head
            tail := by simpa using hl.tail
            chained := chained_of_map_next hl.chained (ListUpdate.map_modify_eq _ _ fun _ => rfl) }

end GameServer.Pool
