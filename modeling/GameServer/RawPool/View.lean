/-
  The pool that a memory holds.

  `view w pool` reads `mem_pool_t` at `pool`, follows the list from `pool->head`, and reads
  the fields of every block and the `elem_num + 1` words of its table. `inUse` are the bytes
  these take, and the data areas: a table takes its words here, not the bytes that were
  requested for it.

  `Models w pool h` says that memory holds the pool `h`, with nothing in use twice, so that
  `view` reads it (`Models.view_eq`). Data areas are in use, but their contents play no part:
  a change that leaves the bytes under `control` leaves the pool (`Models.congr`).
-/
import GameServer.MemPool.Blocks
import GameServer.RawPool.Basic

namespace GameServer.RawPool

open CInt Memory
open Pool (MemBlock Heap sizeofMemBlock sizeofMemPool sizeofInt Linked)

/-- The entries of a table of `elem_num = n` that `__mem_pool_alloc_block` initialises. -/
def InTable (n i : Int) : Prop := min 0 n ≤ i ∧ i ≤ n

instance (n i : Int) : Decidable (InTable n i) := inferInstanceAs (Decidable (_ ∧ _))

/-! ## Reading a pool -/

/-- The headers met from `pos` along `next`, at most `fuel` of them. -/
def headersFrom (m : Mem) : Nat → Int → List Int
  | 0, _ => []
  | fuel + 1, pos => if pos = 0 then [] else pos :: headersFrom m fuel (next m pos)

/-- The position of a header in the list, which is past its end if it is not there. -/
def position (headers : List Int) (p : Int) : Option Nat :=
  if p = 0 then none else some (headers.idxOf p)

/-- The block whose header is at `block`. -/
def blockAt (m : Mem) (headers : List Int) (block : Int) : MemBlock where
  elemNum := elemNum m block
  elemSize := elemSize m block
  head := head m block
  tail := tail m block
  table i := if InTable (elemNum m block) i then entry m block i else 0
  next := position headers (next m block)
  headerAt := ⟨block, sizeofMemBlock⟩
  tableAt := ⟨table m block, sizeT (i32 (elemNum m block + 1))⟩
  dataAt := ⟨data m block, sizeT (i32 (elemSize m block * i32 (elemNum m block + 1)))⟩

/-- The pool at `pool`. The bytes of its elements are left out. -/
def view (w : World) (pool : Int) : Heap :=
  let headers := headersFrom w.bytes w.obtained.length (poolHead w.bytes pool)
  { pool :=
      { elemSize := poolElemSize w.bytes pool
        elemNum := poolElemNum w.bytes pool
        elemTotal := poolElemTotal w.bytes pool
        head := position headers (poolHead w.bytes pool)
        tail := position headers (poolTail w.bytes pool) }
    poolAt := ⟨pool, sizeofMemPool⟩
    blocks := headers.map (blockAt w.bytes headers)
    bytes := fun _ => 0
    obtained := w.obtained
    released := [] }

/-! ## Memory in use -/

/-- The words of a table of `elem_num = n` at `p`. -/
def wordsAt (p n : Int) : Region := ⟨p + 4 * min 0 n, 4 * (n.toNat + 1)⟩

/-- The words of `block->table`. -/
def words (b : MemBlock) : Region := wordsAt b.tableAt.base b.elemNum

/-- The data, the words of the table and the header of a block. -/
def extents (b : MemBlock) : List Region := [b.dataAt, words b, b.headerAt]

/-- All that a pool lives in. -/
def inUse (h : Heap) : List Region := h.blocks.flatMap extents ++ [h.poolAt]

/-- What is left of it without the data areas. -/
def control (h : Heap) : List Region :=
  h.blocks.flatMap (fun b => [words b, b.headerAt]) ++ [h.poolAt]

theorem dataAt_mem_extents (b : MemBlock) : b.dataAt ∈ extents b := by simp [extents]

theorem words_mem_extents (b : MemBlock) : words b ∈ extents b := by simp [extents]

theorem headerAt_mem_extents (b : MemBlock) : b.headerAt ∈ extents b := by simp [extents]

theorem control_subset {h : Heap} {r : Region} (hr : r ∈ control h) : r ∈ inUse h := by
  unfold control inUse extents at *
  simp only [List.mem_append, List.mem_flatMap, List.mem_cons, List.not_mem_nil, or_false] at *
  rcases hr with ⟨b, hb, hr⟩ | hr
  · exact Or.inl ⟨b, hb, Or.inr hr⟩
  · exact Or.inr hr

theorem words_mem_control {h : Heap} {b : MemBlock} (hb : b ∈ h.blocks) : words b ∈ control h := by
  refine List.mem_append_left _ (List.mem_flatMap.2 ⟨b, hb, ?_⟩)
  simp

theorem headerAt_mem_control {h : Heap} {b : MemBlock} (hb : b ∈ h.blocks) :
    b.headerAt ∈ control h := by
  refine List.mem_append_left _ (List.mem_flatMap.2 ⟨b, hb, ?_⟩)
  simp

theorem poolAt_mem_control (h : Heap) : h.poolAt ∈ control h :=
  List.mem_append_right _ (List.mem_singleton_self _)

/-! ## A pool in memory -/

/-- Where the header of the block at a position is. -/
def addr (blocks : List MemBlock) (o : Option Nat) : Int :=
  (o.bind (blocks[·]?)).elim 0 (·.headerAt.base)

/-- The fields of `b` are in memory. -/
structure Header (m : Mem) (blocks : List MemBlock) (b : MemBlock) : Prop where
  elemNum : elemNum m b.headerAt.base = b.elemNum
  elemSize : elemSize m b.headerAt.base = b.elemSize
  head : head m b.headerAt.base = b.head
  tail : tail m b.headerAt.base = b.tail
  table : table m b.headerAt.base = b.tableAt.base
  data : data m b.headerAt.base = b.dataAt.base
  next : next m b.headerAt.base = addr blocks b.next

/-- The fields and the table of `b` are in memory. -/
structure Stored (m : Mem) (blocks : List MemBlock) (b : MemBlock) : Prop where
  header : Header m blocks b
  entries : ∀ i, InTable b.elemNum i → ints m b.tableAt.base i = b.table i

/-- The regions of `b` are those that were requested, its table ends at `tail`, and has its
    words alone. -/
structure Shaped (b : MemBlock) : Prop where
  tail : b.tail = b.elemNum
  header : b.headerAt.size = sizeofMemBlock
  table : b.tableAt.size = sizeT (i32 (b.elemNum + 1))
  data : b.dataAt.size = sizeT (i32 (b.elemSize * i32 (b.elemNum + 1)))
  pos : 0 < b.headerAt.base
  lt : b.headerAt.base < 2 ^ 64
  rest : ∀ i, ¬ InTable b.elemNum i → b.table i = 0

/-- The fields of `mem_pool_t` are in memory. -/
structure Fields (m : Mem) (pool : Int) (h : Heap) : Prop where
  elemSize : poolElemSize m pool = h.pool.elemSize
  elemNum : poolElemNum m pool = h.pool.elemNum
  elemTotal : poolElemTotal m pool = h.pool.elemTotal
  head : poolHead m pool = addr h.blocks h.pool.head
  tail : poolTail m pool = addr h.blocks h.pool.tail

/-- The pool has blocks, all linked, or was created without one. -/
def Shape (h : Heap) : Prop :=
  Linked h ∨ h.blocks = [] ∧ h.pool.head = none ∧ h.pool.tail = none

/-- The memory holds the pool `h`, and nothing else where that is. -/
structure Models (w : World) (pool : Int) (h : Heap) : Prop where
  poolAt : h.poolAt = ⟨pool, sizeofMemPool⟩
  fields : Fields w.bytes pool h
  stored : ∀ b ∈ h.blocks, Stored w.bytes h.blocks b
  shaped : ∀ b ∈ h.blocks, Shaped b
  shape : Shape h
  apart : (inUse h).Pairwise Region.Apart
  obtained : h.obtained = w.obtained
  requested : ∀ b ∈ h.blocks, b.dataAt ∈ w.obtained
  count : h.blocks.length ≤ w.obtained.length
  released : h.released = [] ∧ w.released = []
  bytes : h.bytes = fun _ => 0

variable {m : Mem} {w : World} {pool : Int} {h : Heap} {b : MemBlock} {blocks : List MemBlock}

theorem addr_some {pos : Nat} (hb : blocks[pos]? = some b) :
    addr blocks (some pos) = b.headerAt.base := by
  unfold addr
  rw [Option.bind_some, hb]
  rfl

/-- Headers stay where they are. -/
theorem addr_congr {blocks' : List MemBlock}
    (hheaders : blocks'.map MemBlock.headerAt = blocks.map MemBlock.headerAt) (o : Option Nat) :
    addr blocks' o = addr blocks o := by
  cases o with
  | none => rfl
  | some pos =>
    have hpos := congrArg (·[pos]?) hheaders
    simp only [List.getElem?_map] at hpos
    unfold addr
    rw [Option.bind_some, Option.bind_some]
    cases hb : blocks[pos]? <;> cases hb' : blocks'[pos]? <;> simp_all

/-- Every link leads to a block. -/
theorem Shape.links (hs : Shape h) :
    (∀ pos ∈ h.pool.head, pos < h.blocks.length) ∧
      (∀ pos ∈ h.pool.tail, pos < h.blocks.length) ∧
      ∀ b ∈ h.blocks, ∀ pos ∈ b.next, pos < h.blocks.length := by
  rcases hs with hl | ⟨hnone, hhead, htail⟩
  · have hpos := hl.nonempty
    rw [hl.head, hl.tail]
    refine ⟨by simpa using hpos, ?_, fun b hb pos hnext => ?_⟩
    · intro pos htail
      rw [Option.mem_some_iff] at htail
      omega
    · obtain ⟨i, hi⟩ := List.mem_iff_getElem?.1 hb
      rw [hl.chained i b hi] at hnext
      split at hnext
      · rw [Option.mem_some_iff] at hnext
        omega
      · cases hnext
  · rw [hnone, hhead, htail]
    simp

/-! ## `view` reads it -/

section View

variable (hm : Models w pool h)
include hm

theorem Models.ne_zero {pos : Nat} (hb : h.blocks[pos]? = some b) :
    addr h.blocks (some pos) ≠ 0 := by
  have hpos := (hm.shaped b (List.mem_of_getElem? hb)).pos
  rw [addr_some hb]
  omega

/-- Two blocks are not at the same place. -/
theorem Models.apart_blocks :
    h.blocks.Pairwise fun b c => ∀ r ∈ extents b, ∀ r' ∈ extents c, Region.Apart r r' := by
  have hpw := (List.pairwise_append.1 hm.apart).1
  rw [List.pairwise_flatMap] at hpw
  exact hpw.2

theorem Models.nodup_headers : (h.blocks.map (·.headerAt.base)).Nodup := by
  rw [List.Nodup, List.pairwise_map]
  refine hm.apart_blocks.imp_of_mem fun {b c} hb hc hbc heq => ?_
  have hapart := hbc _ (headerAt_mem_extents b) _ (headerAt_mem_extents c)
  have hsize := (hm.shaped _ hb).header
  have hsize' := (hm.shaped _ hc).header
  unfold Region.Apart sizeofMemBlock at *
  omega

theorem Models.headersFrom (hl : Linked h) : ∀ fuel pos, pos < h.blocks.length →
    h.blocks.length - pos ≤ fuel →
      headersFrom w.bytes fuel (addr h.blocks (some pos)) =
        (h.blocks.drop pos).map (·.headerAt.base)
  | 0, pos, hpos, hf => by omega
  | fuel + 1, pos, hpos, hf => by
    have hb : h.blocks[pos]? = some h.blocks[pos] := List.getElem?_eq_getElem hpos
    have hnext := (hm.stored _ (List.mem_of_getElem? hb)).header.next
    rw [RawPool.headersFrom, if_neg (hm.ne_zero hb), List.drop_eq_getElem_cons hpos,
      List.map_cons, addr_some hb, hnext, hl.chained pos _ hb]
    by_cases hlast : pos + 1 < h.blocks.length
    · rw [if_pos hlast, Models.headersFrom hl fuel (pos + 1) hlast (by omega)]
    · rw [if_neg hlast, List.drop_eq_nil_of_le (by omega)]
      cases fuel <;> rfl

theorem Models.headers :
    RawPool.headersFrom w.bytes w.obtained.length (poolHead w.bytes pool) =
      h.blocks.map (·.headerAt.base) := by
  rw [hm.fields.head]
  rcases hm.shape with hl | ⟨hnone, hhead, -⟩
  · rw [hl.head, hm.headersFrom hl _ 0 hl.nonempty (by have := hm.count; omega)]
    rfl
  · rw [hnone, hhead]
    cases w.obtained.length <;> rfl

theorem Models.position {o : Option Nat} (ho : ∀ pos ∈ o, pos < h.blocks.length) :
    RawPool.position (h.blocks.map (·.headerAt.base)) (addr h.blocks o) = o := by
  cases o with
  | none => rfl
  | some pos =>
    have hlt := ho pos rfl
    have hb := List.getElem?_eq_getElem hlt
    have hidx := hm.nodup_headers.idxOf_getElem pos (by simpa using hlt)
    unfold RawPool.position
    rw [if_neg (hm.ne_zero hb), addr_some hb]
    rw [List.getElem_map] at hidx
    rw [hidx]

theorem Models.blockAt (hb : b ∈ h.blocks) (hnext : ∀ pos ∈ b.next, pos < h.blocks.length) :
    RawPool.blockAt w.bytes (h.blocks.map (·.headerAt.base)) b.headerAt.base = b := by
  have hs := (hm.stored b hb).header
  have hd := hm.shaped b hb
  have htable : (fun i => if InTable b.elemNum i then ints w.bytes b.tableAt.base i else 0) =
      b.table := by
    funext i
    by_cases hi : InTable b.elemNum i
    · rw [if_pos hi, (hm.stored b hb).entries i hi]
    · rw [if_neg hi, hd.rest i hi]
  unfold RawPool.blockAt entry
  rw [hs.elemNum, hs.elemSize, hs.head, hs.tail, hs.table, hs.data, hs.next, hm.position hnext,
    htable, ← hd.header, ← hd.table, ← hd.data]

/-- `view` reads the pool that memory holds. -/
theorem Models.view_eq : view w pool = h := by
  have hf := hm.fields
  obtain ⟨hhead, htail, hnext⟩ := hm.shape.links
  have hblocks : (h.blocks.map (·.headerAt.base)).map
      (RawPool.blockAt w.bytes (h.blocks.map (·.headerAt.base))) = h.blocks.map id := by
    rw [List.map_map]
    exact List.map_congr_left fun b hb => hm.blockAt hb (hnext b hb)
  rw [List.map_id] at hblocks
  unfold view
  dsimp only
  rw [hm.headers, hblocks, hf.elemSize, hf.elemNum, hf.elemTotal, hf.head, hf.tail,
    hm.position hhead, hm.position htail, ← hm.poolAt, ← hm.obtained, ← hm.released.1,
    ← hm.bytes]

end View

-- what `view` reads is known from `Models.view_eq` only
attribute [irreducible] view

end GameServer.RawPool
