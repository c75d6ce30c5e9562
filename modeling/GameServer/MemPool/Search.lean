/-
  Which block `mem_pool_free` takes a pointer for.

  The loop divides `block->data - p`, the distance from the pointer up to the block, where
  the distance from the block up to the pointer was needed. Slot `k` therefore has offset
  `-k` in its own block (`own_offset`), and a block accepts the addresses below its data as
  if its slots went downwards, and the addresses `2 ^ 32` elements away from these
  (`Mirrors`, `accepts_iff`). So the owner of a pointer is found if and only if the pointer
  is slot 0 of its block and no block before it in the list mirrors it
  (`finds_owner_iff`).
-/
import GameServer.MemPool.Session

namespace GameServer.Pool

open CInt Region

/-- `p` is, in elements of the block and truncated, between 0 and `elem_num - 1` below its
    data, up to a multiple of `2 ^ 32`. -/
def Mirrors (b : MemBlock) (p : Int) : Prop :=
  ∃ j : Int, j * 2 ^ 32 ≤ (ptrDiff b.data p).tdiv b.elemSize ∧
    (ptrDiff b.data p).tdiv b.elemSize < j * 2 ^ 32 + b.elemNum

/-- `p` points to element `k` of the block `b` at `pos`. -/
structure Element (h : Heap) (p : Int) (pos : Nat) (b : MemBlock) (k : Int) : Prop where
  block : h.blocks[pos]? = some b
  nonneg : 0 ≤ k
  lt : k < b.elemNum
  addr : p = slot b.data b.elemSize k

/-- Elements are those of the blocks. -/
theorem Element.congr {h h' : Heap} (hblocks : h'.blocks = h.blocks) {p : Int} {pos : Nat}
    {b : MemBlock} {k : Int} (he : Element h p pos b k) : Element h' p pos b k :=
  ⟨hblocks ▸ he.block, he.nonneg, he.lt, he.addr⟩

theorem element_withBytes {h : Heap} (bytes : Int → UInt8) {p : Int} {pos : Nat} {b : MemBlock}
    {k : Int} : Element { h with bytes := bytes } p pos b k ↔ Element h p pos b k :=
  ⟨Element.congr (by rfl), Element.congr (by rfl)⟩

/-- `p` lies in no data area of the pool. -/
def Outside (h : Heap) (p : Int) : Prop := ∀ b ∈ h.blocks, ¬ b.dataAt.Contains p

/-- The loop breaks at the block and the slot of a pointer to an element, and at no block for
    a pointer outside the pool, which it leaves as it is. -/
structure FindsOwner (h : Heap) (p : Int) : Prop where
  owned : ∀ pos b k, Element h p pos b k → h.search (·.accepts p) = some pos ∧ b.freeOffset p = k
  outside : Outside h p → h.search (·.accepts p) = none ∧ memPoolFree h p = h

/-- A pointer to an element points to element 0 of its block and is mirrored by no block
    before it; a pointer outside the pool is mirrored by no block. -/
structure Unmirrored (h : Heap) (p : Int) : Prop where
  owned : ∀ pos b k, Element h p pos b k →
    k = 0 ∧ ∀ (j : Nat) (c : MemBlock), j < pos → h.blocks[j]? = some c → ¬ Mirrors c p
  outside : Outside h p → ∀ b ∈ h.blocks, ¬ Mirrors b p

theorem accepts_iff {b : MemBlock} (hmax : b.elemNum ≤ intMax) (p : Int) :
    b.accepts p = true ↔ Mirrors b p := by
  unfold MemBlock.accepts MemBlock.freeOffset Mirrors
  rw [Bool.and_eq_true, decide_eq_true_eq, decide_eq_true_eq]
  exact i32_lt_iff hmax

theorem accepts_eq_false_iff {b : MemBlock} (hmax : b.elemNum ≤ intMax) (p : Int) :
    b.accepts p = false ↔ ¬ Mirrors b p := by
  rw [← accepts_iff hmax, Bool.not_eq_true]

/-- The offset of a slot in its own block has the wrong sign. -/
theorem own_offset {b : MemBlock} (hes : 0 < b.elemSize) (hmax : b.elemSize ≤ intMax)
    (hnum : b.elemNum ≤ intMax) {k : Int} (hk : 0 ≤ k) (hkn : k < b.elemNum) :
    b.freeOffset (slot b.data b.elemSize k) = -k := by
  unfold intMax at hmax hnum
  have hlo : 0 ≤ k * b.elemSize := Int.mul_nonneg hk (Int.le_of_lt hes)
  have hhi : k * b.elemSize ≤ 2147483647 * 2147483647 :=
    Int.mul_le_mul (by omega) hmax (Int.le_of_lt hes) (by omega)
  have hdiff : ptrDiff b.data (slot b.data b.elemSize k) = -(k * b.elemSize) := by
    unfold ptrDiff slot
    rw [i64_eq (by omega) (by omega)]
    omega
  unfold MemBlock.freeOffset
  rw [hdiff, Int.neg_tdiv, Int.mul_tdiv_cancel k (Int.ne_of_gt hes)]
  exact i32_eq (by unfold intMin; omega) (by unfold intMax; omega)

/-- A block accepts its own slot 0. -/
theorem accepts_first {b : MemBlock} (hes : 0 < b.elemSize) (hmax : b.elemSize ≤ intMax)
    (hnum : b.elemNum ≤ intMax) (hpos : 0 < b.elemNum) :
    b.accepts (slot b.data b.elemSize 0) = true := by
  unfold MemBlock.accepts
  rw [own_offset hes hmax hnum (Int.le_refl 0) hpos]
  simp [hpos]

/-- For every pool whose list has all its blocks and every pointer, the search loop of
    `mem_pool_free` finds the owner if and only if the pointer is unmirrored. -/
theorem finds_owner_iff {h : Heap} (hl : h.Listed)
    (hb : ∀ b ∈ h.blocks, 0 < b.elemSize ∧ b.elemSize ≤ intMax ∧ b.elemNum ≤ intMax) (p : Int) :
    FindsOwner h p ↔ Unmirrored h p := by
  have hnone : h.search (·.accepts p) = none ↔ ∀ b ∈ h.blocks, ¬ Mirrors b p := by
    rw [hl.search_none]
    exact forall₂_congr fun b hmem => accepts_eq_false_iff (hb b hmem).2.2 p
  have hlimits : ∀ {pos : Nat} {b : MemBlock}, h.blocks[pos]? = some b →
      0 < b.elemSize ∧ b.elemSize ≤ intMax ∧ b.elemNum ≤ intMax :=
    fun hpos => hb _ (List.mem_of_getElem? hpos)
  constructor
  · intro hfinds
    refine ⟨fun pos b k he => ?_, fun hout => hnone.1 (hfinds.outside hout).1⟩
    obtain ⟨hes, hmax, hnum⟩ := hlimits he.block
    obtain ⟨hsearch, hoffset⟩ := hfinds.owned pos b k he
    rw [he.addr, own_offset hes hmax hnum he.nonneg he.lt] at hoffset
    refine ⟨by omega, fun j c hj hc => ?_⟩
    obtain ⟨-, -, -, hfirst⟩ := hl.search_some.1 hsearch
    exact (accepts_eq_false_iff (hlimits hc).2.2 p).1 (hfirst j c hj hc)
  · intro hunm
    refine ⟨fun pos b k he => ?_, fun hout => ?_⟩
    · obtain ⟨hes, hmax, hnum⟩ := hlimits he.block
      obtain ⟨rfl, hearlier⟩ := hunm.owned pos b k he
      refine ⟨hl.search_some.2 ⟨b, he.block, ?_, fun j c hj hc => ?_⟩, ?_⟩
      · rw [he.addr]
        exact accepts_first hes hmax hnum he.lt
      · exact (accepts_eq_false_iff (hlimits hc).2.2 p).2 (hearlier j c hj hc)
      · rw [he.addr, own_offset hes hmax hnum he.nonneg he.lt]
        rfl
    · have hsearch := hnone.2 (hunm.outside hout)
      exact ⟨hsearch, free_miss hsearch⟩

/-- In a pool of one block every element is one of that block. -/
theorem Element.single {h : Heap} {b : MemBlock} (hblocks : h.blocks = [b]) {p : Int} {pos : Nat}
    {c : MemBlock} {k : Int} (he : Element h p pos c k) : pos = 0 ∧ c = b := by
  have hc := he.block
  rw [hblocks] at hc
  exact ListUpdate.singleton_cases hc

/-- The block of the pool of three elements. -/
def smallBlock : MemBlock := freshBlock (fun _ => 0) 1000 1064 1128 4 3

/-- Element 0 is found. -/
theorem first_found : FindsOwner smallPool 1128 := by
  have hblocks : smallPool.blocks = [smallBlock] := rfl
  have hl : smallPool.Listed := by
    unfold Heap.Listed
    decide
  refine (finds_owner_iff hl (fun b hmem => ?_) 1128).2 ⟨fun pos b k he => ?_, fun hout => ?_⟩
  · rw [hblocks, List.mem_singleton] at hmem
    rw [hmem]
    decide
  · obtain ⟨rfl, rfl⟩ := he.single hblocks
    have haddr : 1128 = 1128 + k * 4 := he.addr
    exact ⟨by omega, fun j c hj => absurd hj (Nat.not_lt_zero j)⟩
  · have hin : smallBlock.dataAt.Contains 1128 := by decide
    exact absurd hin (hout _ (List.mem_singleton.2 rfl))

/-- Element 1 is not found: its offset is -1. -/
theorem second_not_found : ¬ FindsOwner smallPool 1132 := by
  intro h
  have helement : Element smallPool 1132 0 smallBlock 1 := ⟨rfl, by decide, by decide, by decide⟩
  exact absurd (h.owned _ _ _ helement).1 (by decide)

end GameServer.Pool
