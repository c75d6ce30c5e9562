/-
  Blocks whose free slots are the last ones, in order.

  `Bump es b`: from `head` on, every slot of `b` links to the one after it, up to
  `tail = elem_num`; the slots below `head` have been handed out. A new block is one
  (`bump_fresh`), and taking a slot moves `head` up by one (`bump_take`). Putting slot
  `offset` back only changes the words at `tail` and at `offset`, which are not read again
  as long as `offset` is below `head` (`bump_putBack`).
-/
import GameServer.MemPool.Blocks

namespace GameServer.Pool

open CInt Region

/-! ## The initial table -/

theorem initLoop_apply (residue : Int → Int) (m : Nat) (hm : (m : Int) ≤ intMax) (i : Int) :
    (List.range m).foldl (fun t (j : Nat) => Function.update t (j : Int) (i32 ((j : Int) + 1)))
        residue i =
      if 0 ≤ i ∧ i < m then i + 1 else residue i := by
  induction m with
  | zero =>
    rw [if_neg (by omega)]
    rfl
  | succ m ih =>
    rw [List.range_succ, List.foldl_append, List.foldl_cons, List.foldl_nil]
    by_cases hi : i = m
    · subst hi
      rw [Function.update_self, if_pos (by omega), i32_eq (by unfold intMin; omega) (by omega)]
    · rw [Function.update_of_ne hi, ih (by omega)]
      by_cases hlt : 0 ≤ i ∧ i < (m : Int)
      · rw [if_pos hlt, if_pos (by omega)]
      · rw [if_neg hlt, if_neg (by omega)]

/-- Every slot of a new table links to the next one. -/
theorem initTable_apply (residue : Int → Int) {n i : Int} (hn : n ≤ intMax) (hi : 0 ≤ i)
    (hin : i < n) : initTable residue n i = i + 1 := by
  unfold initTable
  rw [Function.update_of_ne (by omega), initLoop_apply _ _ (by omega), if_pos (by omega)]

/-! ## Blocks in bump order -/

/-- The free slots of `b` are its last ones, in order. -/
structure Ascending (b : MemBlock) : Prop where
  tail : b.tail = b.elemNum
  head_nonneg : 0 ≤ b.head
  head_le : b.head ≤ b.elemNum
  free : ∀ i, b.head ≤ i → i < b.elemNum → b.table i = i + 1

theorem Ascending.hasRoom_iff {b : MemBlock} (hb : Ascending b) :
    b.hasRoom = true ↔ b.head < b.elemNum := by
  have := hb.head_le
  simp only [MemBlock.hasRoom, bne_iff_ne, ne_eq, hb.tail]
  omega

/-- Taking a slot moves `head` up by one. -/
theorem Ascending.take {b : MemBlock} (hb : Ascending b) (hroom : b.head < b.elemNum) :
    b.take.2.head = b.head + 1 ∧ Ascending b.take.2 := by
  have h0 := hb.head_nonneg
  have hhead : b.take.2.head = b.head + 1 := hb.free _ (Int.le_refl _) hroom
  refine ⟨hhead, hb.tail, by omega, by show b.take.2.head ≤ b.elemNum; omega, ?_⟩
  intro i hi hin
  show Function.update b.table b.head allocated i = i + 1
  rw [Function.update_of_ne (by omega)]
  exact hb.free i (by omega) hin

/-- Putting back a slot that has been handed out does not touch the free ones. -/
theorem Ascending.putBack {b : MemBlock} (hb : Ascending b) {offset : Int}
    (ho : offset < b.head) : Ascending (b.putBack offset) := by
  refine ⟨hb.tail, hb.head_nonneg, hb.head_le, fun i hi hin => ?_⟩
  have hi' : b.head ≤ i := hi
  have hin' : i < b.elemNum := hin
  show Function.update (Function.update b.table b.tail offset) offset endOfMem i = i + 1
  rw [Function.update_of_ne (by omega), Function.update_of_ne (by rw [hb.tail]; omega)]
  exact hb.free i hi' hin'

theorem ascending_block {g : Grant} {es n : Int} (hn : 0 ≤ n) (hmax : n ≤ intMax) {b : MemBlock}
    (hb : g.block es n = some b) : Ascending b ∧ b.head = 0 ∧ b.elemNum = n := by
  obtain ⟨header, table, data, -, rfl⟩ := block_eq_some hb
  refine ⟨⟨rfl, Int.le_refl _, hn, fun i hi hin => ?_⟩, rfl, rfl⟩
  exact initTable_apply _ hmax hi hin

/-- The free slots of `b` are `head, head + 1, …, elem_num - 1`, linked in this order, and
    `elem_num + 1` elements fit its data area. -/
structure Bump (es : Int) (b : MemBlock) : Prop where
  width : b.elemSize = es
  tail : b.tail = b.elemNum
  head_nonneg : 0 ≤ b.head
  head_le : b.head ≤ b.elemNum
  free : ∀ i, b.head ≤ i → i < b.elemNum → b.table i = i + 1
  fits : es * (b.elemNum + 1) ≤ intMax
  size : (b.dataAt.size : Int) = (b.elemNum + 1) * es
  space : b.dataAt.InSpace

theorem Bump.ascending {es : Int} {b : MemBlock} (hb : Bump es b) : Ascending b :=
  ⟨hb.tail, hb.head_nonneg, hb.head_le, hb.free⟩

theorem Bump.hasRoom_iff {es : Int} {b : MemBlock} (hb : Bump es b) :
    b.hasRoom = true ↔ b.head < b.elemNum := hb.ascending.hasRoom_iff

/-- The offset of a slot is exact: its product does not overflow. -/
theorem offset_exact {es n k : Int} (hes : 0 < es) (hfits : es * (n + 1) ≤ intMax)
    (hk : 0 ≤ k) (hkn : k ≤ n) : i32 (k * es) = k * es := by
  have hlo : 0 ≤ k * es := Int.mul_nonneg hk (Int.le_of_lt hes)
  have hhi : k * es ≤ (n + 1) * es := Int.mul_le_mul_of_nonneg_right (by omega) (Int.le_of_lt hes)
  rw [Int.mul_comm] at hfits
  exact i32_eq (by unfold intMin; omega) (by omega)

/-- The address of a slot is exact: it does not leave the address space. -/
theorem slotAddr_exact {es n k : Int} {r : Region} (hes : 0 < es) (hk : 0 ≤ k) (hkn : k ≤ n)
    (hsize : (r.size : Int) = (n + 1) * es) (hspace : r.InSpace) :
    ptrAdd r.base (k * es) = slot r.base es k := by
  have hb := slot_bounds r.base hes hk (show k < n + 1 by omega)
  obtain ⟨hpos, hend⟩ := hspace
  unfold slot at hb
  exact ptrAdd_eq (by omega) (by omega)

/-- What `mem_pool_malloc` does to a block that has room: it returns slot `head`. -/
theorem bump_take {es : Int} {b : MemBlock} (hes : 0 < es) (hb : Bump es b)
    (hroom : b.head < b.elemNum) :
    b.take.1 = slot b.data es b.head ∧ b.take.2.head = b.head + 1 ∧ Bump es b.take.2 := by
  obtain ⟨hnext, hrest⟩ := hb.ascending.take hroom
  refine ⟨?_, hnext, ?_⟩
  · show ptrAdd b.data (i32 (b.head * b.elemSize)) = _
    rw [hb.width, offset_exact hes hb.fits hb.head_nonneg hb.head_le]
    exact slotAddr_exact hes hb.head_nonneg hb.head_le hb.size hb.space
  · exact { hrest with width := hb.width, fits := hb.fits, size := hb.size, space := hb.space }

theorem bump_putBack {es : Int} {b : MemBlock} (hb : Bump es b) {offset : Int}
    (ho : offset < b.head) : Bump es (b.putBack offset) :=
  { hb.ascending.putBack ho with
    width := hb.width, fits := hb.fits, size := hb.size, space := hb.space }

/-- Size of a data area, when the products do not overflow. -/
theorem dataSize_exact {es n : Int} (hes : 0 < es) (hn : 0 ≤ n) (hfits : es * (n + 1) ≤ intMax) :
    ((sizeT (i32 (es * i32 (n + 1))) : Nat) : Int) = (n + 1) * es := by
  have hle : n + 1 ≤ es * (n + 1) := by
    have := Int.mul_le_mul_of_nonneg_right (show (1 : Int) ≤ es by omega) (show 0 ≤ n + 1 by omega)
    omega
  have hpos : 0 ≤ es * (n + 1) := Int.mul_nonneg (Int.le_of_lt hes) (by omega)
  rw [i32_eq (x := n + 1) (by unfold intMin; omega) (by omega),
    i32_eq (by unfold intMin; omega) hfits, sizeT_eq hpos hfits, Int.mul_comm]

theorem bump_fresh {es n data : Int} (residue : Int → Int) (header table : Int) (hes : 0 < es)
    (hn : 0 ≤ n) (hfits : es * (n + 1) ≤ intMax)
    (hspace : (freshBlock residue header table data es n).dataAt.InSpace) :
    Bump es (freshBlock residue header table data es n) where
  width := rfl
  tail := rfl
  head_nonneg := Int.le_refl _
  head_le := hn
  free := by
    intro i hi hin
    have hmul := Int.mul_le_mul_of_nonneg_right (show (1 : Int) ≤ es by omega)
      (show 0 ≤ n + 1 by omega)
    exact initTable_apply residue (by omega) hi hin
  fits := hfits
  size := dataSize_exact hes hn hfits
  space := hspace

end GameServer.Pool
