/-
  The sizes of a block, computed in `int`.

  `__mem_pool_alloc_block` asks for `elem_size * (elem_num + 1)` bytes, and `mem_pool_malloc`
  computes the offset `head * elem_size` of a slot. No function checks the two parameters of
  `mem_pool_create`, and a product that wraps may be a small size again, so that a block is
  built whose slots lie outside its data. All sizes are exact if and only if the size of the
  first block is (`sizes_exact_iff`).
-/
import GameServer.MemPool.Failure

namespace GameServer.Pool

open CInt Runs

/-- The size arithmetic of `b` does not overflow, and its `elem_num + 1` slots lie within the
    bytes requested for its data. -/
structure MemBlock.SizesExact (b : MemBlock) : Prop where
  slots : InInt (b.elemNum + 1)
  bytes : InInt (b.elemSize * (b.elemNum + 1))
  offset : ∀ k, 0 ≤ k → k ≤ b.elemNum → InInt (k * b.elemSize)
  within : ∀ k, 0 ≤ k → k ≤ b.elemNum →
    0 ≤ k * b.elemSize ∧ (k + 1) * b.elemSize ≤ b.dataAt.size

/-- The sizes of all blocks in the pool's list are exact. -/
def SizesExact (h : Heap) : Prop := ∀ b ∈ h.poolBlocks, b.SizesExact

/-- The block of which `mem_pool_malloc` takes a slot. -/
def Heap.chosen (h : Heap) (g : Grant) : Option MemBlock :=
  match h.search MemBlock.hasRoom with
  | some pos => h.blocks[pos]?
  | none => g.block h.pool.elemSize (h.pool.elemNum.tdiv 3)

/-- The product `block->head * block->elem_size` of `mem_pool_malloc` does not overflow. -/
def OffsetExact (s : Session) : Call → Prop
  | .malloc g => ∀ b ∈ s.heap.chosen g, InInt (b.head * b.elemSize)
  | .free _ => True

/-! ## Sizes -/

/-- A block of elements of `es` bytes, at most `n` of them, with the data it was asked for. -/
structure Requested (es n : Int) (b : MemBlock) : Prop where
  width : b.elemSize = es
  nonneg : 0 ≤ b.elemNum
  le : b.elemNum ≤ n
  size : b.dataAt.size = sizeT (i32 (b.elemSize * i32 (b.elemNum + 1)))

/-- The offsets of the slots of a block grow up to its size. -/
theorem slot_offsets {es n k : Int} (hes : 0 ≤ es) (hk : 0 ≤ k) (hkn : k ≤ n) :
    0 ≤ k * es ∧ k * es ≤ (k + 1) * es ∧ (k + 1) * es ≤ (n + 1) * es :=
  ⟨Int.mul_nonneg hk hes, Int.mul_le_mul_of_nonneg_right (by omega) hes,
    Int.mul_le_mul_of_nonneg_right (by omega) hes⟩

theorem Requested.sizesExact {es n : Int} (hes : 0 < es) (hfits : es * (n + 1) ≤ intMax)
    {b : MemBlock} (hb : Requested es n b) : b.SizesExact := by
  obtain ⟨rfl, hnonneg, hle, hsize⟩ := hb
  have hbytes : b.elemSize * (b.elemNum + 1) ≤ intMax := by
    have hmul : b.elemSize * (b.elemNum + 1) ≤ b.elemSize * (n + 1) :=
      Int.mul_le_mul_of_nonneg_left (by omega) (by omega)
    omega
  have hdata : (b.dataAt.size : Int) = (b.elemNum + 1) * b.elemSize := by
    rw [hsize]
    exact dataSize_exact hes hnonneg hbytes
  have hnum : 1 * (b.elemNum + 1) ≤ b.elemSize * (b.elemNum + 1) :=
    Int.mul_le_mul_of_nonneg_right (by omega) (by omega)
  have hcomm := Int.mul_comm b.elemSize (b.elemNum + 1)
  refine ⟨⟨by unfold intMin; omega, by omega⟩, ⟨by unfold intMin; omega, hbytes⟩,
    fun k hk hkn => ?_, fun k hk hkn => ?_⟩
  · obtain ⟨hlo, hmid, hhi⟩ := slot_offsets (Int.le_of_lt hes) hk hkn
    exact ⟨by unfold intMin; omega, by omega⟩
  · obtain ⟨hlo, -, hhi⟩ := slot_offsets (Int.le_of_lt hes) hk hkn
    exact ⟨hlo, by omega⟩

theorem requested_block {g : Grant} {es n m : Int} (hm : 0 ≤ m) (hmn : m ≤ n) {b : MemBlock}
    (hb : g.block es m = some b) : Requested es n b := by
  obtain ⟨header, table, data, -, rfl⟩ := block_eq_some hb
  exact ⟨rfl, hm, hmn, rfl⟩

/-! ## Runs -/

/-- A pool whose blocks were requested for elements of `es` bytes, `n` of them at most. -/
structure Sizing (es n : Int) (s : Session) : Prop where
  running : Running s
  elemSize : s.heap.pool.elemSize = es
  elemNum : s.heap.pool.elemNum = n
  requested : ∀ b ∈ s.heap.blocks, Requested es n b

section Runs

variable {es n : Int} {s : Session}

/-- No call changes the size of a block. -/
theorem Sizing.step (hn : 0 ≤ n) (hs : Sizing es n s) (c : Call) : Sizing es n (s.step c) := by
  obtain ⟨hsize, hnum⟩ := hs.running.step_pool c
  have hthird : 0 ≤ n.tdiv 3 ∧ n.tdiv 3 ≤ n := by
    rw [Int.tdiv_eq_ediv_of_nonneg hn]
    omega
  refine ⟨hs.running.step c, hsize.trans hs.elemSize, hnum.trans hs.elemNum, ?_⟩
  refine hs.running.forall_blocks hs.requested c ?_ ?_ ?_ ?_
  · exact fun b next hb => { hb with }
  · exact fun b hb _ => { hs.requested b hb with }
  · intro g b _ _ hb
    rw [hs.elemSize, hs.elemNum] at hb
    exact { requested_block hthird.1 hthird.2 hb with }
  · exact fun p b _ hb _ => { hs.requested b hb with }

theorem Sizing.sizesExact (hes : 0 < es) (hfits : es * (n + 1) ≤ intMax) (hs : Sizing es n s) :
    SizesExact s.heap := by
  intro b hb
  rw [hs.running.linked.poolBlocks] at hb
  exact (hs.requested b hb).sizesExact hes hfits

/-- A call that stores into no free slot leaves the free slots in order. -/
theorem Sizing.ascending_step (hn : 0 ≤ n) (hmax : n ≤ intMax) (hs : Sizing es n s)
    (ha : ∀ b ∈ s.heap.blocks, Ascending b) {c : Call} (hin : Intact s c) :
    ∀ b ∈ (s.step c).heap.blocks, Ascending b := by
  refine hs.running.forall_blocks ha c ?_ ?_ ?_ ?_
  · exact fun b next hb => { hb with }
  · intro b hb hroom
    exact ((ha b hb).take ((ha b hb).hasRoom_iff.1 hroom)).2
  · intro g b hc hroom hb
    subst hc
    have hpos := hin hroom
    rw [hs.elemNum] at hpos hb
    have hthird := Int.tdiv_eq_ediv_of_nonneg hn (b := 3)
    obtain ⟨hasc, hhead, hnum⟩ := ascending_block (Int.le_of_lt hpos) (by omega) hb
    exact (hasc.take (by omega)).2
  · intro p b hc hb howner
    subst hc
    exact (ha b hb).putBack (hin b howner)

/-- The offset of the head of a block in order is exact. -/
theorem Sizing.offsetExact (hes : 0 < es) (hfits : es * (n + 1) ≤ intMax)
    (hs : Sizing es n s) (ha : ∀ b ∈ s.heap.blocks, Ascending b) (c : Call) :
    OffsetExact s c := by
  cases c with
  | free p => trivial
  | malloc g =>
    intro b hb
    unfold Heap.chosen at hb
    cases hsearch : s.heap.search MemBlock.hasRoom with
    | some pos =>
      simp only [hsearch] at hb
      have hmem := List.mem_of_getElem? hb
      have hexact := (hs.requested b hmem).sizesExact hes hfits
      exact hexact.offset _ (ha b hmem).head_nonneg (ha b hmem).head_le
    | none =>
      simp only [hsearch] at hb
      obtain ⟨header, table, data, -, rfl⟩ := block_eq_some hb
      show InInt (0 * _)
      rw [Int.zero_mul]
      decide

theorem sizing_create (hn : 0 ≤ n) {poolAt : Int} {g : Grant} (hg : g.Full) {h : Heap}
    (hc : memPoolCreate (some poolAt) g es n = some h) :
    Sizing es n (.start h) ∧ ∃ b, g.block es n = some b ∧ h.blocks = [b] := by
  have hrun := (create_running hg hc).2
  obtain ⟨b, hb⟩ := (g.full_iff es n).1 hg
  obtain ⟨hblocks, hpool, -⟩ := create_block hb hc
  refine ⟨⟨hrun, by rw [Session.start, hpool], by rw [Session.start, hpool], fun c hc => ?_⟩,
    b, hb, hblocks⟩
  have hc' : c ∈ h.blocks := hc
  rw [hblocks, List.mem_singleton] at hc'
  rw [hc']
  exact requested_block hn (Int.le_refl _) hb

/-- For every pool whose first block is built, and every run: the sizes of all blocks are exact
    in every state, and so is the offset computed in every `mem_pool_malloc` as long as no
    `mem_pool_free` stores into a free slot, if and only if the size of the first block is. -/
theorem sizes_exact_iff (hes : 0 < es) (hn : 3 ≤ n) {poolAt : Int} {g : Grant} (hg : g.Full)
    {h : Heap} (hc : memPoolCreate (some poolAt) g es n = some h) (calls : List Call) :
    (SizesExact h ∧
        Along Session.step (fun s c => SizesExact (s.step c).heap) (.start h) calls ∧
        (Along Session.step Intact (.start h) calls →
          Along Session.step OffsetExact (.start h) calls)) ↔
      es * (n + 1) ≤ intMax := by
  obtain ⟨hstart, b, hb, hblocks⟩ := sizing_create (by omega) hg hc
  constructor
  · rintro ⟨hexact, -⟩
    have hlinked : Linked h := hstart.running.linked
    have hfirst := hexact b (by simp [hlinked.poolBlocks, hblocks])
    obtain ⟨header, table, data, -, rfl⟩ := block_eq_some hb
    exact hfirst.bytes.2
  · intro hfits
    have hmul : 1 * (n + 1) ≤ es * (n + 1) := Int.mul_le_mul_of_nonneg_right (by omega) (by omega)
    have hstep : ∀ s c, Sizing es n s → Sizing es n (s.step c) :=
      fun s c hs => hs.step (by omega) c
    refine ⟨hstart.sizesExact hes hfits, ?_, fun hin => ?_⟩
    · have hall : ∀ s c, Sizing es n s → True → SizesExact (s.step c).heap :=
        fun s c hs _ => (hstep s c hs).sizesExact hes hfits
      exact along_of_inv (fun s c hs _ => hstep s c hs) hall hstart
        ((along_event _ _ _).2 fun _ _ => trivial)
    · have hasc : ∀ b ∈ h.blocks, Ascending b := by
        intro b' hb'
        rw [hblocks, List.mem_singleton] at hb'
        rw [hb']
        exact (ascending_block (by omega) (by omega) hb).1
      have hkeep : ∀ s c, (Sizing es n s ∧ ∀ b ∈ s.heap.blocks, Ascending b) → Intact s c →
          Sizing es n (s.step c) ∧ ∀ b ∈ (s.step c).heap.blocks, Ascending b :=
        fun s c hs hin => ⟨hstep s c hs.1, hs.1.ascending_step (by omega) (by omega) hs.2 hin⟩
      exact along_of_inv hkeep (fun s c hs _ => hs.1.offsetExact hes hfits hs.2 c)
        ⟨hstart, hasc⟩ hin

end Runs

end GameServer.Pool
