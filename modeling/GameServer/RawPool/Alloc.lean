/-
  The construction of a block in memory.

  `__mem_pool_alloc_block` writes to the header, to all the words of the table, whatever was
  requested for it, and to the data (`written`), also when a later `malloc` fails. Where these
  lie apart from each other and from the memory in use (`Spaced`), it builds the block
  (`allocBlock_full`), or gives up and leaves the memory in use as it was
  (`allocBlock_fails`).
-/
import GameServer.RawPool.Effects

namespace GameServer.RawPool

open CInt Memory
open Pool (MemBlock Heap sizeofMemBlock sizeofMemPool sizeofInt allocated endOfMem freshBlock)

/-- The same answers, for the pool without addresses. -/
def Grant.toPool (g : Grant) : Pool.Grant := ⟨g.header, g.table, g.data, fun _ => 0⟩

/-- The pointers that `malloc` returns while a block is built. -/
def Grant.answers (g : Grant) : List Int :=
  match g.header, g.table, g.data with
  | none, _, _ => []
  | some block, none, _ => [block]
  | some block, some table, none => [table, block]
  | some block, some table, some data => [data, table, block]

/-- The memory that is written while a block is built. -/
def written (g : Grant) (es n : Int) : List Region :=
  match g.header, g.table, g.data with
  | none, _, _ => []
  | some block, none, _ => [⟨block, sizeofMemBlock⟩]
  | some block, some table, none => [wordsAt table n, ⟨block, sizeofMemBlock⟩]
  | some block, some table, some data =>
    [⟨data, sizeT (i32 (es * i32 (n + 1)))⟩, wordsAt table n, ⟨block, sizeofMemBlock⟩]

/-- `malloc` returns addresses, and what is written there lies in the address space and overlaps
    neither itself nor the memory that is `used`. -/
structure Spaced (used : List Region) (g : Grant) (es n : Int) : Prop where
  addresses : ∀ p ∈ g.answers, 0 < p ∧ p < 2 ^ 64
  inSpace : ∀ r ∈ written g es n, r.InSpace
  apart : (written g es n ++ used).Pairwise Region.Apart

instance (used : List Region) (g : Grant) (es n : Int) : Decidable (Spaced used g es n) :=
  decidable_of_iff ((∀ p ∈ g.answers, 0 < p ∧ p < 2 ^ 64) ∧
      (∀ r ∈ written g es n, r.InSpace) ∧ (written g es n ++ used).Pairwise Region.Apart)
    ⟨fun h => ⟨h.1, h.2.1, h.2.2⟩, fun h => ⟨h.addresses, h.inSpace, h.apart⟩⟩

variable {m : Mem} {w : World} {block t es n : Int} {blocks : List MemBlock} {b : MemBlock}
  {g : Grant} {used : List Region}

/-! ## The table -/

/-- The initialised entries do not depend on the old contents. -/
theorem initTable_entry (hn : n ≤ intMax) {i : Int} (hi : InTable n i) (residue : Int → Int) :
    Pool.initTable residue n i = Pool.initTable (fun _ => 0) n i := by
  obtain ⟨hlo, hhi⟩ := hi
  unfold Pool.initTable
  by_cases hin : i = n
  · rw [hin, Function.update_self, Function.update_self]
  · unfold intMax at hn
    rw [Function.update_of_ne hin, Function.update_of_ne hin,
      Pool.initLoop_apply _ _ (by unfold intMax; omega),
      Pool.initLoop_apply _ _ (by unfold intMax; omega), if_pos (by omega), if_pos (by omega)]

theorem initTable_rest (hn : n ≤ intMax) {i : Int} (hi : ¬ InTable n i) :
    Pool.initTable (fun _ => 0) n i = 0 := by
  unfold InTable at hi
  unfold intMax at hn
  unfold Pool.initTable
  rw [Function.update_of_ne (by omega), Pool.initLoop_apply _ _ (by unfold intMax; omega),
    if_neg (by omega)]

/-- A store into a table apart from its header. -/
theorem setEntry_words (ht : table w.bytes block = t) {i v : Int} (hi : InTable n i)
    (hv : InInt v) :
    ints (w.setEntry block i v).bytes t = Function.update (ints w.bytes t) i v ∧
      ∀ r : Region, r.Apart (wordsAt t n) → SameOn r w.bytes (w.setEntry block i v).bytes := by
  unfold World.setEntry World.setInt
  rw [ht]
  refine ⟨ints_storeInt _ _ _ hv, fun r hr => ?_⟩
  obtain ⟨hlo, hhi⟩ := entry_bounds (p := t) hi
  unfold Region.Apart at hr
  exact sameOn_storeInt (by omega)

theorem SameOn.table {w' : World} (h : SameOn ⟨block, sizeofMemBlock⟩ w.bytes w'.bytes) :
    table w'.bytes block = table w.bytes block := by
  unfold sizeofMemBlock at h
  exact h.loadPtr (by dsimp only; omega) (by dsimp only; omega)

/-- The initialisation loop, up to `k` rounds. -/
theorem initLoop_words (ht : table w.bytes block = t)
    (hapart : (wordsAt t n).Apart ⟨block, sizeofMemBlock⟩) (k : Nat) (hk : k ≤ n.toNat) :
    ∃ w' : World, (List.range k).foldl
        (fun w (i : Nat) => w.setEntry block i (i32 ((i : Int) + 1))) w = w' ∧
      table w'.bytes block = t ∧
      ints w'.bytes t = (List.range k).foldl
        (fun t (i : Nat) => Function.update t (i : Int) (i32 ((i : Int) + 1))) (ints w.bytes t) ∧
      (∀ r : Region, r.Apart (wordsAt t n) → SameOn r w.bytes w'.bytes) ∧
      w'.obtained = w.obtained ∧ w'.released = w.released := by
  induction k with
  | zero =>
    rw [List.range_zero]
    exact ⟨w, rfl, ht, List.foldl_nil.symm, fun r _ => SameOn.refl r _, rfl, rfl⟩
  | succ k ih =>
    obtain ⟨w', hw', ht', hints, hsame, hobt, hrel⟩ := ih (by omega)
    obtain ⟨hset, hkept⟩ := setEntry_words (n := n) (i := (k : Int)) ht' ⟨by omega, by omega⟩
      (inInt_i32 ((k : Int) + 1))
    rw [List.range_succ, List.foldl_append, List.foldl_append, hw', ← hints]
    exact ⟨_, rfl, (SameOn.table (hkept _ hapart.symm)).trans ht', hset,
      fun r hr => (hsame r hr).trans (hkept r hr), hobt, hrel⟩

/-- The table once it is initialised. -/
theorem initTable_words (ht : table w.bytes block = t) (hn : n ≤ intMax)
    (hapart : (wordsAt t n).Apart ⟨block, sizeofMemBlock⟩) :
    ∃ w' : World, w.initTable block n = w' ∧ table w'.bytes block = t ∧
      (∀ i, InTable n i → ints w'.bytes t i = Pool.initTable (fun _ => 0) n i) ∧
      (∀ r : Region, r.Apart (wordsAt t n) → SameOn r w.bytes w'.bytes) ∧
      w'.obtained = w.obtained ∧ w'.released = w.released := by
  obtain ⟨w', hw', ht', hints, hsame, hobt, hrel⟩ :=
    initLoop_words ht hapart n.toNat (Nat.le_refl _)
  obtain ⟨hset, hkept⟩ := setEntry_words (n := n) (i := n) (v := endOfMem) ht'
    ⟨Int.min_le_right _ _, Int.le_refl n⟩ (by decide)
  unfold World.initTable
  rw [hw']
  refine ⟨_, rfl, (SameOn.table (hkept _ hapart.symm)).trans ht', fun i hi => ?_,
    fun r hr => (hsame r hr).trans (hkept r hr), hobt, hrel⟩
  rw [hset, hints, ← initTable_entry hn hi (ints w.bytes t)]
  rfl

/-! ## The block -/

/-- The header and the table of a block, before its data is asked for. -/
theorem table_built (w : World) (hpos : 0 < t) (hlt : t < 2 ^ 64) (hn : n ≤ intMax)
    (hapart : (wordsAt t n).Apart ⟨block, sizeofMemBlock⟩) (size : Nat) :
    ∃ w' : World, ((((w.obtain block sizeofMemBlock).memset block 0 sizeofMemBlock).obtain t
        size).setPtr (block + 16) t).initTable block n = w' ∧ table w'.bytes block = t ∧
      (∀ i, InTable n i → ints w'.bytes t i = Pool.initTable (fun _ => 0) n i) ∧
      (∀ r : Region, r.Apart (wordsAt t n) → r.Apart ⟨block, sizeofMemBlock⟩ →
        SameOn r w.bytes w'.bytes) ∧
      w'.obtained = ⟨t, size⟩ :: ⟨block, sizeofMemBlock⟩ :: w.obtained ∧
      w'.released = w.released := by
  obtain ⟨w', hw', ht, hints, hsame, hobt, hrel⟩ := initTable_words
    (w := ((((w.obtain block sizeofMemBlock).memset block 0 sizeofMemBlock).obtain t
      size).setPtr (block + 16) t)) (loadPtr_storePtr _ _ (Int.le_of_lt hpos) hlt) hn hapart
  refine ⟨w', hw', ht, hints, fun r hr hr' => ?_, hobt, hrel⟩
  unfold Region.Apart sizeofMemBlock at hr'
  dsimp only at hr'
  have hheader : SameOn r w.bytes (storePtr (fill w.bytes block 0 40) (block + 16) t) :=
    (sameOn_fill (by omega)).trans (sameOn_storePtr (by omega))
  exact hheader.trans (hsame r hr)

/-- The header of a block, once all its fields are stored. -/
theorem header_built (ht : table m block = t) {d : Int} (hd : data m block = d)
    (hes : InInt es) (hn : InInt n) (hb : b.headerAt.base = block) (hbt : b.tableAt.base = t)
    (hbd : b.dataAt.base = d) (hfields : b.elemNum = n ∧ b.elemSize = es ∧ b.head = 0 ∧
      b.tail = n ∧ b.next = none) :
    Header (storePtr (storeInt (storeInt (storeInt (storeInt m block n) (block + 4) es)
      (block + 8) 0) (block + 12) n) (block + 32) 0) blocks b := by
  obtain ⟨hnum, hsize, hhead, htail, hnext⟩ := hfields
  unfold table at ht
  unfold data at hd
  have hzero : InInt 0 := by decide
  constructor
  · rw [hb, hnum]
    unfold elemNum
    simp (disch := omega) only [loadInt_storePtr_of_apart, loadInt_storeInt_of_apart,
      loadInt_storeInt _ _ hn]
  · rw [hb, hsize]
    unfold elemSize
    simp (disch := omega) only [loadInt_storePtr_of_apart, loadInt_storeInt_of_apart,
      loadInt_storeInt _ _ hes]
  · rw [hb, hhead]
    unfold head
    simp (disch := omega) only [loadInt_storePtr_of_apart, loadInt_storeInt_of_apart,
      loadInt_storeInt _ _ hzero]
  · rw [hb, htail]
    unfold tail
    simp (disch := omega) only [loadInt_storePtr_of_apart, loadInt_storeInt _ _ hn]
  · rw [hb, hbt]
    unfold table
    simp (disch := omega) only [loadPtr_storePtr_of_apart, loadPtr_storeInt_of_apart, ht]
  · rw [hb, hbd]
    unfold data
    simp (disch := omega) only [loadPtr_storePtr_of_apart, loadPtr_storeInt_of_apart, hd]
  · rw [hb, hnext]
    exact loadPtr_storePtr _ _ (by decide) (by decide)

/-- The stores of the fields stay in the header. -/
theorem sameOn_header (es n : Int) {r : Region} (hr : r.Apart ⟨block, sizeofMemBlock⟩) (m : Mem) :
    SameOn r m (storePtr (storeInt (storeInt (storeInt (storeInt m block n) (block + 4) es)
      (block + 8) 0) (block + 12) n) (block + 32) 0) := by
  unfold Region.Apart sizeofMemBlock at hr
  dsimp only at hr
  have hints : SameOn r m (storeInt (storeInt (storeInt (storeInt m block n) (block + 4) es)
      (block + 8) 0) (block + 12) n) :=
    (((sameOn_storeInt (by omega)).trans (sameOn_storeInt (by omega))).trans
      (sameOn_storeInt (by omega))).trans (sameOn_storeInt (by omega))
  exact hints.trans (sameOn_storePtr (by omega))

theorem toPool_block (hb : g.toPool.block es n = some b) :
    ∃ header table data, g = ⟨some header, some table, some data⟩ ∧
      b = freshBlock (fun _ => 0) header table data es n := by
  obtain ⟨header, table, data, hg, hb'⟩ := Pool.block_eq_some hb
  obtain ⟨gh, gt, gd⟩ := g
  simp only [Grant.toPool, Pool.Grant.mk.injEq] at hg
  obtain ⟨rfl, rfl, rfl, -⟩ := hg
  exact ⟨header, table, data, rfl, hb'⟩

theorem written_full (hb : g.toPool.block es n = some b) : written g es n = extents b := by
  obtain ⟨header, table, data, rfl, rfl⟩ := toPool_block hb
  rfl

theorem Spaced.shaped (hsp : Spaced used g es n) (hn : n ≤ intMax)
    (hb : g.toPool.block es n = some b) : Shaped b := by
  obtain ⟨header, table, data, rfl, rfl⟩ := toPool_block hb
  obtain ⟨hpos, hlt⟩ := hsp.addresses header (by simp [Grant.answers])
  exact ⟨rfl, rfl, rfl, rfl, hpos, hlt, fun i hi => initTable_rest hn hi⟩

/-- The three `malloc` calls succeed: the block is in memory, and nothing else is changed. -/
theorem allocBlock_full (w : World) (blocks : List MemBlock) (hb : g.toPool.block es n = some b)
    (hsp : Spaced used g es n) (hes : InInt es) (hn : InInt n) :
    ∃ w', memPoolAllocBlock w g es n = (some b.headerAt.base, w') ∧ Stored w'.bytes blocks b ∧
      (∀ r : Region, (∀ r' ∈ extents b, r.Apart r') → SameOn r w.bytes w'.bytes) ∧
      w'.obtained = b.regions ++ w.obtained ∧ w'.released = w.released := by
  have hapart := hsp.apart
  rw [written_full hb] at hapart
  obtain ⟨block, t, d, rfl, rfl⟩ := toPool_block hb
  obtain ⟨htpos, htlt⟩ := hsp.addresses t (by simp [Grant.answers])
  obtain ⟨hdpos, hdlt⟩ := hsp.addresses d (by simp [Grant.answers])
  have hself := (List.pairwise_append.1 hapart).1
  simp only [extents, List.pairwise_cons, List.mem_cons, List.not_mem_nil, or_false,
    forall_eq_or_imp, forall_eq] at hself
  obtain ⟨⟨hdw, hdh⟩, hwh, -⟩ := hself
  obtain ⟨w', hw', ht, hints, hsame, hobt, hrel⟩ :=
    table_built w htpos htlt hn.2 hwh (sizeT (i32 (n + 1)))
  -- the data area is cleared, and then the fields are stored
  have hdata : ∀ r : Region, r.Apart ⟨d, sizeT (i32 (es * i32 (n + 1)))⟩ →
      r.Apart ⟨block, sizeofMemBlock⟩ → SameOn r w'.bytes (fill (storePtr w'.bytes (block + 24) d)
        d 0 (sizeT (i32 (es * i32 (n + 1))))) := by
    intro r hr hr'
    unfold Region.Apart sizeofMemBlock at *
    dsimp only at hr hr'
    exact (sameOn_storePtr (by omega)).trans (sameOn_fill (by omega))
  have hfill : ∀ q, block ≤ q → q + 8 ≤ block + 40 →
      loadPtr (fill (storePtr w'.bytes (block + 24) d) d 0 (sizeT (i32 (es * i32 (n + 1))))) q =
        loadPtr (storePtr w'.bytes (block + 24) d) q := by
    intro q hlo hhi
    unfold Region.Apart freshBlock sizeofMemBlock at hdh
    dsimp only at hdh
    exact loadPtr_fill_of_apart (by omega)
  unfold memPoolAllocBlock
  dsimp only
  rw [hw']
  refine ⟨_, rfl, ⟨?_, fun i hi => ?_⟩, fun r hr => ?_, congrArg _ hobt, hrel⟩
  · refine header_built (t := t) (d := d) ?_ ?_ hes hn rfl rfl rfl ⟨rfl, rfl, rfl, rfl, rfl⟩
    · refine (hfill _ (by omega) (by omega)).trans ?_
      exact (loadPtr_storePtr_of_apart (by omega)).trans ht
    · refine (hfill _ (by omega) (by omega)).trans ?_
      exact loadPtr_storePtr _ _ (Int.le_of_lt hdpos) hdlt
  · have hwords := (hdata (wordsAt t n) hdw.symm hwh).trans (sameOn_header es n hwh _)
    exact (SameOn.ints hwords hi).trans (hints i hi)
  · simp only [extents, List.mem_cons, List.not_mem_nil, or_false, forall_eq_or_imp,
      forall_eq] at hr
    obtain ⟨hrd, hrw, hrh⟩ := hr
    exact ((hsame r hrw hrh).trans (hdata r hrd hrh)).trans (sameOn_header es n hrh _)

/-- One of them fails: NULL is returned, and nothing is changed but what the construction has
    written before. -/
theorem allocBlock_fails (w : World) (hb : g.toPool.block es n = none)
    (hsp : Spaced used g es n) (hn : InInt n) :
    ∃ w', memPoolAllocBlock w g es n = (none, w') ∧
      (∀ r : Region, (∀ r' ∈ written g es n, r.Apart r') → SameOn r w.bytes w'.bytes) ∧
      w'.obtained = g.toPool.leaked n ++ w.obtained ∧ w'.released = w.released := by
  obtain ⟨header, table, data⟩ := g
  cases header with
  | none => exact ⟨w, rfl, fun r _ => SameOn.refl r _, rfl, rfl⟩
  | some block =>
    cases table with
    | none =>
      refine ⟨_, rfl, fun r hr => ?_, rfl, rfl⟩
      have hrh := hr ⟨block, sizeofMemBlock⟩ (by simp [written])
      unfold Region.Apart sizeofMemBlock at hrh
      dsimp only at hrh
      exact (sameOn_fill (by unfold sizeofMemBlock; omega)).trans (sameOn_storePtr (by omega))
    | some t =>
      cases data with
      | some d => cases hb
      | none =>
        obtain ⟨htpos, htlt⟩ := hsp.addresses t (by simp [Grant.answers])
        have hwh := (List.pairwise_append.1 hsp.apart).1
        simp only [written, List.pairwise_cons, List.mem_cons, List.not_mem_nil, or_false,
          forall_eq] at hwh
        obtain ⟨w', hw', -, -, hsame, hobt, hrel⟩ :=
          table_built w htpos htlt hn.2 hwh.1 (sizeT (i32 (n + 1)))
        unfold memPoolAllocBlock
        dsimp only
        rw [hw']
        refine ⟨_, rfl, fun r hr => ?_, hobt, hrel⟩
        have hrw := hr (wordsAt t n) (by simp [written])
        have hrh := hr ⟨block, sizeofMemBlock⟩ (by simp [written])
        refine (hsame r hrw hrh).trans ?_
        unfold Region.Apart sizeofMemBlock at hrh
        dsimp only at hrh
        exact sameOn_storePtr (by omega)

end GameServer.RawPool
