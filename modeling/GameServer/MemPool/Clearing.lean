/-
  What `mem_pool_free` clears.

  It clears `sizeof(block->elem_size)` bytes at the pointer, which are the four bytes of an
  `int` and not `elem_size` bytes, and it does so when any block accepts the pointer, whose
  table it then changes. So the element that is freed is cleared, and nothing else is
  touched, if and only if elements are no wider than four bytes, the four bytes meet no
  other element, and the block found is the owner or one that the store does not change
  (`clears_iff`).
-/
import GameServer.MemPool.Search
import GameServer.MemPool.Destroy

namespace GameServer.Pool

open CInt Region Runs

/-- `mem_pool_free(p)` clears the element at `p`, leaves the bytes of every other element, and
    leaves every block but the one that `p` belongs to. -/
structure ClearsElement (h : Heap) (p : Int) : Prop where
  cleared : ∃ pos b k, Element h p pos b k ∧
    (∀ a, p ≤ a → a < p + b.elemSize → (memPoolFree h p).bytes a = 0) ∧
    ∀ i, i ≠ pos → (memPoolFree h p).blocks[i]? = h.blocks[i]?
  others : ∀ q i c j, Element h q i c j → q ≠ p →
    ∀ a, q ≤ a → a < q + c.elemSize → (memPoolFree h p).bytes a = h.bytes a

/-- The block `c` at `j` is the first in the list that mirrors `p`. -/
structure FirstMirror (h : Heap) (p : Int) (j : Nat) (c : MemBlock) : Prop where
  block : h.blocks[j]? = some c
  mirrors : Mirrors c p
  first : ∀ (i : Nat) (d : MemBlock), i < j → h.blocks[i]? = some d → ¬ Mirrors d p

/-- The free list of `b` already ends with the slot as which it mirrors `p`. -/
structure EndsAt (b : MemBlock) (p : Int) : Prop where
  nonneg : 0 ≤ b.table b.tail
  lt : b.table b.tail < b.elemNum
  ends : b.table (b.table b.tail) = endOfMem
  slot : ∃ j : Int, (ptrDiff b.data p).tdiv b.elemSize = j * 2 ^ 32 + b.table b.tail

/-- The four bytes at `p` cover its element and no other, and the first block that mirrors it
    is its own, or one whose free list already ends there. -/
structure ClearsAlone (h : Heap) (p : Int) : Prop where
  width : h.pool.elemSize ≤ sizeofInt
  alone : ∀ q i c j, Element h q i c j → q ≠ p →
    q + c.elemSize ≤ p ∨ p + sizeofInt ≤ q
  found : ∃ pos b k j c, Element h p pos b k ∧ FirstMirror h p j c ∧ (j = pos ∨ EndsAt c p)

/-- The sizes of the blocks are those of a pool of elements of `es` bytes. -/
def Sized (es : Int) (b : MemBlock) : Prop :=
  b.elemSize = es ∧ b.elemNum ≤ intMax ∧ b.tail = b.elemNum

/-! ## One call -/

/-- Giving a slot back changes nothing in a block that already ends with it. -/
theorem putBack_eq_iff {es : Int} {b : MemBlock} (hb : Sized es b) {p : Int}
    (ha : b.accepts p = true) : b.putBack (b.freeOffset p) = b ↔ EndsAt b p := by
  obtain ⟨-, hmax, htail⟩ := hb
  unfold MemBlock.accepts at ha
  rw [Bool.and_eq_true, decide_eq_true_eq, decide_eq_true_eq] at ha
  obtain ⟨hlo, hhi⟩ := ha
  have htable : b.putBack (b.freeOffset p) = b ↔
      Function.update (Function.update b.table b.tail (b.freeOffset p)) (b.freeOffset p) endOfMem =
        b.table := by
    constructor
    · exact fun heq => congrArg MemBlock.table heq
    · intro heq
      unfold MemBlock.putBack
      rw [heq]
  have hoffset : b.freeOffset p = b.table b.tail ∧ b.table (b.table b.tail) = endOfMem ↔
      EndsAt b p := by
    constructor
    · rintro ⟨heq, hends⟩
      refine ⟨by omega, by omega, hends, (i32_eq_iff (by omega) (by omega)).1 heq⟩
    · rintro ⟨hnonneg, hlt, hends, hslot⟩
      exact ⟨(i32_eq_iff hnonneg (by omega)).2 hslot, hends⟩
  rw [htable, ← hoffset]
  generalize b.freeOffset p = offset at hlo hhi
  constructor
  · intro heq
    have hatTail := congrFun heq b.tail
    have hatOffset := congrFun heq offset
    rw [Function.update_of_ne (by omega), Function.update_self] at hatTail
    rw [Function.update_self] at hatOffset
    rw [← hatTail]
    exact ⟨rfl, hatOffset.symm⟩
  · rintro ⟨rfl, hends⟩
    rw [Function.update_eq_self, ← hends, Function.update_eq_self]

/-- On a pool whose list has all its blocks, the search stops at the first mirror. -/
theorem search_iff_firstMirror {h : Heap} (hl : h.Listed)
    (hb : ∀ b ∈ h.blocks, Sized h.pool.elemSize b) {p : Int} {j : Nat} :
    h.search (·.accepts p) = some j ↔ ∃ c, FirstMirror h p j c := by
  have hmirrors : ∀ {i : Nat} {d : MemBlock}, h.blocks[i]? = some d →
      (d.accepts p = true ↔ Mirrors d p) :=
    fun hd => accepts_iff (hb _ (List.mem_of_getElem? hd)).2.1 p
  rw [hl.search_some]
  constructor
  · rintro ⟨c, hc, haccepts, hfirst⟩
    refine ⟨c, hc, (hmirrors hc).1 haccepts, fun i d hi hd => ?_⟩
    rw [← hmirrors hd, hfirst i d hi hd]
    decide
  · rintro ⟨c, hc, hm, hfirst⟩
    refine ⟨c, hc, (hmirrors hc).2 hm, fun i d hi hd => ?_⟩
    rw [← Bool.not_eq_true, hmirrors hd]
    exact hfirst i d hi hd

/-- Four bytes of a found pointer are cleared, and its offset goes into one block. -/
theorem free_found {h : Heap} {p : Int} {j : Nat} (hs : h.search (·.accepts p) = some j) :
    (∀ a, (memPoolFree h p).bytes a = if p ≤ a ∧ a < p + sizeofInt then 0 else h.bytes a) ∧
      ∀ i, (memPoolFree h p).blocks[i]? =
        if i = j then (h.blocks[i]?).map fun b => b.putBack (b.freeOffset p) else h.blocks[i]? := by
  rw [free_hit hs]
  refine ⟨fun a => rfl, fun i => ?_⟩
  by_cases hij : i = j <;> simp [hij, Ne.symm]

/-- What the elements hold plays no part in what `mem_pool_free` does, byte by byte. -/
theorem free_congr (h : Heap) (p : Int) (f g : Int → UInt8) :
    (memPoolFree { h with bytes := f } p).blocks = (memPoolFree { h with bytes := g } p).blocks ∧
      ∀ a, f a = g a →
        (memPoolFree { h with bytes := f } p).bytes a =
          (memPoolFree { h with bytes := g } p).bytes a := by
  have hsearch : ∀ bytes, Heap.search { h with bytes := bytes } (·.accepts p) =
      h.search (·.accepts p) := fun _ => rfl
  cases hs : h.search (·.accepts p) with
  | none =>
    rw [free_miss ((hsearch f).trans hs), free_miss ((hsearch g).trans hs)]
    exact ⟨rfl, fun a ha => ha⟩
  | some pos =>
    rw [free_hit ((hsearch f).trans hs), free_hit ((hsearch g).trans hs)]
    refine ⟨rfl, fun a ha => ?_⟩
    show memset f p 0 sizeofInt a = memset g p 0 sizeofInt a
    unfold memset
    rw [ha]

section OneCall

variable {h : Heap} {p : Int}

/-- The bytes play no part in the condition. -/
theorem ClearsAlone.congr (hc : ClearsAlone h p) (h' : Heap) (hblocks : h'.blocks = h.blocks)
    (hpool : h'.pool = h.pool) : ClearsAlone h' p := by
  obtain ⟨pos, b, k, j, c, he, ⟨hb, hm, hfirst⟩, hwhere⟩ := hc.found
  refine ⟨hpool ▸ hc.width, fun q i d l hq => hc.alone q i d l (hq.congr hblocks.symm), ?_⟩
  rw [← hblocks] at hb hfirst
  exact ⟨pos, b, k, j, c, he.congr hblocks, ⟨hb, hm, hfirst⟩, hwhere⟩

theorem ClearsAlone.clears (hl : h.Listed) (hb : ∀ b ∈ h.blocks, Sized h.pool.elemSize b)
    (hc : ClearsAlone h p) : ClearsElement h p := by
  obtain ⟨pos, b, k, j, c, he, hfirst, hwhere⟩ := hc.found
  have hs := (search_iff_firstMirror hl hb).2 ⟨c, hfirst⟩
  obtain ⟨hbytes, hblocks⟩ := free_found hs
  have hwidth : b.elemSize ≤ sizeofInt := (hb b (List.mem_of_getElem? he.block)).1 ▸ hc.width
  refine ⟨⟨pos, b, k, he, fun a hlo hhi => ?_, fun i hi => ?_⟩, fun q i d l hq hne a hlo hhi => ?_⟩
  · rw [hbytes, if_pos ⟨hlo, by omega⟩]
  · rw [hblocks]
    by_cases hij : i = j
    · have hends := hwhere.resolve_left fun hj => hi (hij.trans hj)
      have hsized := hb c (List.mem_of_getElem? hfirst.block)
      have haccepts := (accepts_iff hsized.2.1 p).2 hfirst.mirrors
      rw [if_pos hij, hij, hfirst.block, Option.map_some,
        (putBack_eq_iff hsized haccepts).2 hends]
    · rw [if_neg hij]
  · have hapart := hc.alone q i d l hq hne
    rw [hbytes, if_neg (by omega)]

/-- An element that is cleared in memory full of ones is cleared alone. -/
theorem ClearsElement.alone (hes : 0 < h.pool.elemSize) (hl : h.Listed)
    (hb : ∀ b ∈ h.blocks, Sized h.pool.elemSize b) (hones : ∀ a, h.bytes a = 1)
    (hc : ClearsElement h p) : ClearsAlone h p := by
  have hsize : ∀ {q : Int} {i : Nat} {d : MemBlock} {l : Int}, Element h q i d l →
      d.elemSize = h.pool.elemSize := fun he => (hb _ (List.mem_of_getElem? he.block)).1
  have hone : (1 : UInt8) ≠ 0 := by decide
  obtain ⟨⟨pos, b, k, he, hzero, hsame⟩, hothers⟩ := hc
  have hwide := hsize he
  cases hs : h.search (·.accepts p) with
  | none =>
    have hkept := hzero p (by omega) (by omega)
    rw [free_miss hs, hones] at hkept
    exact absurd hkept hone
  | some j =>
    obtain ⟨hbytes, hblocks⟩ := free_found hs
    obtain ⟨c, hfirst⟩ := (search_iff_firstMirror hl hb).1 hs
    refine ⟨?_, fun q i d l hq hne => ?_, pos, b, k, j, c, he, hfirst, ?_⟩
    · by_contra hwider
      have hkept := hzero (p + sizeofInt) (by omega) (by omega)
      rw [hbytes, if_neg (by omega), hones] at hkept
      exact hone hkept
    · -- a byte of `q` among the four would not be a one any more
      by_contra hmeet
      have hd := hsize hq
      unfold sizeofInt at hmeet hbytes
      have hin : q ≤ max p q ∧ max p q < q + d.elemSize := by omega
      have hkept := hothers q i d l hq hne (max p q) hin.1 hin.2
      rw [hbytes, if_pos (by omega), hones] at hkept
      exact hone hkept.symm
    · refine or_iff_not_imp_left.2 fun hj => ?_
      have hkept := hsame j hj
      rw [hblocks, if_pos rfl, hfirst.block, Option.map_some, Option.some.injEq] at hkept
      have hsized := hb c (List.mem_of_getElem? hfirst.block)
      exact (putBack_eq_iff hsized ((accepts_iff hsized.2.1 p).2 hfirst.mirrors)).1 hkept

/-- For every pool whose list has all its blocks, and every pointer. -/
theorem clears_iff (hes : 0 < h.pool.elemSize) (hl : h.Listed)
    (hb : ∀ b ∈ h.blocks, Sized h.pool.elemSize b) :
    (∀ bytes, ClearsElement { h with bytes := bytes } p) ↔ ClearsAlone h p := by
  constructor
  · intro hall
    have hones : ClearsAlone { h with bytes := fun _ => 1 } p :=
      (hall fun _ => 1).alone hes hl hb fun _ => rfl
    exact hones.congr h rfl rfl
  · intro hc bytes
    have hc' : ClearsAlone { h with bytes := bytes } p := hc.congr _ rfl rfl
    exact hc'.clears hl hb

end OneCall

/-! ## Runs -/

/-- What holds in every state of a run of the pool made by `mem_pool_create(es, n)`, also
    when it has no block and when the run has ended in a fault. -/
structure Regular (es n : Int) (s : Session) : Prop where
  shape : s.fault = none ∧ Linked s.heap ∨ s.heap.blocks = [] ∧ s.heap.pool.tail = none
  elemSize : s.heap.pool.elemSize = es
  elemNum : s.heap.pool.elemNum = n
  sized : ∀ b ∈ s.heap.blocks, Sized es b

section Runs

variable {es n : Int} {s : Session}

theorem Regular.listed (hs : Regular es n s) : s.heap.Listed := by
  rcases hs.shape with ⟨-, hl⟩ | ⟨hnone, -⟩
  · exact hl.listed
  · exact listed_of_no_blocks hnone

theorem sized_block {g : Grant} (hn : n ≤ intMax) {b : MemBlock} (hb : g.block es n = some b) :
    Sized es b := by
  obtain ⟨header, table, data, -, rfl⟩ := block_eq_some hb
  exact ⟨rfl, hn, rfl⟩

theorem tdiv_three_le (hn : n ≤ intMax) : n.tdiv 3 ≤ intMax := by
  have hle := Int.tdiv_le_tdiv (c := 3) (by omega) hn
  exact hle.trans (by decide)

/-- A call on a pool that has a block. -/
theorem Regular.step_running (hn : n ≤ intMax) (hs : Regular es n s) (hrun : Running s)
    (c : Call) : Regular es n (s.step c) := by
  have hrun' := hrun.step c
  obtain ⟨hsize, hnum⟩ := hrun.step_pool c
  refine ⟨Or.inl ⟨hrun'.noFault, hrun'.linked⟩, hsize.trans hs.elemSize,
    hnum.trans hs.elemNum, ?_⟩
  refine hrun.forall_blocks hs.sized c ?_ ?_ ?_ ?_
  · exact fun b next hb => hb
  · exact fun b hb _ => hs.sized b hb
  · intro g b _ _ hb
    rw [hs.elemSize, hs.elemNum] at hb
    have hsized : Sized es b := sized_block (tdiv_three_le hn) hb
    exact hsized
  · exact fun p b _ hb _ => hs.sized b hb

/-- A call on a pool without a block leaves it without one. -/
theorem Regular.step_blockless (hs : Regular es n s) (hf : s.fault = none)
    (hnone : s.heap.blocks = []) (htail : s.heap.pool.tail = none) (c : Call) :
    Regular es n (s.step c) := by
  cases c with
  | free p =>
    rw [step_free p hf, free_miss (search_of_no_blocks hnone _)]
    exact ⟨Or.inr ⟨hnone, htail⟩, hs.elemSize, hs.elemNum, hs.sized⟩
  | malloc g =>
    obtain ⟨-, hm⟩ := malloc_blockless hnone htail g
    split at hm
    · have hstep : s.step (.malloc g) = { s with fault := some .nullDeref } := by
        simp [Session.step, hf, hm]
      rw [hstep]
      exact ⟨Or.inr ⟨hnone, htail⟩, hs.elemSize, hs.elemNum, hs.sized⟩
    · rw [step_returns hf hm]
      exact ⟨Or.inr ⟨hnone, htail⟩, hs.elemSize, hs.elemNum, hs.sized⟩

/-- The step lemma. -/
theorem Regular.step (hn : n ≤ intMax) (hs : Regular es n s) (c : Call) :
    Regular es n (s.step c) := by
  by_cases hf : s.fault = none
  · rcases hs.shape with ⟨-, hl⟩ | ⟨hnone, htail⟩
    · exact hs.step_running hn ⟨hf, hl⟩ c
    · exact hs.step_blockless hf hnone htail c
  · have hstay : s.step c = s := exec_faulted hf [c]
    rw [hstay]
    exact hs

theorem regular_create (hn : n ≤ intMax) {poolAt : Int} {g : Grant} {h : Heap}
    (hc : memPoolCreate (some poolAt) g es n = some h) : Regular es n (.start h) := by
  by_cases hg : g.Full
  · have hrun := (create_running hg hc).2
    obtain ⟨b, hb⟩ := (g.full_iff es n).1 hg
    obtain ⟨hblocks, hpool, -⟩ := create_block hb hc
    refine ⟨Or.inl ⟨rfl, hrun.linked⟩, by rw [Session.start, hpool],
      by rw [Session.start, hpool], fun c hmem => ?_⟩
    have hmem' : c ∈ h.blocks := hmem
    rw [hblocks, List.mem_singleton] at hmem'
    rw [hmem']
    exact sized_block hn hb
  · obtain rfl := Option.some.inj ((create_blockless hg poolAt es n).symm.trans hc)
    exact ⟨Or.inr ⟨rfl, rfl⟩, rfl, rfl, fun c hmem => absurd hmem List.not_mem_nil⟩

end Runs

end GameServer.Pool
