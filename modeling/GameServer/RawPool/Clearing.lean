/-
  What `mem_pool_free` clears, with the pool in memory.

  Whatever the elements hold, `mem_pool_free` clears the element it is given and touches no
  other element and no other block, if and only if the pointer is one that clears alone
  (`clears_iff_alone`). That is the condition of the pool without addresses, on a pool whose
  elements lie in their data areas, and where the four cleared bytes lie in no header, no
  table and not in `mem_pool_t`.
-/
import GameServer.RawPool.Accounts

namespace GameServer.RawPool

open CInt Memory Region Runs
open Pool (MemBlock Heap Element sizeofInt)

/-- The elements of every block lie in its data area. -/
def ElementsInData (h : Heap) : Prop :=
  ∀ b ∈ h.blocks, ∀ k, 0 ≤ k → k < b.elemNum →
    0 ≤ k * b.elemSize ∧ (k + 1) * b.elemSize ≤ b.dataAt.size

/-- The same session with other `contents` in the data areas. -/
def Session.withData (s : Session) (contents : Mem) : Session :=
  { s with world := { s.world with
      bytes := fun a =>
        if ∃ b ∈ s.heap.blocks, b.dataAt.Contains a then contents a else s.world.bytes a } }

/-- From `w` to `w'` the element at `p` is cleared, the bytes of every other element stay, and
    so does every block but the one that `p` belongs to. -/
structure Cleared (w w' : World) (pool p : Int) : Prop where
  cleared : ∃ pos b k, Element (view w pool) p pos b k ∧
    (∀ a, p ≤ a → a < p + b.elemSize → w'.bytes a = 0) ∧
    ∀ i, i ≠ pos → (view w' pool).blocks[i]? = (view w pool).blocks[i]?
  others : ∀ q i c j, Element (view w pool) q i c j → q ≠ p →
    ∀ a, q ≤ a → a < q + c.elemSize → w'.bytes a = w.bytes a

/-- `mem_pool_free(pool, p)` clears the element at `p`, and no other memory of the user. -/
def ClearsElement (s : Session) (p : Int) : Prop :=
  ∃ w, memPoolFree s.world s.pool p = .ok w ∧ Cleared s.world w s.pool p

variable {es n : Int} {s : Session} {calls : List Call} {g : Grant} {p : Int}

/-! ## One call -/

/-- The data areas may hold anything. -/
theorem Sound.withData (hs : Sound s) (contents : Mem) :
    Models (s.withData contents).world s.pool s.heap := by
  refine Models.congr_bytes hs fun r hr a ha => if_neg ?_
  rintro ⟨b, hb, hin⟩
  have hapart := Models.data_apart hs hb r hr
  unfold Region.Apart Region.Contains at *
  omega

/-- The bytes of an element are in its block's data area. -/
theorem ElementsInData.contains {h : Heap} (hin : ElementsInData h) {q : Int} {i : Nat}
    {c : MemBlock} {j : Int} (he : Element h q i c j) {a : Int} (hlo : q ≤ a)
    (hhi : a < q + c.elemSize) : c ∈ h.blocks ∧ c.dataAt.Contains a := by
  have hmem := List.mem_of_getElem? he.block
  obtain ⟨hfrom, hto⟩ := hin c hmem j he.nonneg he.lt
  have haddr : q = c.dataAt.base + j * c.elemSize := he.addr
  rw [Int.add_mul, Int.one_mul] at hto
  exact ⟨hmem, by unfold Region.Contains; omega⟩

/-- The same before and after, in memory and without addresses, is the same effect. -/
theorem cleared_iff {w w' : World} {pool : Int} {h : Heap} {contents : Mem}
    (hview : view w pool = h)
    (hblocks : (view w' pool).blocks =
      (Pool.memPoolFree { h with bytes := contents } p).blocks)
    (hsame : ∀ q i c j, Element h q i c j → ∀ a, q ≤ a → a < q + c.elemSize →
      w.bytes a = contents a ∧
        w'.bytes a = (Pool.memPoolFree { h with bytes := contents } p).bytes a) :
    Cleared w w' pool p ↔ Pool.ClearsElement { h with bytes := contents } p := by
  subst hview
  constructor
  · rintro ⟨⟨pos, b, k, he, hzero, hkept⟩, hothers⟩
    rw [hblocks] at hkept
    refine ⟨⟨pos, b, k, (Pool.element_withBytes _).2 he, fun a hlo hhi => ?_, hkept⟩, ?_⟩
    · rw [← (hsame p pos b k he a hlo hhi).2]
      exact hzero a hlo hhi
    · intro q i c j hq hne a hlo hhi
      have hq' := (Pool.element_withBytes _).1 hq
      obtain ⟨hold, hnew⟩ := hsame q i c j hq' a hlo hhi
      exact (hnew.symm.trans (hothers q i c j hq' hne a hlo hhi)).trans hold
  · rintro ⟨⟨pos, b, k, he, hzero, hkept⟩, hothers⟩
    have he' := (Pool.element_withBytes _).1 he
    refine ⟨⟨pos, b, k, he', fun a hlo hhi => ?_, ?_⟩, ?_⟩
    · rw [(hsame p pos b k he' a hlo hhi).2]
      exact hzero a hlo hhi
    · rw [hblocks]
      exact hkept
    · intro q i c j hq hne a hlo hhi
      obtain ⟨hold, hnew⟩ := hsame q i c j hq a hlo hhi
      have hq' := (Pool.element_withBytes contents).2 hq
      exact (hnew.trans (hothers q i c j hq' hne a hlo hhi)).trans hold.symm

/-- `mem_pool_free` in memory and without addresses, whatever the data areas hold. -/
theorem Sound.clearsElement_iff (hs : Sound s) (hes : ∀ b ∈ s.heap.blocks, 0 < b.elemSize)
    (hin : ElementsInData s.heap) (hc : Clear s (.free p)) (contents : Mem) :
    ClearsElement (s.withData contents) p ↔
      Pool.ClearsElement { s.heap with bytes := contents } p := by
  have hm := hs.withData contents
  rcases hm.free hc with ⟨f, -, b, hb, hoffset⟩ | ⟨w, hraw, hm', hbytes⟩
  · exact absurd hoffset (hm.freeOffset_ok hb (hes b hb) p f)
  have hpoint := Pool.free_congr s.heap p (s.withData contents).world.bytes contents
  have hiff : Cleared (s.withData contents).world w s.pool p ↔
      Pool.ClearsElement { s.heap with bytes := contents } p := by
    refine cleared_iff hm.view_eq ?_ fun q i c j he a hlo hhi => ?_
    · rw [hm'.view_eq]
      exact (Pool.free_congr s.heap p s.heap.bytes contents).1
    · obtain ⟨hmem, hdata⟩ := hin.contains he hlo hhi
      have hold : (s.withData contents).world.bytes a = contents a := if_pos ⟨c, hmem, hdata⟩
      refine ⟨hold, (hbytes a fun r hr hr' => ?_).trans (hpoint.2 a hold)⟩
      have hapart := hm.data_apart hmem r hr
      unfold Region.Apart Region.Contains at *
      omega
  constructor
  · rintro ⟨w', hw', hcleared⟩
    obtain rfl : w = w' := Except.ok.inj (hraw.symm.trans hw')
    exact hiff.1 hcleared
  · exact fun hcleared => ⟨w, hraw, hiff.2 hcleared⟩

/-! ## Runs -/

/-- In every state that a tidy run reaches, and for every pointer whose four bytes lie in no
    header, no table and not in `mem_pool_t`: `mem_pool_free` clears its element, whatever the
    data areas hold, and touches no other element and no other block, if and only if it is
    cleared alone. -/
theorem clears_iff_alone (hes : 0 < es) (hesmax : es ≤ intMax) (hn : InInt n)
    (hb : Begun g es n s) (ht : Along Session.step Tidy s calls)
    (hc : Clear (exec Session.step s calls) (.free p))
    (hin : ElementsInData (exec Session.step s calls).heap) :
    (∀ contents, ClearsElement ((exec Session.step s calls).withData contents) p) ↔
      Pool.ClearsAlone (exec Session.step s calls).heap p := by
  have hes' : InInt es := ⟨by unfold intMin; omega, hesmax⟩
  have hkept : Kept es n (exec Session.step s calls) :=
    exec_inv (fun _ _ hs ht => Kept.step hes hn.2 hs ht) (hb.kept hes' hn) ht
  have hsized : ∀ b ∈ (exec Session.step s calls).heap.blocks, Pool.Sized es b :=
    hkept.regular.sized
  have hsize : (exec Session.step s calls).heap.pool.elemSize = es := hkept.regular.elemSize
  have hpool : (∀ contents, ClearsElement ((exec Session.step s calls).withData contents) p) ↔
      ∀ contents, Pool.ClearsElement
        { (exec Session.step s calls).heap with bytes := contents } p :=
    forall_congr' fun contents =>
      hkept.sound.clearsElement_iff (fun b hb => (hsized b hb).1 ▸ hes) hin hc contents
  rw [hpool]
  refine Pool.clears_iff ?_ hkept.regular.listed ?_
  · rw [hsize]
    exact hes
  · rw [hsize]
    exact hsized

/-- The pool of three elements after its first was taken and written to. -/
def firstTaken : List Call := [.malloc (grantAt 2000), .store 1130 255]

theorem firstTaken_cleared :
    ClearsElement ((exec Session.step smallSession firstTaken).withData fun _ => 1) 1128 := by
  have hfields : (exec Session.step smallSession firstTaken).heap.blocks.map
      (fun b => (b.elemSize, b.elemNum, b.dataAt)) = [(4, 3, ⟨1128, 16⟩)] := by decide +kernel
  obtain ⟨b, hblocks, hb⟩ := List.map_eq_singleton_iff.1 hfields
  simp only [Prod.mk.injEq] at hb
  obtain ⟨hsize, hnum, hdata⟩ := hb
  have hslot : ∀ k, slot b.data b.elemSize k = 1128 + k * 4 := by
    intro k
    show b.dataAt.base + k * b.elemSize = _
    rw [hdata, hsize]
  have hin : ElementsInData (exec Session.step smallSession firstTaken).heap := by
    intro c hc k hk hkn
    rw [hblocks, List.mem_singleton] at hc
    rw [hc, hnum] at hkn
    rw [hc, hsize, hdata]
    dsimp only
    omega
  refine (clears_iff_alone (by decide) (by decide) (by decide) smallSession_begun
    (by decide +kernel) (by decide +kernel) hin).2
    ⟨by decide +kernel, fun q i c j he hne => ?_, ?_⟩ _
  · obtain ⟨-, rfl⟩ := he.single hblocks
    have haddr := he.addr.trans (hslot j)
    have hpos := he.nonneg
    exact Or.inr (by unfold sizeofInt; omega)
  · have hat : (exec Session.step smallSession firstTaken).heap.blocks[0]? = some b := by
      rw [hblocks]
      rfl
    have hmirror : Pool.Mirrors b 1128 := by
      refine ⟨0, ?_⟩
      unfold MemBlock.data
      rw [hdata, hsize, hnum]
      decide
    exact ⟨0, b, 0, 0, b, ⟨hat, by decide, by omega, (hslot 0).symm⟩,
      ⟨hat, hmirror, fun i d hi => absurd hi (Nat.not_lt_zero i)⟩, Or.inl rfl⟩

/-- `mem_pool_create(8, 3)` -/
def eightSession : Session := sessionOf (grantAt 1000) 8 3

/-- One element, filled with ones. -/
def onesWritten : List Call :=
  .malloc (grantAt 2000) :: (List.range 8).map fun i => .store (1128 + (i : Int)) 1

/-- Of an element of eight bytes, all of them 1, the last four are not cleared. -/
theorem half_element_cleared : Begun (grantAt 1000) 8 3 eightSession ∧
    Along Session.step Tidy eightSession onesWritten ∧
    1128 ∈ (exec Session.step eightSession onesWritten).live ∧
    Clear (exec Session.step eightSession onesWritten) (.free 1128) ∧
    ¬ ClearsElement (exec Session.step eightSession onesWritten) 1128 := by
  refine ⟨⟨fun _ => 7, 16, rfl, by decide⟩, by decide +kernel, by decide +kernel,
    by decide +kernel, ?_⟩
  rintro ⟨w, hw, ⟨pos, b, k, he, hzero, -⟩, -⟩
  have hsizes : (exec Session.step eightSession onesWritten).heap.blocks.map
      MemBlock.elemSize = [8] := by decide +kernel
  have hsize : b.elemSize ∈ [(8 : Int)] := by
    rw [← hsizes]
    exact List.mem_map_of_mem (List.mem_of_getElem? he.block)
  have hkept : (memPoolFree (exec Session.step eightSession onesWritten).world
      (exec Session.step eightSession onesWritten).pool 1128).map (fun w => w.bytes 1132) =
        .ok 1 := by decide +kernel
  rw [hw] at hkept
  have hbyte : w.bytes 1132 = 1 := Except.ok.inj hkept
  rw [List.mem_singleton] at hsize
  rw [hzero 1132 (by decide) (by omega)] at hbyte
  exact absurd hbyte (by decide)

end GameServer.RawPool
