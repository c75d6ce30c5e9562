/-
  The pointers that `mem_pool_malloc` returns.

  In a state that a run of `Intact` calls reaches, such a call returns a slot of one of the
  pool's blocks, which is not live (`freshPointer_of_inv`).
-/
import GameServer.MemPool.Session

namespace GameServer.Pool

open CInt Region Runs

/-- `p` is the address of a slot `0 ≤ k ≤ block->elem_num` of a block of the pool. -/
def InPool (h : Heap) (p : Int) : Prop :=
  ∃ b ∈ h.poolBlocks, ∃ k, 0 ≤ k ∧ k ≤ b.elemNum ∧ p = b.data + k * h.pool.elemSize

/-- A call of `mem_pool_malloc` returns a slot of the pool, and no pointer that is live. -/
def FreshPointer (s : Session) : Call → Prop
  | .malloc g => ∃ p h', memPoolMalloc s.heap g = .ok (some p, h') ∧ InPool h' p ∧ p ∉ s.live
  | .free _ => True

theorem HandedOut.inPool {es n p : Int} {s : Session} (hi : Inv es n s)
    (hp : HandedOut es s.heap.blocks p) : InPool s.heap p := by
  obtain ⟨pos, b, k, hb, hk0, hkh, rfl⟩ := hp
  have hhead := (hi.bump_at hb).head_le
  refine ⟨b, ?_, k, hk0, by omega, ?_⟩
  · rw [hi.linked.poolBlocks]
    exact List.mem_of_getElem? hb
  · rw [hi.elemSize]
    rfl

theorem freshPointer_of_inv {es n : Int} (hes : 0 < es) (hn : 0 ≤ n)
    (hfits : es * (n + 1) ≤ intMax) {s : Session} (hi : Inv es n s) {c : Call}
    (ha : Allowed s c) (hin : Intact s c) : FreshPointer s c := by
  cases c with
  | malloc g =>
    obtain ⟨p, h', hm, hg⟩ := malloc_gives hi.linked ha
    have hi' := inv_gives hes hn hfits hi hg hin
    have hp := gives_handedOut hes hn hfits hi hg hin
    refine ⟨p, h', hm, HandedOut.inPool hi' hp, fun hlive => ?_⟩
    exact gives_fresh hes hn hfits hi hg hin (hi.live p hlive)
  | free p => trivial

end GameServer.Pool
