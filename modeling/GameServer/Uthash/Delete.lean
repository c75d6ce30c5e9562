/-
  `HASH_DELETE`: the element leaves the app order and its bucket, and with the last element the
  table goes. `HASH_CLEAR` drops table and elements at once.
-/
import GameServer.Uthash.Live

namespace GameServer.Uthash

open DoublyLinked ListUpdate

variable {α τ : Type} [DecidableEq α] {s : Store α τ} {t : τ} {T : Table α}
  {l : List α} {x : α} {fcn : List UInt8 → UInt32}

/-- The app order without the element. -/
theorem unlink_chain (h : Chain s.hh.next s.hh.prev none l) (hnd : l.Nodup) (hx : x ∈ l) :
    Chain (s.hh.unlink x).next (s.hh.unlink x).prev none (l.erase x) := by
  have hne : s.hh.prev x ≠ some x := fun heq => (h.prev_mem hnd hx heq).2 rfl
  refine h.erase hnd hx (fun _ _ => by simp) (fun a _ _ => setAt_apply) fun a _ _ => ?_
  show setAt _ (setAt _ _ _ x) _ a = _
  rw [setAt_apply, setAt_apply, if_neg hne]

theorem unlink_frame (h : Chain s.hh.next s.hh.prev none l) (hnd : l.Nodup) (hx : x ∈ l) :
    ∀ a ∉ l, SameAt s.hh (s.hh.unlink x) a := by
  intro a ha
  have hne : s.hh.prev x ≠ some x := fun heq => (h.prev_mem hnd hx heq).2 rfl
  refine ⟨rfl, ?_, setAt_apply.trans (if_neg fun heq => ha (h.prev_mem hnd hx heq).1), rfl, rfl,
    rfl, rfl⟩
  show setAt _ (setAt _ _ _ x) _ a = _
  rw [setAt_apply, setAt_apply, if_neg hne, if_neg fun heq => ha (h.next_mem hnd hx heq).1]

variable [DecidableEq τ]

/-- `HASH_DEL_IN_BKT` for the bucket of the element. -/
theorem hashDelInBkt_spec (h : Bucketed s.hh T l) (hx : x ∈ l) (hlt : l.length < 2 ^ 32) :
    ∃ T', hashDelInBkt t T (home s.hh T.numBuckets x) x s =
        .ok ⟨s.hh.unlinkHh x, Function.update s.tables t (some T')⟩ ∧
      Relinked s.hh (s.hh.unlinkHh x) l ∧ T'.tail = T.tail ∧ T'.numItems = T.numItems ∧
      Bucketed (s.hh.unlinkHh x) T' (l.erase x) := by
  obtain ⟨cs, hfill, hperm⟩ := h.filled
  have hi : home s.hh T.numBuckets x < T.buckets.length := h.bkt_lt _
  have hb := List.getElem?_eq_getElem hi
  generalize T.buckets[home s.hh T.numBuckets x] = b at hb
  obtain ⟨c, hc⟩ := hfill.exists_chain hb
  have hxc : x ∈ c := (hfill.mem_iff hc).2 ⟨hperm.mem_iff.2 hx, rfl⟩
  have hok := hfill.ok _ b c hb hc
  have hnd := hfill.chain_nodup hc
  have hle : b.count ≤ l.length := hperm.length_eq ▸ hfill.count_le hb
  have hpos : 0 < b.count := hok.count ▸ List.length_pos_of_mem hxc
  have hcount : u32 (b.count + (2 ^ 32 - 1)) = b.count - 1 := u32_pred hpos (by omega)
  obtain ⟨hfill', hperm'⟩ := hfill.erase hb hc hxc
  have hmem : ∀ a ∈ c, a ∈ l := fun a ha => hperm.mem_iff.1 (mem_flatten_of_getElem? hc ha)
  refine ⟨T.setBucket (home s.hh T.numBuckets x)
      ⟨if b.hhHead = some x then s.hh.hhNext x else b.hhHead, b.count - 1, b.expandMult⟩, ?_,
    Relinked.unlinkHh s.hh (fun a ha => hmem a (hok.chain.next_mem hnd hxc ha).1) fun a ha => ?_,
    rfl, rfl, h.log2, h.num, ?_, ⟨_, hfill', hperm'.trans (hperm.erase x)⟩,
    fun hno => (h.loaded hno).shrink hb (by omega)⟩
  · simp only [hashDelInBkt, bucket_eq hb, bind, Except.bind, hcount, Store.setTable]
  · obtain ⟨hac, hax⟩ := hok.chain.prev_mem hnd hxc ha
    exact ⟨hmem a hac, hax⟩
  · rw [Table.setBucket, List.length_set]
    exact h.length

/-- When the last element goes, `tail` moves to the one before it. -/
theorem Live.cut_tail (h : Live fcn s t T l) (x : α) : ∃ T₁ : Table α,
    (if some x = T.tail then s.setTable t (some { T with tail := s.hh.prev x }) else s) =
      ⟨s.hh, Function.update s.tables t (some T₁)⟩ ∧
    T₁.tail = (l.erase x).getLast? ∧ T₁.numItems = T.numItems ∧ Bucketed s.hh T₁ l := by
  rw [h.order.getLast_erase h.buckets.nodup, ← h.tail]
  by_cases hlast : some x = T.tail
  · refine ⟨{ T with tail := s.hh.prev x }, if_pos hlast, (if_pos hlast.symm).symm, rfl, ?_⟩
    exact ⟨h.buckets.log2, h.buckets.num, h.buckets.length, h.buckets.filled, h.buckets.loaded⟩
  · refine ⟨T, ?_, (if_neg (Ne.symm hlast)).symm, rfl, h.buckets⟩
    rw [if_neg hlast, ← h.table, Function.update_eq_self]

/-- A deletion leaves the others in their order, and frees the table with the last element. -/
theorem hashDelete_spec (h : Live fcn s t T l) (hx : x ∈ l) (hlt : l.length < 2 ^ 32) :
    ∃ s' tp, hashDelete l.head? x s = .ok ((l.erase x).head?, s') ∧
      Holds fcn s' tp (l.erase x) ∧ Frame s s' l t ∧ s'.hh.key = s.hh.key ∧
      (tp = some t ∨ tp = none ∧ s'.tables t = none) := by
  have hnd := h.buckets.nodup
  have hne : l ≠ [] := List.ne_nil_of_mem hx
  have hhead : s.tbl l.head? = .ok (t, T) := by
    rw [List.head?_eq_some_head hne]
    exact tbl_eq (h.tbl _ (List.head_mem hne)) h.table
  by_cases hone : l = [x]
  · refine ⟨s.setTable t none, none, ?_, ?_,
      ⟨fun a ha => ⟨rfl, rfl, rfl, rfl, rfl, rfl, rfl⟩,
        fun t' ht' => Function.update_of_ne ht' _ _⟩,
      rfl, Or.inr ⟨rfl, Function.update_self t _ _⟩⟩
    · have hlinks := (h.order.alone_iff hx).2 hone
      simp only [hashDelete, hhead, bind, Except.bind, if_pos hlinks]
      rw [hone, List.erase_cons_head, List.head?_nil]
    · rw [hone, List.erase_cons_head]
      rfl
  · have hlinks : ¬ (s.hh.prev x = none ∧ s.hh.next x = none) := fun hnone =>
      hone ((h.order.alone_iff hx).1 hnone)
    have hne' : l.erase x ≠ [] := by
      intro hnil
      have hlen := List.length_erase_of_mem hx
      rw [hnil, List.length_nil] at hlen
      obtain ⟨y, rfl⟩ := List.length_eq_one_iff.1
        (Nat.le_antisymm (Nat.le_of_sub_eq_zero hlen.symm) (List.length_pos_iff.2 hne))
      exact hone (List.mem_singleton.1 hx ▸ rfl)
    obtain ⟨T₁, hcut, htail₁, hitems₁, hB₁⟩ := h.cut_tail x
    have hhead' : (if s.hh.prev x = none then s.hh.next x else l.head?) = (l.erase x).head? := by
      rw [h.order.head_erase]
      exact if_congr (h.order.first_iff hnd hx) rfl rfl
    have hread : ∀ (hh' : Handles α τ) (tables : τ → Option (Table α)) (T' : Table α),
        hh'.tbl = s.hh.tbl → tables t = some T' →
        Store.tbl ⟨hh', tables⟩ (l.erase x).head? = .ok (t, T') := by
      intro hh' tables T' htbl htable
      rw [List.head?_eq_some_head hne']
      refine tbl_eq ?_ htable
      rw [htbl]
      exact h.tbl _ (List.mem_of_mem_erase (List.head_mem hne'))
    have hB₂ : Bucketed (s.hh.unlink x) T₁ l :=
      hB₁.congr (fun _ _ => rfl) (fun _ _ => rfl) fun _ _ => rfl
    obtain ⟨T₂, hdel, hrel, htail₂, hitems₂, hB₃⟩ := hashDelInBkt_spec
      (s := ⟨s.hh.unlink x, Function.update s.tables t (some T₁)⟩) (t := t) hB₂ hx hlt
    have hlen : u32 (T₂.numItems + (2 ^ 32 - 1)) = (l.erase x).length := by
      rw [hitems₂, hitems₁, h.items, u32_pred (List.length_pos_of_mem hx) hlt,
        List.length_erase_of_mem hx]
    refine ⟨⟨(s.hh.unlink x).unlinkHh x, Function.update s.tables t
        (some { T₂ with numItems := u32 (T₂.numItems + (2 ^ 32 - 1)) })⟩, some t, ?_,
      ⟨hne', _, Function.update_self t _ _, fun a ha => h.tbl a (List.mem_of_mem_erase ha),
        fun a ha => h.hashv a (List.mem_of_mem_erase ha), unlink_chain h.order hnd hx,
        htail₂.trans htail₁, hlen,
        ⟨hB₃.log2, hB₃.num, hB₃.length, hB₃.filled, hB₃.loaded⟩⟩,
      ⟨fun a ha => (unlink_frame h.order hnd hx a ha).trans (hrel.sameAt ha),
        fun t' ht' => Function.update_of_ne ht' _ _⟩, rfl, Or.inl rfl⟩
    have hfst := hread (s.hh.unlink x) (Function.update s.tables t (some T₁)) T₁ rfl
      (Function.update_self t _ _)
    have hsnd := hread ((s.hh.unlink x).unlinkHh x)
      (Function.update (Function.update s.tables t (some T₁)) t (some T₂)) T₂ rfl
      (Function.update_self t _ _)
    unfold home at hdel
    dsimp only at hdel
    simp only [hashDelete, hhead, bind, Except.bind, if_neg hlinks, hcut, hhead', hfst, hdel, hsnd]
    rw [Store.setTable, Function.update_idem, Function.update_idem]

omit [DecidableEq α] in
/-- Clearing frees the table and leaves the handles alone. -/
theorem hashClear_spec {tp : Option τ} (h : Holds fcn s tp l) :
    ∃ s', hashClear l.head? s = .ok (none, s') ∧ s'.hh = s.hh ∧
      ∀ t, s'.tables t = if tp = some t then none else s.tables t := by
  cases tp with
  | none =>
    obtain rfl : l = [] := h
    exact ⟨s, rfl, rfl, fun t => (if_neg (Option.some_ne_none t).symm).symm⟩
  | some t =>
    obtain ⟨hne, T, hlive⟩ := h
    have hhead := tbl_eq (hlive.tbl _ (List.head_mem hne)) hlive.table
    refine ⟨s.setTable t none, ?_, rfl, fun t' => ?_⟩
    · rw [List.head?_eq_some_head hne]
      simp only [hashClear, hhead, bind, Except.bind]
    · show Function.update s.tables t none t' = _
      rw [Function.update_apply]
      exact if_congr ⟨fun heq => heq ▸ rfl, fun heq => (Option.some.inj heq).symm⟩ rfl rfl

end GameServer.Uthash
