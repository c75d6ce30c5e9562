/-
  What a hash in memory holds. `Live fcn s t T l`: the table `T` at `t` holds the elements `l`
  in this app order, each of them in its bucket. A hash is the handles of its elements and its
  table, so that what touches neither leaves it alone (`Holds.frame`).
-/
import GameServer.Uthash.Expand

namespace GameServer.Uthash

open DoublyLinked ListUpdate

variable {α τ : Type} {s s' : Store α τ} {t : τ} {T T' : Table α} {l : List α} {x : α}
  {hh hh' : Handles α τ} {fcn : List UInt8 → UInt32} {mem : Malloc τ} {rounds : Nat}

structure Live (fcn : List UInt8 → UInt32) (s : Store α τ) (t : τ) (T : Table α) (l : List α) :
    Prop where
  table : s.tables t = some T
  tbl : ∀ a ∈ l, s.hh.tbl a = some t
  hashv : ∀ a ∈ l, s.hh.hashv a = fcn (s.hh.key a)
  order : Chain s.hh.next s.hh.prev none l
  tail : T.tail = l.getLast?
  items : T.numItems = l.length
  buckets : Bucketed s.hh T l

/-- What `head` stands for: no table and no elements, or a table with some. -/
def Holds (fcn : List UInt8 → UInt32) (s : Store α τ) : Option τ → List α → Prop
  | none, l => l = []
  | some t, l => l ≠ [] ∧ ∃ T, Live fcn s t T l

/-! ## What an operation leaves alone -/

structure SameAt (hh hh' : Handles α τ) (a : α) : Prop where
  tbl : hh'.tbl a = hh.tbl a
  prev : hh'.prev a = hh.prev a
  next : hh'.next a = hh.next a
  hhPrev : hh'.hhPrev a = hh.hhPrev a
  hhNext : hh'.hhNext a = hh.hhNext a
  key : hh'.key a = hh.key a
  hashv : hh'.hashv a = hh.hashv a

/-- Only the handles of `l` and the table at `t` may have changed. -/
structure Frame (s s' : Store α τ) (l : List α) (t : τ) : Prop where
  handles : ∀ a ∉ l, SameAt s.hh s'.hh a
  tables : ∀ t' ≠ t, s'.tables t' = s.tables t'

theorem SameAt.trans {hh'' : Handles α τ} {a : α} (h : SameAt hh hh' a) (h' : SameAt hh' hh'' a) :
    SameAt hh hh'' a :=
  ⟨h'.tbl.trans h.tbl, h'.prev.trans h.prev, h'.next.trans h.next, h'.hhPrev.trans h.hhPrev,
    h'.hhNext.trans h.hhNext, h'.key.trans h.key, h'.hashv.trans h.hashv⟩

theorem Frame.trans {s'' : Store α τ} (h : Frame s s' l t) (h' : Frame s' s'' l t) :
    Frame s s'' l t :=
  ⟨fun a ha => (h.handles a ha).trans (h'.handles a ha),
    fun t' ht' => (h'.tables t' ht').trans (h.tables t' ht')⟩

theorem Relinked.sameAt (h : Relinked hh hh' l) {a : α} (ha : a ∉ l) : SameAt hh hh' a := by
  refine ⟨?_, ?_, ?_, h.prev a ha, h.next a ha, ?_, ?_⟩ <;> rw [h.fields]

theorem Bucketed.congr (h : Bucketed hh T l) (hnext : ∀ a ∈ l, hh'.hhNext a = hh.hhNext a)
    (hprev : ∀ a ∈ l, hh'.hhPrev a = hh.hhPrev a)
    (hhashv : ∀ a ∈ l, hh'.hashv a = hh.hashv a) : Bucketed hh' T l := by
  obtain ⟨cs, hfill, hperm⟩ := h.filled
  exact ⟨h.log2, h.num, h.length,
    ⟨cs, hfill.congr (fun a ha => hnext a (hperm.mem_iff.1 ha))
      (fun a ha => hprev a (hperm.mem_iff.1 ha)) fun a ha => hhashv a (hperm.mem_iff.1 ha), hperm⟩,
    h.loaded⟩

/-- Every hash value has its bucket. -/
theorem Bucketed.bkt_lt (h : Bucketed hh T l) (hashv : UInt32) :
    hashToBkt hashv T.numBuckets < T.buckets.length := by
  rw [h.length, h.num]
  exact hashToBkt_lt hashv (Nat.lt_succ_of_le (h.log2.trans (by omega)))

theorem Bucketed.nodup (h : Bucketed hh T l) : l.Nodup := by
  obtain ⟨cs, hfill, hperm⟩ := h.filled
  exact hperm.nodup_iff.1 hfill.nodup

theorem Bucketed.perm (h : Bucketed hh T l) {l' : List α} (hperm : l.Perm l') :
    Bucketed hh T l' := by
  obtain ⟨cs, hfill, hcs⟩ := h.filled
  exact ⟨h.log2, h.num, h.length, ⟨cs, hfill, hcs.trans hperm⟩, h.loaded⟩

theorem Live.congr (h : Live fcn s t T l) (hsame : ∀ a ∈ l, SameAt s.hh s'.hh a)
    (htable : s'.tables t = s.tables t) : Live fcn s' t T l := by
  refine ⟨htable.trans h.table, fun a ha => (hsame a ha).tbl.trans (h.tbl a ha), fun a ha => ?_,
    h.order.congr (fun a ha => (hsame a ha).next) fun a ha => (hsame a ha).prev, h.tail, h.items,
    h.buckets.congr (fun a ha => (hsame a ha).hhNext) (fun a ha => (hsame a ha).hhPrev)
      fun a ha => (hsame a ha).hashv⟩
  rw [(hsame a ha).hashv, (hsame a ha).key, h.hashv a ha]

/-- Another hash is not touched. -/
theorem Holds.frame {tp : Option τ} {m : List α} (h : Holds fcn s tp m) (hframe : Frame s s' l t)
    (hdisj : ∀ a ∈ m, a ∉ l) (ht : tp ≠ some t) : Holds fcn s' tp m := by
  cases tp with
  | none => exact h
  | some t' =>
    obtain ⟨hne, T, hlive⟩ := h
    exact ⟨hne, T, hlive.congr (fun a ha => hframe.handles a (hdisj a ha))
      (hframe.tables t' fun heq => ht (heq ▸ rfl))⟩

theorem Holds.nodup {tp : Option τ} (h : Holds fcn s tp l) : l.Nodup := by
  cases tp with
  | none => exact h ▸ List.nodup_nil
  | some t => exact h.2.elim fun T hlive => hlive.buckets.nodup

theorem tbl_eq {a : α} (ha : s.hh.tbl a = some t) (ht : s.tables t = some T) :
    s.tbl (some a) = .ok (t, T) := by
  unfold Store.tbl
  dsimp only
  rw [ha]
  dsimp only
  rw [ht]

theorem bucket_eq {i : Nat} {b : Bucket α} (hb : T.buckets[i]? = some b) : T.bucket i = .ok b := by
  unfold Table.bucket
  rw [hb]

end GameServer.Uthash
