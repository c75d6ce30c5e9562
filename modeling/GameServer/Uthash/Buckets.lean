/-
  The buckets of a table: which handles hang in which bucket, and what the macros that put a
  handle in and take one out do to them.

  `Filled hh n bs cs`: bucket `i` of `bs` holds the chain `cs[i]`, linked both ways, with its
  length in `count`, and every handle hangs in the bucket that `HASH_TO_BKT` gives it.
-/
import GameServer.Uthash.Basic
import GameServer.Lib.DoublyLinked
import GameServer.Lib.ListUpdate
import Mathlib.Data.List.Nodup

namespace GameServer.Uthash

open DoublyLinked ListUpdate

variable {α τ : Type} {hh hh' : Handles α τ} {n i : Nat} {bs : List (Bucket α)}
  {cs : List (List α)} {b : Bucket α} {c : List α} {x : α}

theorem u32_eq {m : Nat} (h : m < 2 ^ 32) : u32 m = m := Nat.mod_eq_of_lt h

theorem u32_pred {m : Nat} (hpos : 0 < m) (h : m < 2 ^ 32) : u32 (m + (2 ^ 32 - 1)) = m - 1 := by
  unfold u32
  omega

/-- The mask keeps the low bits of the hash value. -/
theorem hashToBkt_eq (hashv : UInt32) {k : Nat} (hk : k < 32) :
    hashToBkt hashv (2 ^ k) = hashv.toNat % 2 ^ k := by
  have hlt : 2 ^ k < 2 ^ 32 := Nat.pow_lt_pow_right (by omega) hk
  unfold hashToBkt
  rw [u32_pred (Nat.two_pow_pos k) hlt, Nat.and_two_pow_sub_one_eq_mod]

theorem hashToBkt_lt (hashv : UInt32) {k : Nat} (hk : k < 32) :
    hashToBkt hashv (2 ^ k) < 2 ^ k := by
  rw [hashToBkt_eq hashv hk]
  exact Nat.mod_lt _ (Nat.two_pow_pos k)

theorem setAt_apply {α β : Type} [DecidableEq α] {f : α → β} {p : Option α} {v : β} {a : α} :
    setAt f p v a = if p = some a then v else f a := by
  cases p with
  | none => rw [if_neg (Option.some_ne_none a).symm, setAt]
  | some b =>
    by_cases hab : b = a
    · subst hab
      rw [if_pos rfl, setAt, Function.update_self]
    · rw [if_neg fun h => hab (Option.some.inj h), setAt, Function.update_of_ne (Ne.symm hab)]

/-! ## Handles that differ in bucket links -/

/-- The handles differ in nothing but the bucket links of those in `l`. -/
structure Relinked (hh hh' : Handles α τ) (l : List α) : Prop where
  fields : hh' = { hh with hhNext := hh'.hhNext, hhPrev := hh'.hhPrev }
  next : ∀ a ∉ l, hh'.hhNext a = hh.hhNext a
  prev : ∀ a ∉ l, hh'.hhPrev a = hh.hhPrev a

namespace Relinked

variable {hh'' : Handles α τ} {l l' : List α}

theorem refl (hh : Handles α τ) (l : List α) : Relinked hh hh l :=
  ⟨rfl, fun _ _ => rfl, fun _ _ => rfl⟩

theorem trans (h : Relinked hh hh' l) (h' : Relinked hh' hh'' l) : Relinked hh hh'' l := by
  refine ⟨?_, fun a ha => (h'.next a ha).trans (h.next a ha),
    fun a ha => (h'.prev a ha).trans (h.prev a ha)⟩
  rw [h'.fields, h.fields]

theorem mono (h : Relinked hh hh' l) (hsub : ∀ a ∈ l, a ∈ l') : Relinked hh hh' l' :=
  ⟨h.fields, fun a ha => h.next a fun hmem => ha (hsub a hmem),
    fun a ha => h.prev a fun hmem => ha (hsub a hmem)⟩

theorem hashv (h : Relinked hh hh' l) : hh'.hashv = hh.hashv := by rw [h.fields]

variable [DecidableEq α]

theorem linkHh (hh : Handles α τ) {head : Option α} {x : α} (hx : x ∈ l)
    (hhead : ∀ a, head = some a → a ∈ l) : Relinked hh (hh.linkHh head x) l := by
  refine ⟨rfl, fun a ha => Function.update_of_ne (ne_of_mem_of_not_mem hx ha).symm _ _,
    fun a ha => ?_⟩
  show setAt _ _ _ a = _
  rw [setAt_apply, if_neg fun heq => ha (hhead a heq),
    Function.update_of_ne (ne_of_mem_of_not_mem hx ha).symm]

theorem unlinkHh (hh : Handles α τ) {x : α} (hnext : ∀ a, hh.hhNext x = some a → a ∈ l)
    (hprev : ∀ a, hh.hhPrev x = some a → a ∈ l ∧ a ≠ x) : Relinked hh (hh.unlinkHh x) l := by
  refine ⟨rfl, fun a ha => setAt_apply.trans (if_neg fun heq => ha (hprev a heq).1), fun a ha => ?_⟩
  show setAt _ (setAt _ _ _ x) _ a = _
  rw [setAt_apply, setAt_apply, if_neg fun heq => (hprev x heq).2 rfl,
    if_neg fun heq => ha (hnext a heq)]

end Relinked

/-! ## Chains -/

/-- The bucket of a handle among `n`. -/
def home (hh : Handles α τ) (n : Nat) (a : α) : Nat := hashToBkt (hh.hashv a) n

structure BucketOk (hh : Handles α τ) (b : Bucket α) (c : List α) : Prop where
  head : b.hhHead = c.head?
  count : b.count = c.length
  chain : Chain hh.hhNext hh.hhPrev none c

structure Filled (hh : Handles α τ) (n : Nat) (bs : List (Bucket α)) (cs : List (List α)) :
    Prop where
  length : cs.length = bs.length
  ok : ∀ (i : Nat) b c, bs[i]? = some b → cs[i]? = some c → BucketOk hh b c
  home : ∀ (i : Nat) c, cs[i]? = some c → ∀ a ∈ c, home hh n a = i
  nodup : cs.flatten.Nodup

theorem BucketOk.congr (h : BucketOk hh b c) (hnext : ∀ a ∈ c, hh'.hhNext a = hh.hhNext a)
    (hprev : ∀ a ∈ c, hh'.hhPrev a = hh.hhPrev a) : BucketOk hh' b c :=
  ⟨h.head, h.count, h.chain.congr hnext hprev⟩

theorem mem_flatten_of_getElem? {a : α} (hc : cs[i]? = some c) (ha : a ∈ c) : a ∈ cs.flatten :=
  List.mem_flatten.2 ⟨c, List.mem_of_getElem? hc, ha⟩

namespace Filled

/-- The links and hash values of other handles do not matter. -/
theorem congr (h : Filled hh n bs cs) (hnext : ∀ a ∈ cs.flatten, hh'.hhNext a = hh.hhNext a)
    (hprev : ∀ a ∈ cs.flatten, hh'.hhPrev a = hh.hhPrev a)
    (hhashv : ∀ a ∈ cs.flatten, hh'.hashv a = hh.hashv a) : Filled hh' n bs cs := by
  refine ⟨h.length, fun i b c hb hc => ?_, fun i c hc a ha => ?_, h.nodup⟩
  · exact (h.ok i b c hb hc).congr (fun a ha => hnext a (mem_flatten_of_getElem? hc ha))
      fun a ha => hprev a (mem_flatten_of_getElem? hc ha)
  · rw [← h.home i c hc a ha]
    unfold Uthash.home
    rw [hhashv a (mem_flatten_of_getElem? hc ha)]

/-- Empty buckets. -/
theorem empty (hh : Handles α τ) (n m : Nat) :
    Filled hh n (List.replicate m ⟨none, 0, 0⟩) (List.replicate m []) := by
  have hnil : ∀ (i : Nat) c, (List.replicate m ([] : List α))[i]? = some c → c = [] :=
    fun i c hc => List.eq_of_mem_replicate (List.mem_of_getElem? hc)
  refine ⟨by rw [List.length_replicate, List.length_replicate], fun i b c hb hc => ?_,
    fun i c hc a ha => ?_, ?_⟩
  · obtain rfl := List.eq_of_mem_replicate (List.mem_of_getElem? hb)
    obtain rfl := hnil i c hc
    exact ⟨rfl, rfl, trivial⟩
  · obtain rfl := hnil i c hc
    cases ha
  · rw [List.flatten_replicate_nil]
    exact List.nodup_nil

theorem exists_chain (h : Filled hh n bs cs) (hb : bs[i]? = some b) : ∃ c, cs[i]? = some c := by
  obtain ⟨hi, -⟩ := List.getElem?_eq_some_iff.1 hb
  exact ⟨_, List.getElem?_eq_getElem (h.length ▸ hi)⟩

/-- The chain of a bucket holds all handles whose home it is. -/
theorem mem_iff (h : Filled hh n bs cs) (hc : cs[i]? = some c) {a : α} :
    a ∈ c ↔ a ∈ cs.flatten ∧ Uthash.home hh n a = i := by
  constructor
  · exact fun ha => ⟨mem_flatten_of_getElem? hc ha, h.home i c hc a ha⟩
  · rintro ⟨ha, hhome⟩
    obtain ⟨d, hd, had⟩ := List.mem_flatten.1 ha
    obtain ⟨j, hj⟩ := List.getElem?_of_mem hd
    obtain rfl : j = i := (h.home j d hj a had).symm.trans hhome
    obtain rfl : d = c := Option.some.inj (hj.symm.trans hc)
    exact had

theorem chain_nodup (h : Filled hh n bs cs) (hc : cs[i]? = some c) : c.Nodup :=
  (List.nodup_flatten.1 h.nodup).1 c (List.mem_of_getElem? hc)

/-- No handle hangs in two buckets. -/
theorem not_mem_other (h : Filled hh n bs cs) {j : Nat} {d : List α} (hc : cs[i]? = some c)
    (hd : cs[j]? = some d) (hij : j ≠ i) {a : α} (ha : a ∈ c) : a ∉ d := fun had =>
  hij ((h.home j d hd a had).symm.trans (h.home i c hc a ha))

variable [DecidableEq α]

/-- A handle put in front of the chain of its bucket. -/
theorem push (h : Filled hh n bs cs) (hb : bs[i]? = some b) (hc : cs[i]? = some c)
    (hx : x ∉ cs.flatten) (hi : Uthash.home hh n x = i) (m : Nat) :
    Filled (hh.linkHh b.hhHead x) n (bs.set i ⟨some x, b.count + 1, m⟩) (cs.set i (x :: c)) ∧
      (cs.set i (x :: c)).flatten.Perm (x :: cs.flatten) := by
  have hok := h.ok i b c hb hc
  have hxc : x ∉ c := fun hmem => hx (mem_flatten_of_getElem? hc hmem)
  have hhead : c.head? ≠ some x := fun heq => hxc (List.mem_of_head? heq)
  obtain ⟨rest, hold, hnew⟩ := flatten_split hc
  have hperm : (cs.set i (x :: c)).flatten.Perm (x :: cs.flatten) :=
    (hnew (x :: c)).trans (hold.symm.cons x)
  refine ⟨⟨by rw [List.length_set, List.length_set, h.length], fun j b' c' hb' hc' => ?_,
    fun j c' hc' a ha => ?_, hperm.nodup_iff.2 (List.nodup_cons.2 ⟨hx, h.nodup⟩)⟩, hperm⟩
  · rcases set_cases hb' with ⟨rfl, rfl⟩ | ⟨hne, hb'⟩
    · rcases set_cases hc' with ⟨-, rfl⟩ | ⟨hne, -⟩
      · refine ⟨rfl, by rw [hok.count]; rfl, hok.chain.cons (h.chain_nodup hc) ?_ ?_ ?_ ?_⟩
        · rw [← hok.head]
          exact Function.update_self x _ _
        · show setAt _ _ _ x = none
          rw [setAt_apply, hok.head, if_neg hhead, Function.update_self]
        · exact fun a ha => Function.update_of_ne (ne_of_mem_of_not_mem ha hxc) _ _
        · intro a ha
          show setAt _ _ _ a = _
          rw [setAt_apply, hok.head, Function.update_of_ne (ne_of_mem_of_not_mem ha hxc)]
      · exact absurd rfl hne
    · rcases set_cases hc' with ⟨rfl, -⟩ | ⟨-, hc'⟩
      · exact absurd rfl hne
      · have hxc' : x ∉ c' := fun hmem => hx (mem_flatten_of_getElem? hc' hmem)
        refine (h.ok j b' c' hb' hc').congr
          (fun a ha => Function.update_of_ne (ne_of_mem_of_not_mem ha hxc') _ _) fun a ha => ?_
        show setAt _ _ _ a = _
        rw [setAt_apply, hok.head, if_neg, Function.update_of_ne (ne_of_mem_of_not_mem ha hxc')]
        exact fun heq => h.not_mem_other hc hc' hne (List.mem_of_head? heq) ha
  · rcases set_cases hc' with ⟨rfl, rfl⟩ | ⟨-, hc'⟩
    · rcases List.mem_cons.1 ha with rfl | ha
      · exact hi
      · exact h.home j c hc a ha
    · exact h.home j c' hc' a ha

/-- A handle taken out of the chain of its bucket. -/
theorem erase (h : Filled hh n bs cs) (hb : bs[i]? = some b) (hc : cs[i]? = some c)
    (hx : x ∈ c) :
    Filled (hh.unlinkHh x) n
        (bs.set i ⟨if b.hhHead = some x then hh.hhNext x else b.hhHead, b.count - 1, b.expandMult⟩)
        (cs.set i (c.erase x)) ∧
      (cs.set i (c.erase x)).flatten.Perm (cs.flatten.erase x) := by
  have hok := h.ok i b c hb hc
  have hnd := h.chain_nodup hc
  have hprev : hh.hhPrev x ≠ some x := fun heq => (hok.chain.prev_mem hnd hx heq).2 rfl
  obtain ⟨rest, hold, hnew⟩ := flatten_split hc
  have hperm : (cs.set i (c.erase x)).flatten.Perm (cs.flatten.erase x) := by
    refine (hnew (c.erase x)).trans ((hold.erase x).trans ?_).symm
    rw [List.erase_append_left _ hx]
  refine ⟨⟨by rw [List.length_set, List.length_set, h.length], fun j b' c' hb' hc' => ?_,
    fun j c' hc' a ha => ?_, hperm.nodup_iff.2 (h.nodup.erase x)⟩, hperm⟩
  · have hnext' : ∀ a, (hh.unlinkHh x).hhNext a =
        if hh.hhPrev x = some a then hh.hhNext x else hh.hhNext a := fun a => setAt_apply
    have hprev' : ∀ a, (hh.unlinkHh x).hhPrev a =
        if hh.hhNext x = some a then hh.hhPrev x else hh.hhPrev a := by
      intro a
      show setAt _ (setAt _ _ _ x) _ a = _
      rw [setAt_apply, setAt_apply, if_neg hprev]
    rcases set_cases hb' with ⟨rfl, rfl⟩ | ⟨hne, hb'⟩
    · rcases set_cases hc' with ⟨-, rfl⟩ | ⟨hne, -⟩
      · refine ⟨?_, ?_, hok.chain.erase hnd hx (fun _ _ => by simp) (fun a _ _ => hnext' a)
          fun a _ _ => hprev' a⟩
        · rw [hok.chain.head_erase, hok.head]
        · rw [List.length_erase_of_mem hx, hok.count]
      · exact absurd rfl hne
    · rcases set_cases hc' with ⟨rfl, -⟩ | ⟨-, hc'⟩
      · exact absurd rfl hne
      · refine (h.ok j b' c' hb' hc').congr (fun a ha => ?_) fun a ha => ?_
        · rw [hnext', if_neg]
          exact fun heq => h.not_mem_other hc hc' hne (hok.chain.prev_mem hnd hx heq).1 ha
        · rw [hprev', if_neg]
          exact fun heq => h.not_mem_other hc hc' hne (hok.chain.next_mem hnd hx heq).1 ha
  · rcases set_cases hc' with ⟨rfl, rfl⟩ | ⟨-, hc'⟩
    · exact h.home j c hc a (List.mem_of_mem_erase ha)
    · exact h.home j c' hc' a ha

end Filled

end GameServer.Uthash
