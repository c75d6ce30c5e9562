/-
  Reading a hash: `HASH_FIND` looks through one bucket only, and `HASH_FSCK`, the integrity
  check that a build with `HASH_DEBUG` runs after every addition, deletion and sort.
-/
import GameServer.Uthash.Live

namespace GameServer.Uthash

open DoublyLinked ListUpdate

variable {α τ : Type} {s : Store α τ} {t : τ} {T : Table α} {l c : List α}
  {fcn : List UInt8 → UInt32} {key : List UInt8} {rounds : Nat}

/-! ## HASH_FIND -/

theorem hashFindInBkt_eq {hh : Handles α τ} {before : Option α}
    (h : Chain hh.hhNext hh.hhPrev before c) (hrounds : c.length ≤ rounds) :
    hashFindInBkt hh key rounds c.head? = .ok (c.find? fun a => hh.key a = key) := by
  induction c generalizing before rounds with
  | nil => cases rounds <;> rfl
  | cons a c ih =>
    obtain ⟨rounds, rfl⟩ : ∃ r, rounds = r + 1 :=
      Nat.exists_eq_succ_of_ne_zero (by rw [List.length_cons] at hrounds; omega)
    rw [List.head?_cons, hashFindInBkt]
    by_cases ha : hh.key a = key
    · rw [if_pos ha, List.find?_cons_of_pos (by simpa using ha)]
    · rw [if_neg ha, List.find?_cons_of_neg (by simpa using ha), h.2.1]
      exact ih h.2.2 (Nat.le_of_succ_le_succ hrounds)

/-- A search looks through the chain of one bucket, which has all elements with the key. -/
theorem Live.find (h : Live fcn s t T l) (hne : l ≠ []) (key : List UInt8) :
    ∃ (b : Bucket α) (c : List α), T.bucket (hashToBkt (fcn key) T.numBuckets) = .ok b ∧
      b ∈ T.buckets ∧
      b.count = c.length ∧ c.length ≤ l.length ∧ (∀ a ∈ c, a ∈ l) ∧
      (∀ a ∈ l, s.hh.key a = key → a ∈ c) ∧
      ∀ rounds, c.length ≤ rounds →
        hashFind fcn rounds s l.head? key = .ok (c.find? fun a => s.hh.key a = key) := by
  obtain ⟨cs, hfill, hperm⟩ := h.buckets.filled
  have hi := h.buckets.bkt_lt (fcn key)
  have hb := List.getElem?_eq_getElem hi
  generalize T.buckets[hashToBkt (fcn key) T.numBuckets] = b at hb
  obtain ⟨c, hc⟩ := hfill.exists_chain hb
  have hok := hfill.ok _ b c hb hc
  have hcount := hfill.count_le hb
  rw [hperm.length_eq, hok.count] at hcount
  refine ⟨b, c, bucket_eq hb, List.mem_of_getElem? hb, hok.count, hcount,
    fun a ha => hperm.mem_iff.1 (mem_flatten_of_getElem? hc ha), fun a ha hkey => ?_,
    fun rounds hle => ?_⟩
  · -- an element with the key has the hash value of the key
    refine (hfill.mem_iff hc).2 ⟨hperm.mem_iff.2 ha, ?_⟩
    rw [home, h.hashv a ha, hkey]
  · rw [List.head?_eq_some_head hne]
    simp only [hashFind, tbl_eq (h.tbl _ (List.head_mem hne)) h.table, bucket_eq hb, bind,
      Except.bind, hok.head]
    exact hashFindInBkt_eq hok.chain hle

/-- `HASH_FIND` finds an element with the key if and only if the hash has one. -/
theorem hashFind_spec {tp : Option τ} (h : Holds fcn s tp l) (key : List UInt8)
    (hrounds : l.length ≤ rounds) :
    ∃ out, hashFind fcn rounds s l.head? key = .ok out ∧
      (∀ a, out = some a → a ∈ l ∧ s.hh.key a = key) ∧
      (out = none → ∀ a ∈ l, s.hh.key a ≠ key) := by
  cases tp with
  | none =>
    obtain rfl : l = [] := h
    exact ⟨none, rfl, fun a ha => (Option.some_ne_none a ha.symm).elim,
      fun _ a ha => (List.not_mem_nil ha).elim⟩
  | some t =>
    obtain ⟨hne, T, hlive⟩ := h
    obtain ⟨b, c, -, -, -, hle, hsub, hall, hfind⟩ := hlive.find hne key
    refine ⟨_, hfind rounds (hle.trans hrounds), fun a ha => ?_, fun hnone a ha hkey => ?_⟩
    · exact ⟨hsub a (List.mem_of_find?_eq_some ha), by simpa using List.find?_some ha⟩
    · exact absurd hkey (by simpa using List.find?_eq_none.1 hnone a (hall a ha hkey))

theorem hashCnt_spec {tp : Option τ} (h : Holds fcn s tp l) :
    hashCnt s l.head? = .ok l.length := by
  cases tp with
  | none =>
    obtain rfl : l = [] := h
    rfl
  | some t =>
    obtain ⟨hne, T, hlive⟩ := h
    rw [List.head?_eq_some_head hne]
    simp only [hashCnt, tbl_eq (hlive.tbl _ (List.head_mem hne)) hlive.table, bind, Except.bind,
      hlive.items]

/-! ## HASH_FSCK -/

/-- The two loops of `HASH_FSCK` over a chain: every node must point back to the node that led
    to it. The answer is the number of nodes. -/
def fsckWalk (next prev : α → Option α) [DecidableEq α] :
    Nat → Option α → Option α → Nat → Except Halt Nat
  | _, _, none, count => .ok count
  | 0, _, some _, _ => .error .rounds
  | rounds + 1, before, some thh, count =>
    if before ≠ prev thh then .error .oops
    else fsckWalk next prev rounds (some thh) (next thh) (u32 (count + 1))

/-- One round of the loop over the buckets. -/
def fsckBucket [DecidableEq α] (hh : Handles α τ) (rounds : Nat) (T : Table α) (count bktI : Nat) :
    Except Halt Nat := do
  let b ← T.bucket bktI
  let bktCount ← fsckWalk hh.hhNext hh.hhPrev rounds none b.hhHead 0
  if b.count ≠ bktCount then .error .oops
  else .ok (u32 (count + bktCount))

/-- `HASH_FSCK`. -/
def hashFsck [DecidableEq α] (rounds : Nat) (s : Store α τ) (head : Option α) :
    Except Halt Unit :=
  match head with
  | none => .ok ()
  | some head => do
    let (_, T) ← s.tbl (some head)
    let count ← (List.range T.numBuckets).foldlM (fsckBucket s.hh rounds T) 0
    if count ≠ T.numItems then .error .oops
    else do
      let count ← fsckWalk s.hh.next s.hh.prev rounds none (some head) 0
      if count ≠ T.numItems then .error .oops
      else .ok ()

variable [DecidableEq α]

theorem fsckWalk_eq {next prev : α → Option α} {before : Option α} {count : Nat}
    (h : Chain next prev before c) (hrounds : c.length ≤ rounds) (hlt : count + c.length < 2 ^ 32) :
    fsckWalk next prev rounds before c.head? count = .ok (count + c.length) := by
  induction c generalizing before rounds count with
  | nil => cases rounds <;> rfl
  | cons a c ih =>
    rw [List.length_cons] at hrounds hlt
    obtain ⟨rounds, rfl⟩ : ∃ r, rounds = r + 1 :=
      Nat.exists_eq_succ_of_ne_zero (by omega)
    rw [List.head?_cons, fsckWalk, if_neg (not_not_intro h.1.symm), h.2.1, u32_eq (by omega),
      ih h.2.2 (by omega) (by omega), List.length_cons, Nat.add_assoc, Nat.add_comm 1]

theorem fsckBuckets_eq {hh : Handles α τ} {cs : List (List α)} {n : Nat}
    (hfill : Filled hh n T.buckets cs) (hlt : cs.flatten.length < 2 ^ 32)
    (hrounds : cs.flatten.length ≤ rounds) {m : Nat} (hm : m ≤ T.buckets.length) :
    (List.range m).foldlM (fsckBucket hh rounds T) 0 = .ok (cs.take m).flatten.length := by
  induction m with
  | zero => rfl
  | succ m ih =>
    have hb := List.getElem?_eq_getElem (l := T.buckets) (i := m) (by omega)
    obtain ⟨c, hc⟩ := hfill.exists_chain hb
    have hok := hfill.ok m _ c hb hc
    have htake : (cs.take (m + 1)).flatten.length = (cs.take m).flatten.length + c.length := by
      rw [flatten_take_succ hc, List.length_append]
    have hle := (flatten_take_sublist cs (m + 1)).length_le
    have hround : fsckBucket hh rounds T (cs.take m).flatten.length m =
        .ok (cs.take (m + 1)).flatten.length := by
      have hwalk : fsckWalk hh.hhNext hh.hhPrev rounds none c.head? 0 = .ok (0 + c.length) :=
        fsckWalk_eq hok.chain (by omega) (by omega)
      rw [Nat.zero_add] at hwalk
      simp only [fsckBucket, bucket_eq hb, bind, Except.bind, hok.head, hwalk, hok.count, ne_eq,
        not_true_eq_false, if_false]
      rw [u32_eq (by omega), htake]
    rw [List.range_succ, List.foldlM_append, ih (by omega)]
    show (fsckBucket hh rounds T (cs.take m).flatten.length m >>= pure) = _
    rw [hround]
    rfl

/-- The integrity check finds nothing wrong. -/
theorem hashFsck_spec {tp : Option τ} (h : Holds fcn s tp l) (hlt : l.length < 2 ^ 32)
    (hrounds : l.length ≤ rounds) : hashFsck rounds s l.head? = .ok () := by
  cases tp with
  | none =>
    obtain rfl : l = [] := h
    rfl
  | some t =>
    obtain ⟨hne, T, hlive⟩ := h
    obtain ⟨cs, hfill, hperm⟩ := hlive.buckets.filled
    have hbuckets : (List.range T.buckets.length).foldlM (fsckBucket s.hh rounds T) 0 = .ok _ :=
      fsckBuckets_eq hfill (hperm.length_eq ▸ hlt) (hperm.length_eq ▸ hrounds) (Nat.le_refl _)
    rw [← hfill.length, List.take_length, hfill.length, hlive.buckets.length, hperm.length_eq,
      ← hlive.items] at hbuckets
    have hwalk : fsckWalk s.hh.next s.hh.prev rounds none l.head? 0 = .ok (0 + l.length) :=
      fsckWalk_eq hlive.order hrounds (by omega)
    rw [Nat.zero_add, ← hlive.items, List.head?_eq_some_head hne] at hwalk
    rw [List.head?_eq_some_head hne]
    simp only [hashFsck, tbl_eq (hlive.tbl _ (List.head_mem hne)) hlive.table, bind, Except.bind,
      hbuckets, hwalk, ne_eq, not_true_eq_false, if_false]

end GameServer.Uthash
