/-
  `atoi` of `utils/atoi.c`.

  The loop adds up the digits from the right with a running power of ten. All arithmetic
  wraps, so what it holds after the digits of `s` is their value modulo `2 ^ 32`
  (`Scanned`), and a value that fits is returned exactly, also behind so many zeros that the
  power of ten has wrapped (`atoi_value`).

  The power is advanced after every digit, the last one included. So without wrapping, that
  is in C as it stands, valid numbers overflow as soon as they have ten digits, leading zeros
  counted (`no_overflow_iff`). `results` are the exact results of all operations, before
  they wrap.
-/
import GameServer.Lib.CInt
import GameServer.Lib.LuaState
import GameServer.Lib.Numeral

namespace GameServer.Utils

open CInt Lua Numeral

/-- The variables of the loop, and the exact results of its arithmetic, newest first. -/
structure AtoiState where
  i : Int
  sum : Int
  times : Int
  results : List Int

/-- The loop body on a digit: `sum += times * (c - '0'); times *= 10;` -/
def AtoiState.digit (st : AtoiState) (c : Int) : AtoiState :=
  let product := st.times * (c - 48)
  let sum := st.sum + i32 product
  let times := st.times * 10
  { i := i32 (st.i + 1), sum := i32 sum, times := i32 times,
    results := times :: sum :: product :: st.results }

/-- `*(str + pos)` -/
def charAt (str : Bytes) (pos : Int) : Int := schar (str.getD pos.toNat 0)

/-- The loop, at most `fuel` tests of its condition. -/
def atoiLoop (str : Bytes) (len : Int) : Nat → AtoiState → Option AtoiState
  | 0, _ => none
  | fuel + 1, st =>
    if st.i < len then
      let c := charAt str (len - 1 - st.i)
      if c > 57 ∨ c < 48 then some st else atoiLoop str len fuel (st.digit c)
    else some st

/-- The loop from its first test on. `len` is `strlen(str)` as an `int`. -/
def atoiRun (fuel : Nat) (str : Bytes) : Option AtoiState :=
  atoiLoop str (i32 str.length) fuel ⟨0, 0, 1, []⟩

/-- `atoi`. The string is given without its NUL, `none` is NULL. -/
def atoi (fuel : Nat) (str : Option Bytes) : Option Int :=
  match str with
  | none => some 0
  | some str =>
    if str.length = 0 then some 0
    else (atoiRun fuel str).map fun st => if st.i < i32 str.length then 0 else st.sum

/-- `'0'` to `'9'` -/
def IsDecimal (c : UInt8) : Prop := 48 ≤ c.toNat ∧ c.toNat ≤ 57

instance (c : UInt8) : Decidable (IsDecimal c) := inferInstanceAs (Decidable (_ ∧ _))

/-! ## One character -/

/-- The test of the loop is on a signed character. -/
theorem schar_outside_iff (c : UInt8) : (schar c > 57 ∨ schar c < 48) ↔ ¬ IsDecimal c := by
  have hlt := c.toNat_lt
  have hdef := Int.bmod_def (c.toNat : Int) (2 ^ 8)
  unfold schar IsDecimal
  split at hdef <;> omega

theorem digit_value {c : UInt8} (hc : IsDecimal c) :
    schar c - 48 = digitValue c ∧ digitValue c ≤ 9 := by
  obtain ⟨hlo, hhi⟩ := hc
  have hdef := Int.bmod_def (c.toNat : Int) (2 ^ 8)
  unfold schar digitValue
  split at hdef <;> split <;> omega

/-! ## The loop -/

/-- The exact results for a string of digits, from the right. -/
def exactResults : Bytes → List Int
  | [] => []
  | c :: s =>
    i32 (10 ^ s.length) * 10 ::
      (i32 (value 10 s) + i32 (i32 (10 ^ s.length) * digitValue c)) ::
      i32 (10 ^ s.length) * digitValue c :: exactResults s

/-- The state after the digits of `s`. -/
structure Scanned (s : Bytes) (st : AtoiState) : Prop where
  i : st.i = s.length
  sum : st.sum = i32 (value 10 s)
  times : st.times = i32 (10 ^ s.length)
  results : st.results = exactResults s

/-- One more digit in front. -/
theorem Scanned.digit {s : Bytes} {st : AtoiState} (hs : Scanned s st) {c : UInt8}
    (hc : IsDecimal c) (hlen : (s.length : Int) + 1 ≤ intMax) :
    Scanned (c :: s) (st.digit (schar c)) := by
  have hdigit := (digit_value hc).1
  have hi : i32 ((s.length : Int) + 1) = s.length + 1 := i32_eq (by unfold intMin; omega) hlen
  have hproduct : i32 (i32 (10 ^ s.length) * digitValue c) = i32 (10 ^ s.length * digitValue c) :=
    i32_mul _ _
  refine ⟨?_, ?_, ?_, ?_⟩
  · show i32 (st.i + 1) = _
    rw [hs.i, hi, List.length_cons]
    push_cast
    rfl
  · show i32 (st.sum + i32 (st.times * (schar c - 48))) = _
    rw [hs.sum, hs.times, hdigit, hproduct, i32_add, value_cons]
    push_cast
    rw [Int.add_comm, Int.mul_comm]
  · show i32 (st.times * 10) = _
    rw [hs.times, i32_mul, List.length_cons, Int.pow_succ]
  · show st.times * 10 :: (st.sum + i32 (st.times * (schar c - 48))) ::
      st.times * (schar c - 48) :: st.results = _
    rw [hs.sum, hs.times, hs.results, hdigit]
    rfl

/-- The character in front of the last `done.length` ones. -/
theorem charAt_scan (todo : Bytes) (c : UInt8) (done rest : Bytes) :
    charAt (todo ++ c :: done ++ rest) (((todo ++ c :: done).length : Int) - 1 - done.length) =
      schar c := by
  have hpos : (((todo ++ c :: done).length : Int) - 1 - done.length).toNat = todo.length := by
    rw [List.length_append, List.length_cons]
    omega
  unfold charAt
  rw [hpos, List.append_assoc, List.getD_eq_getElem?_getD, List.getElem?_append_right le_rfl,
    Nat.sub_self]
  rfl

/-- The loop from the digits `done` on, with the characters `todo` to come. What follows them
    in memory plays no part. The induction is on `todo`, from its end. -/
theorem atoiLoop_scan (rest : Bytes) (todo : Bytes) :
    ∀ (done : Bytes) (st : AtoiState) (fuel : Nat), Scanned done st → todo.length < fuel →
      ((todo ++ done).length : Int) ≤ intMax →
      ∃ st', atoiLoop (todo ++ done ++ rest) (todo ++ done).length fuel st = some st' ∧
        ((∀ c ∈ todo, IsDecimal c) → Scanned (todo ++ done) st') ∧
        ((∃ c ∈ todo, ¬ IsDecimal c) → st'.i < (todo ++ done).length) := by
  induction todo using List.reverseRecOn with
  | nil =>
    intro done st fuel hs hfuel hlen
    cases fuel with
    | zero => omega
    | succ fuel =>
      refine ⟨st, ?_, fun _ => hs, fun ⟨c, hc, _⟩ => absurd hc List.not_mem_nil⟩
      rw [atoiLoop, if_neg]
      rw [hs.i, List.nil_append]
      omega
  | append_singleton todo c ih =>
    intro done st fuel hs hfuel hlen
    have hsame : todo ++ [c] ++ done = todo ++ c :: done := by simp
    rw [hsame] at hlen ⊢
    rw [List.length_append, List.length_cons] at hlen
    rw [List.length_append, List.length_singleton] at hfuel
    have hmore : st.i < ((todo ++ c :: done).length : Int) := by
      rw [hs.i, List.length_append, List.length_cons]
      omega
    cases fuel with
    | zero => omega
    | succ fuel =>
      rw [atoiLoop, if_pos hmore, hs.i, charAt_scan]
      by_cases hc : IsDecimal c
      · obtain ⟨st', hrun, hall, hsome⟩ := ih (c :: done) (st.digit (schar c)) fuel
          (hs.digit hc (by omega)) (by omega) (by rw [List.length_append, List.length_cons]; omega)
        rw [if_neg fun h => (schar_outside_iff c).1 h hc]
        refine ⟨st', hrun, fun h => hall fun d hd => h d (List.mem_append_left _ hd), ?_⟩
        rintro ⟨d, hd, hnot⟩
        rcases List.mem_append.1 hd with hd | hd
        · exact hsome ⟨d, hd, hnot⟩
        · rw [List.mem_singleton.1 hd] at hnot
          exact absurd hc hnot
      · rw [if_pos ((schar_outside_iff c).2 hc)]
        refine ⟨st, rfl, fun h => ?_, fun _ => hmore⟩
        exact absurd (h c (List.mem_append_right _ (List.mem_singleton_self c))) hc

/-- The run on a string whose length an `int` can hold. -/
theorem atoiRun_scan {s : Bytes} (hlen : (s.length : Int) ≤ intMax) {fuel : Nat}
    (hfuel : s.length < fuel) :
    ∃ st, atoiRun fuel s = some st ∧ ((∀ c ∈ s, IsDecimal c) → Scanned s st) ∧
      ((∃ c ∈ s, ¬ IsDecimal c) → st.i < s.length) := by
  have hstart : Scanned [] ⟨0, 0, 1, []⟩ := ⟨rfl, by decide, by decide, rfl⟩
  obtain ⟨st, hrun, hall, hsome⟩ :=
    atoiLoop_scan [] s [] _ fuel hstart hfuel (by rwa [List.append_nil])
  rw [List.append_nil, List.append_nil] at hrun
  rw [List.append_nil] at hall hsome
  have hexact : i32 (s.length : Int) = s.length := i32_eq (by unfold intMin; omega) hlen
  unfold atoiRun
  rw [hexact]
  exact ⟨st, hrun, hall, hsome⟩

/-- For every string whose length an `int` can hold: `atoi` returns the value of a string of
    digits that denotes an `int`, and 0 for the empty string and for every other. -/
theorem atoi_value {s : Bytes} (hlen : (s.length : Int) ≤ intMax) {fuel : Nat}
    (hfuel : s.length < fuel) :
    (s ≠ [] → (∀ c ∈ s, IsDecimal c) → (value 10 s : Int) ≤ intMax →
        atoi fuel (some s) = some (value 10 s : Int)) ∧
      (s = [] ∨ (∃ c ∈ s, ¬ IsDecimal c) → atoi fuel (some s) = some 0) := by
  obtain ⟨st, hrun, hall, hsome⟩ := atoiRun_scan hlen hfuel
  have hexact : i32 (s.length : Int) = s.length := i32_eq (by unfold intMin; omega) hlen
  unfold atoi
  simp only [hrun, hexact, Option.map_some]
  constructor
  · intro hne hdigits hmax
    have hs := hall hdigits
    have hpos : s.length ≠ 0 := fun h => hne (List.length_eq_zero_iff.1 h)
    rw [if_neg hpos, if_neg (by rw [hs.i]; omega), hs.sum, i32_eq (by unfold intMin; omega) hmax]
  · rintro (rfl | hother)
    · rfl
    · have hne : s.length ≠ 0 := by
        rintro h
        obtain ⟨c, hc, -⟩ := hother
        rw [List.length_eq_zero_iff.1 h] at hc
        cases hc
      rw [if_neg hne, if_pos (hsome hother)]

/-- `atoi("000000000001")`: the power of ten wraps behind the tenth digit. -/
theorem padded_one : atoi 13 (some (ascii "000000000001")) = some 1 :=
  (atoi_value (by decide) (by decide)).1 (by decide) (by decide +kernel) (by decide)

/-! ## Overflow -/

/-- No operation of the loop leaves the range of `int`. -/
def NoOverflow (fuel : Nat) (str : Bytes) : Prop :=
  ∃ st, atoiRun fuel str = some st ∧ ∀ x ∈ st.results, InInt x

/-- A short string of digits has a small value. -/
theorem value_short {s : Bytes} (hs : ∀ c ∈ s, IsDecimal c) :
    value 10 s < 10 ^ s.length :=
  value_lt (by omega) fun c hc => by have := (digit_value (hs c hc)).2; omega

/-- The power of ten behind the tenth digit does not fit. -/
theorem exactResults_inInt_iff {s : Bytes} (hs : ∀ c ∈ s, IsDecimal c) :
    (∀ x ∈ exactResults s, InInt x) ↔ s.length ≤ 9 := by
  induction s with
  | nil => simp [exactResults]
  | cons c s ih =>
    rw [List.forall_mem_cons] at hs
    have hih := ih hs.2
    have hd := (digit_value hs.1).2
    rw [exactResults, List.forall_mem_cons, List.forall_mem_cons, List.forall_mem_cons, hih,
      List.length_cons]
    constructor
    · rintro ⟨htimes, -, -, hlen⟩
      by_contra hnine
      obtain hlen9 : s.length = 9 := by omega
      rw [hlen9] at htimes
      exact absurd htimes (by decide)
    · intro hlen
      have hpow : 10 ^ s.length ≤ 10 ^ 8 := Nat.pow_le_pow_right (by omega) (by omega)
      have hv := value_short hs.2
      have hcast : (10 : Int) ^ s.length = ((10 ^ s.length : Nat) : Int) := by push_cast; rfl
      have hmul : 10 ^ s.length * digitValue c ≤ 10 ^ s.length * 9 := Nat.mul_le_mul_left _ hd
      have hpower : i32 (10 ^ s.length) = ((10 ^ s.length : Nat) : Int) := by
        rw [hcast]
        exact i32_eq (by unfold intMin; omega) (by unfold intMax; omega)
      have hproduct : i32 (10 ^ s.length) * (digitValue c : Int) =
          ((10 ^ s.length * digitValue c : Nat) : Int) := by
        rw [hpower]
        push_cast
        rfl
      have hsum : i32 (value 10 s) = value 10 s :=
        i32_eq (by unfold intMin; omega) (by unfold intMax; omega)
      have hwrapped : i32 ((10 ^ s.length * digitValue c : Nat) : Int) =
          ((10 ^ s.length * digitValue c : Nat) : Int) :=
        i32_eq (by unfold intMin; omega) (by unfold intMax; omega)
      rw [hproduct, hsum, hwrapped, hpower]
      unfold InInt intMin intMax
      omega

/-- The run on a string of digits of any length: the loop sees as many of its characters as
    the length is when converted to `int`. -/
theorem atoiRun_digits {s : Bytes} (hs : ∀ c ∈ s, IsDecimal c) {fuel : Nat}
    (hfuel : s.length < fuel) :
    ∃ st, atoiRun fuel s = some st ∧
      st.results = exactResults (s.take (i32 s.length).toNat) := by
  have hle := i32_toNat_le s.length
  have hmax := (inInt_i32 s.length).2
  have hstart : Scanned [] ⟨0, 0, 1, []⟩ := ⟨rfl, by decide, by decide, rfl⟩
  have htake : (s.take (i32 s.length).toNat).length = (i32 s.length).toNat := by
    rw [List.length_take]
    omega
  by_cases hneg : ¬ 0 < i32 s.length
  · have hzero : (i32 s.length).toNat = 0 := by omega
    cases fuel with
    | zero => omega
    | succ fuel =>
      refine ⟨⟨0, 0, 1, []⟩, ?_, ?_⟩
      · rw [atoiRun, atoiLoop, if_neg hneg]
      · rw [hzero]
        rfl
  · obtain ⟨st, hrun, hall, -⟩ := atoiLoop_scan (s.drop (i32 s.length).toNat)
      (s.take (i32 s.length).toNat) [] _ fuel hstart (by omega)
      (by rw [List.append_nil, htake]; omega)
    rw [List.append_nil, List.take_append_drop, htake] at hrun
    rw [List.append_nil] at hall
    have hlen : ((i32 s.length).toNat : Int) = i32 s.length := by omega
    rw [hlen] at hrun
    exact ⟨st, hrun, (hall fun c hc => hs c (List.mem_of_mem_take hc)).results⟩

/-- For every string of digits, of any length: the loop does not overflow if and only if the
    length, as an `int`, is at most 9. -/
theorem no_overflow_iff {s : Bytes} (hs : ∀ c ∈ s, IsDecimal c) {fuel : Nat}
    (hfuel : s.length < fuel) : NoOverflow fuel s ↔ i32 s.length ≤ 9 := by
  obtain ⟨st, hrun, hresults⟩ := atoiRun_digits hs hfuel
  have hseen : ∀ c ∈ s.take (i32 s.length).toNat, IsDecimal c :=
    fun c hc => hs c (List.mem_of_mem_take hc)
  have hle := i32_toNat_le s.length
  have hiff : (∀ x ∈ st.results, InInt x) ↔ i32 s.length ≤ 9 := by
    rw [hresults, exactResults_inInt_iff hseen, List.length_take]
    omega
  rw [← hiff]
  constructor
  · rintro ⟨st', hrun', hall⟩
    obtain rfl : st = st' := Option.some.inj (hrun.symm.trans hrun')
    exact hall
  · exact fun hall => ⟨st, hrun, hall⟩

/-- `atoi("012345678")` -/
theorem nine_digits_fit : NoOverflow 10 (ascii "012345678") :=
  (no_overflow_iff (by decide +kernel) (by decide)).2 (by decide)

/-- `atoi("2147483647")`, which is `INT_MAX`: the power of ten reaches `10 ^ 10`. -/
theorem ten_digits_overflow :
    (∀ c ∈ ascii "2147483647", IsDecimal c) ∧ (value 10 (ascii "2147483647") : Int) = intMax ∧
      ¬ NoOverflow 11 (ascii "2147483647") := by
  refine ⟨by decide +kernel, by decide, ?_⟩
  rintro ⟨st, hrun, hall⟩
  have hlast : (atoiRun 11 (ascii "2147483647")).map (fun st => st.results.head?) =
      some (some (10 ^ 10)) := by decide
  rw [hrun, Option.map_some, Option.some.injEq] at hlast
  exact absurd (hall _ (List.mem_of_head? hlast)) (by decide)

end GameServer.Utils
