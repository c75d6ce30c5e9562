/-
  Numerals: numbers written in a radix from 2 to 36 with the characters 0-9 and A-Z, most
  significant digit first, and the value of a string of digits.

  `numeral` is canonical: its first character is `0` for the number 0 only
  (`numeral_head`), and `value` reads it back (`value_numeral`). `value` gives a number to
  every string of digits, leading zeros included, and is computed from either end
  (`value_append`).
-/
import Mathlib.Data.Nat.Digits.Lemmas

namespace Numeral

/-! ## Digits -/

/-- The character of a digit below 36. -/
def digitChar (d : Nat) : UInt8 := UInt8.ofNat (if d < 10 then 48 + d else 55 + d)

/-- The digit that a character stands for. -/
def digitValue (c : UInt8) : Nat := if c.toNat < 58 then c.toNat - 48 else c.toNat - 55

/-- `0` to `9`, or `A` to `Z`. -/
def IsDigitChar (c : UInt8) : Prop := 48 ≤ c.toNat ∧ c.toNat ≤ 57 ∨ 65 ≤ c.toNat ∧ c.toNat ≤ 90

instance (c : UInt8) : Decidable (IsDigitChar c) := inferInstanceAs (Decidable (_ ∨ _))

theorem digitChar_toNat {d : Nat} (hd : d < 36) :
    (digitChar d).toNat = if d < 10 then 48 + d else 55 + d := by
  unfold digitChar
  rw [UInt8.toNat_ofNat']
  split <;> omega

theorem digitValue_digitChar {d : Nat} (hd : d < 36) : digitValue (digitChar d) = d := by
  unfold digitValue
  rw [digitChar_toNat hd]
  split <;> split <;> omega

theorem isDigitChar_digitChar {d : Nat} (hd : d < 36) : IsDigitChar (digitChar d) := by
  unfold IsDigitChar
  rw [digitChar_toNat hd]
  split <;> omega

/-- The digits of `n`, least significant first, with one digit for 0. -/
def digits (radix n : Nat) : List Nat := if n = 0 then [0] else Nat.digits radix n

section Digits

variable {radix n : Nat}

/-- One digit by division, and the rest. -/
theorem digits_step (hr : 2 ≤ radix) (n : Nat) :
    digits radix n =
      n % radix :: if n / radix = 0 then [] else digits radix (n / radix) := by
  unfold digits
  by_cases hn : n = 0
  · rw [hn, if_pos rfl, Nat.zero_mod, Nat.zero_div, if_pos rfl]
  · rw [if_neg hn, Nat.digits_def' hr (Nat.pos_of_ne_zero hn)]
    by_cases hq : n / radix = 0
    · rw [if_pos hq, hq, Nat.digits_zero]
    · rw [if_neg hq, if_neg hq]

theorem digits_ne_nil (hr : 2 ≤ radix) (n : Nat) : digits radix n ≠ [] := by
  rw [digits_step hr]
  exact List.cons_ne_nil _ _

theorem digits_lt (hr : 2 ≤ radix) {d : Nat} (hd : d ∈ digits radix n) : d < radix := by
  unfold digits at hd
  split at hd
  · rw [List.mem_singleton.1 hd]
    omega
  · exact Nat.digits_lt_base hr hd

theorem ofDigits_digits (radix n : Nat) : Nat.ofDigits radix (digits radix n) = n := by
  unfold digits
  split
  · next hn => simp [hn]
  · exact Nat.ofDigits_digits radix n

theorem length_digits_le (hr : 2 ≤ radix) {k : Nat} (hk : 0 < k) (hn : n < radix ^ k) :
    (digits radix n).length ≤ k := by
  unfold digits
  split
  · exact hk
  · exact (Nat.digits_length_le_iff hr n).2 hn

end Digits

/-! ## Strings of digits -/

/-- The value of a string of digits. -/
def value (radix : Nat) (s : List UInt8) : Nat :=
  s.foldl (fun v c => v * radix + digitValue c) 0

/-- The numeral of `n`. -/
def numeral (radix n : Nat) : List UInt8 := ((digits radix n).map digitChar).reverse

/-- A decimal numeral with its sign. -/
def decimal (n : Int) : List UInt8 :=
  if n < 0 then 45 :: numeral 10 n.natAbs else numeral 10 n.natAbs

section Value

variable {radix : Nat}

theorem value_eq_ofDigits (radix : Nat) (s : List UInt8) :
    value radix s = Nat.ofDigits radix (s.reverse.map digitValue) := by
  induction s using List.reverseRecOn with
  | nil => rfl
  | append_singleton s c ih =>
    unfold value at ih ⊢
    rw [List.foldl_append, List.foldl_cons, List.foldl_nil, ih, List.reverse_append,
      List.reverse_singleton, List.singleton_append, List.map_cons, Nat.ofDigits_cons,
      Nat.mul_comm, Nat.add_comm]

theorem value_append (radix : Nat) (s t : List UInt8) :
    value radix (s ++ t) = value radix s * radix ^ t.length + value radix t := by
  rw [value_eq_ofDigits, value_eq_ofDigits, value_eq_ofDigits, List.reverse_append, List.map_append,
    Nat.ofDigits_append, List.length_map, List.length_reverse, Nat.mul_comm, Nat.add_comm]

theorem value_cons (radix : Nat) (c : UInt8) (s : List UInt8) :
    value radix (c :: s) = digitValue c * radix ^ s.length + value radix s := by
  have hsingle : value radix [c] = digitValue c := by
    show 0 * radix + digitValue c = _
    rw [Nat.zero_mul, Nat.zero_add]
  rw [← List.singleton_append, value_append, hsingle]

theorem value_lt (hr : 2 ≤ radix) {s : List UInt8} (hs : ∀ c ∈ s, digitValue c < radix) :
    value radix s < radix ^ s.length := by
  rw [value_eq_ofDigits]
  have hlt := Nat.ofDigits_lt_base_pow_length (l := s.reverse.map digitValue) hr (by
    intro d hd
    obtain ⟨c, hc, rfl⟩ := List.mem_map.1 hd
    exact hs c (List.mem_reverse.1 hc))
  rwa [List.length_map, List.length_reverse] at hlt

/-- Reading a numeral back. -/
theorem value_numeral (hr : 2 ≤ radix) (hmax : radix ≤ 36) (n : Nat) :
    value radix (numeral radix n) = n := by
  unfold numeral
  rw [value_eq_ofDigits, List.reverse_reverse, List.map_map]
  have hid : (digits radix n).map (digitValue ∘ digitChar) = digits radix n := by
    refine (List.map_congr_left fun d hd => ?_).trans (List.map_id _)
    have hlt := digits_lt hr hd
    exact digitValue_digitChar (by omega)
  rw [hid, ofDigits_digits]

theorem isDigitChar_of_mem_numeral (hr : 2 ≤ radix) (hmax : radix ≤ 36) {n : Nat} {c : UInt8}
    (hc : c ∈ numeral radix n) : IsDigitChar c := by
  unfold numeral at hc
  obtain ⟨d, hd, rfl⟩ := List.mem_map.1 (List.mem_reverse.1 hc)
  have hlt := digits_lt hr hd
  exact isDigitChar_digitChar (by omega)

/-- There are no leading zeros. -/
theorem numeral_head (hr : 2 ≤ radix) (hmax : radix ≤ 36) {n : Nat} (hn : n ≠ 0) :
    (numeral radix n).head? ≠ some 48 := by
  have hne : Nat.digits radix n ≠ [] := Nat.digits_ne_nil_iff_ne_zero.2 hn
  have hlast := Nat.getLast_digit_ne_zero radix hn
  have hlt := Nat.digits_lt_base hr (List.getLast_mem hne)
  unfold numeral digits
  rw [if_neg hn, List.head?_reverse, List.getLast?_map, List.getLast?_eq_getLast_of_ne_nil hne,
    Option.map_some, ne_eq, Option.some.injEq]
  intro hzero
  have htoNat := congrArg UInt8.toNat hzero
  rw [digitChar_toNat (by omega)] at htoNat
  have h48 : (48 : UInt8).toNat = 48 := rfl
  rw [h48] at htoNat
  split at htoNat <;> omega

theorem numeral_zero (radix : Nat) : numeral radix 0 = [48] := rfl

/-- The characters of a decimal numeral. -/
theorem mem_decimal {n : Int} {c : UInt8} (hc : c ∈ decimal n) : c = 45 ∨ IsDigitChar c := by
  unfold decimal at hc
  split at hc
  · rcases List.mem_cons.1 hc with rfl | hc
    · exact Or.inl rfl
    · exact Or.inr (isDigitChar_of_mem_numeral (by omega) (by omega) hc)
  · exact Or.inr (isDigitChar_of_mem_numeral (by omega) (by omega) hc)

theorem notMem_decimal {c : UInt8} (hminus : c ≠ 45) (hdigit : ¬ IsDigitChar c) (n : Int) :
    c ∉ decimal n := fun hmem => (mem_decimal hmem).elim hminus hdigit

end Value

end Numeral
