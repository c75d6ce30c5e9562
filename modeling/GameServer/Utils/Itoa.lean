/-
  `itoa` of `uthash/main.c`.

  A first loop stores the digits from the least significant one on (`convert_digits`), a
  second one reverses them in place, leaving a sign where it is (`reverseLoop_mirrors`). Both
  end for every `int` and every radix from 2 to 36, `INT_MIN` included, and leave the
  canonical numeral (`itoa_numeral`).
-/
import GameServer.Lib.CInt
import GameServer.Lib.InPlace
import GameServer.Lib.LuaState
import GameServer.Lib.Numeral

namespace GameServer.Utils

open CInt InPlace Lua Numeral

/-- The caller's array and the indices that were stored to, newest first. -/
structure Str where
  bytes : Int → UInt8
  written : List Int

/-- `str[i] = c` -/
def Str.store (s : Str) (i : Int) (c : UInt8) : Str :=
  ⟨Function.update s.bytes i c, i :: s.written⟩

/-- `index` -/
def index : Bytes := ascii "0123456789ABCDEFGHIJKLMNOPQRSTUVWXYZ"

/-- The `do` loop that stores the digits of `unum` from `i` on, at most `fuel` times round:
    `i` and the array after it. -/
def convert (radix : Nat) : Nat → Nat → Int → Str → Option (Int × Str)
  | 0, _, _, _ => none
  | fuel + 1, unum, i, str =>
    let str := str.store i (index.getD (unum % radix) 0)
    let unum := unum / radix
    if unum ≠ 0 then convert radix fuel unum (i + 1) str else some (i + 1, str)

/-- The `for` loop that reverses the digits, at most `fuel` tests of its condition. -/
def reverseLoop (i k : Int) : Nat → Int → Str → Option Str
  | 0, _, _ => none
  | fuel + 1, j, str =>
    if j ≤ (i - 1).tdiv 2 then
      let temp := str.bytes j
      let str := str.store j (str.bytes (i - 1 + k - j))
      let str := str.store (i - 1 + k - j) temp
      reverseLoop i k fuel (j + 1) str
    else some str

/-- `itoa` behind the sign. -/
def itoaDigits (fuel radix unum : Nat) (i : Int) (str : Str) : Option Str :=
  match convert radix fuel unum i str with
  | none => none
  | some (i, str) =>
    let str := str.store i 0
    let k := if str.bytes 0 = 45 then 1 else 0
    reverseLoop i k fuel k str

/-- `itoa`, on an array with the contents `old`. -/
def itoa (fuel : Nat) (num : Int) (old : Int → UInt8) (radix : Int) : Option Str :=
  let str : Str := ⟨old, []⟩
  if radix = 10 ∧ num < 0 then
    itoaDigits fuel (u32 radix) (u32 (i32 (-num))) 1 (str.store 0 45)
  else itoaDigits fuel (u32 radix) (u32 num) 0 str

/-! ## The digits -/

theorem index_getD {d : Nat} (hd : d < 36) : index.getD d 0 = digitChar d := by
  revert d
  decide

section Convert

variable {radix : Nat}

/-- The loop stores the digits of `unum`, least significant first. -/
theorem convert_digits (hr : 2 ≤ radix) (hmax : radix ≤ 36) (fuel : Nat) :
    ∀ (unum : Nat) (i : Int) (str : Str), (digits radix unum).length ≤ fuel →
      ∃ str', convert radix fuel unum i str = some (i + (digits radix unum).length, str') ∧
        Spells str'.bytes i ((digits radix unum).map digitChar) ∧
        (∀ x < i, str'.bytes x = str.bytes x) ∧
        ∀ x ∈ str'.written, x ∈ str.written ∨ i ≤ x ∧ x < i + (digits radix unum).length := by
  induction fuel with
  | zero =>
    intro unum i str hfuel
    exact absurd (List.length_eq_zero_iff.1 (Nat.le_zero.1 hfuel)) (digits_ne_nil hr unum)
  | succ fuel ih =>
    intro unum i str hfuel
    have hstep := digits_step hr unum
    have hchar : index.getD (unum % radix) 0 = digitChar (unum % radix) :=
      index_getD ((Nat.mod_lt _ (by omega)).trans_le hmax)
    rw [convert, hchar]
    by_cases hq : unum / radix = 0
    · rw [if_pos hq] at hstep
      rw [if_neg (not_not.2 hq), hstep]
      refine ⟨_, rfl, ?_, fun x hx => ?_, fun x hx => ?_⟩
      · rw [List.map_singleton, spells_cons]
        exact ⟨Function.update_self .., spells_nil _ _⟩
      · exact Function.update_of_ne (by omega) _ _
      · rcases List.mem_cons.1 hx with rfl | hx
        · exact Or.inr ⟨le_rfl, by simp⟩
        · exact Or.inl hx
    · rw [if_neg hq] at hstep
      rw [hstep, List.length_cons] at hfuel
      obtain ⟨str', hrun, hspells, hbelow, hwritten⟩ :=
        ih (unum / radix) (i + 1) (str.store i (digitChar (unum % radix))) (by omega)
      have hlen : i + ((digits radix unum).length : Int) =
          i + 1 + (digits radix (unum / radix)).length := by
        rw [hstep, List.length_cons]
        push_cast
        omega
      rw [if_pos hq, hlen]
      refine ⟨str', hrun, ?_, fun x hx => ?_, fun x hx => ?_⟩
      · rw [hstep, List.map_cons, spells_cons, hbelow i (by omega)]
        exact ⟨Function.update_self .., hspells⟩
      · rw [hbelow x (by omega)]
        exact Function.update_of_ne (by omega) _ _
      · rcases hwritten x hx with hx | hx
        · rcases List.mem_cons.1 hx with rfl | hx
          · exact Or.inr ⟨le_rfl, by omega⟩
          · exact Or.inl hx
        · exact Or.inr ⟨by omega, by omega⟩

end Convert

/-! ## The reversal -/

/-- The loop mirrors the range from `k` to `i - 1`, whose ends lie `t` inwards, until the two
    positions have met. -/
theorem reverseLoop_mirrors {i k : Int} (hk : k = 0 ∨ k = 1) (hi : 1 ≤ i) (b : Int → UInt8)
    (fuel : Nat) :
    ∀ (t : Int) (str : Str), 0 ≤ t → k + t ≤ i → str.bytes = mirrored b k (i - 1) t →
      i - (k + t) < fuel →
      ∃ t' str', reverseLoop i k fuel (k + t) str = some str' ∧
        str'.bytes = mirrored b k (i - 1) t' ∧ i - 1 - t' ≤ k + t' ∧ k + t' ≤ i ∧
        ∀ x ∈ str'.written, x ∈ str.written ∨ k ≤ x ∧ x < i := by
  induction fuel with
  | zero =>
    intro t str ht hle hb hfuel
    omega
  | succ fuel ih =>
    intro t str ht hle hb hfuel
    have hhalf : (i - 1).tdiv 2 = (i - 1) / 2 := Int.tdiv_eq_ediv_of_nonneg (by omega)
    rw [reverseLoop]
    by_cases hcond : k + t ≤ (i - 1).tdiv 2
    · have hmeet : k + t ≤ i - 1 - t := by omega
      have hmirror : i - 1 + k - (k + t) = k + (i - 1) - (k + t) := by omega
      rw [if_pos hcond, hmirror]
      have hswap : ((str.store (k + t) (str.bytes (k + (i - 1) - (k + t)))).store
          (k + (i - 1) - (k + t)) (str.bytes (k + t))).bytes = mirrored b k (i - 1) (t + 1) := by
        rw [← swap_mirrored b ht hmeet, ← hb]
        rfl
      obtain ⟨t', str', hrun, hbytes, hdone, hin, hwritten⟩ :=
        ih (t + 1) _ (by omega) (by omega) hswap (by omega)
      rw [← Int.add_assoc] at hrun
      refine ⟨t', str', hrun, hbytes, hdone, hin, fun x hx => ?_⟩
      rcases hwritten x hx with hx | hx
      · rcases List.mem_cons.1 hx with rfl | hx
        · exact Or.inr ⟨by omega, by omega⟩
        · rcases List.mem_cons.1 hx with rfl | hx
          · exact Or.inr ⟨by omega, by omega⟩
          · exact Or.inl hx
      · exact Or.inr hx
    · rw [if_neg hcond]
      exact ⟨t, str, rfl, hb, by omega, hle, fun x hx => Or.inl hx⟩

/-! ## The numeral -/

/-- The text for `num`: a sign and the digits of `|num|` if it is negative and `radix` is 10,
    else the digits of `num` modulo `2 ^ 32`. -/
def itoaText (num radix : Int) : Bytes :=
  if radix = 10 ∧ num < 0 then 45 :: numeral 10 num.natAbs else numeral radix.toNat (u32 num)

/-- The digits behind a sign. -/
def unsigned (text : Bytes) : Bytes := if text.head? = some 45 then text.tail else text

/-- The number that a text with a sign stands for. -/
def readBack (radix : Nat) (text : Bytes) : Int :=
  if text.head? = some 45 then -value radix text.tail else value radix text

/-- A string of `0` to `9` and `A` to `Z` behind an optional sign, without leading zeros, from
    which `num` can be read back. -/
structure Canonical (num : Int) (radix : Nat) (text : Bytes) : Prop where
  chars : ∀ c ∈ unsigned text, IsDigitChar c
  head : (unsigned text).head? = some 48 → unsigned text = [48]
  reads : i32 (readBack radix text) = num

/-- The string in the array is `text`, which has a NUL behind it. -/
structure Leaves (str : Str) (text : Bytes) : Prop where
  spells : Spells str.bytes 0 (text ++ [0])
  nulFree : NulFree text

section Digits

variable {radix : Nat}

/-- The second loop knows from the first character whether there is a sign. -/
theorem sign_recognised (hr : 2 ≤ radix) (hmax : radix ≤ 36) {k i : Int} (hk : k = 0 ∨ k = 1)
    (hi : 1 ≤ i) {unum : Nat} {str : Str}
    (hspells : Spells str.bytes k ((digits radix unum).map digitChar))
    (hsign : k = 1 → str.bytes 0 = 45) :
    (if (str.store i 0).bytes 0 = 45 then (1 : Int) else 0) = k := by
  have hstored : (str.store i 0).bytes 0 = str.bytes 0 := Function.update_of_ne (by omega) _ _
  rw [hstored]
  rcases hk with rfl | rfl
  · obtain ⟨d, rest, hdigits⟩ := List.exists_cons_of_ne_nil (digits_ne_nil hr unum)
    have hd : d < 36 := (digits_lt hr (hdigits ▸ List.mem_cons_self)).trans_le hmax
    have hchar : str.bytes 0 = digitChar d := by
      rw [hdigits, List.map_cons, spells_cons] at hspells
      exact hspells.1
    have hnot : digitChar d ≠ 45 := by
      intro heq
      have hclass := isDigitChar_digitChar hd
      rw [heq] at hclass
      revert hclass
      decide
    rw [hchar, if_neg hnot]
  · rw [hsign rfl, if_pos rfl]

/-- Behind a sign or not, the digits become the numeral, with a NUL behind it. -/
theorem itoaDigits_numeral (hr : 2 ≤ radix) (hmax : radix ≤ 36) {k : Int} (hk : k = 0 ∨ k = 1)
    {fuel unum : Nat} (hfuel : k + (digits radix unum).length < fuel) {str : Str}
    (hsign : k = 1 → str.bytes 0 = 45) :
    ∃ str', itoaDigits fuel radix unum k str = some str' ∧
      Spells str'.bytes k (numeral radix unum ++ [0]) ∧
      (∀ x < k, str'.bytes x = str.bytes x) ∧
      ∀ x ∈ str'.written, x ∈ str.written ∨ k ≤ x ∧ x ≤ k + (digits radix unum).length := by
  obtain ⟨str₁, hconvert, hspells, hbelow, hwritten⟩ :=
    convert_digits hr hmax fuel unum k str (by omega)
  have hlen := List.length_pos_iff.2 (digits_ne_nil hr unum)
  generalize hi : k + ((digits radix unum).length : Int) = i at hconvert hwritten hfuel
  have hpos : 1 ≤ i := by omega
  have hfirst := sign_recognised hr hmax hk hpos hspells fun hone => by
    rw [hbelow 0 (by omega), hsign hone]
  obtain ⟨t, str₂, hreverse, hbytes, hdone, hin, hwritten₂⟩ :=
    reverseLoop_mirrors hk hpos (str₁.store i 0).bytes fuel 0 (str₁.store i 0) le_rfl
      (by omega) (mirrored_zero _ _ _).symm (by omega)
  rw [Int.add_zero] at hreverse
  have houtside : ∀ x, x < k ∨ i - 1 < x → str₂.bytes x = (str₁.store i 0).bytes x := by
    intro x hx
    rw [hbytes]
    exact mirrored_outside _ (by omega) hx
  refine ⟨str₂, ?_, ?_, fun x hx => ?_, fun x hx => ?_⟩
  · unfold itoaDigits
    rw [hconvert]
    simp only [hfirst]
    exact hreverse
  · rw [spells_append, numeral, List.length_reverse, List.length_map, hi]
    constructor
    · have hstored : Spells (str₁.store i 0).bytes k ((digits radix unum).map digitChar) := by
        refine hspells.congr fun x hlo hhi => Function.update_of_ne ?_ _ _
        rw [List.length_map] at hhi
        omega
      have hend : i - 1 = k + ((digits radix unum).map digitChar).length - 1 := by
        rw [List.length_map]
        omega
      refine spells_reverse hstored hend fun x hlo hhi => ?_
      rw [hbytes]
      exact mirrored_done _ hdone hlo hhi
    · rw [spells_cons, houtside i (by omega)]
      exact ⟨Function.update_self .., spells_nil _ _⟩
  · rw [houtside x (by omega), ← hbelow x hx]
    exact Function.update_of_ne (by omega) _ _
  · rcases hwritten₂ x hx with hx | hx
    · rcases List.mem_cons.1 hx with rfl | hx
      · exact Or.inr ⟨by omega, le_rfl⟩
      · rcases hwritten x hx with hx | hx
        · exact Or.inl hx
        · exact Or.inr ⟨by omega, by omega⟩
    · exact Or.inr ⟨by omega, by omega⟩

end Digits

/-- The digits of a number are its canonical text. -/
theorem canonical_numeral {radix n : Nat} (hr : 2 ≤ radix) (hmax : radix ≤ 36) :
    unsigned (numeral radix n) = numeral radix n ∧ readBack radix (numeral radix n) = n ∧
      (∀ c ∈ numeral radix n, IsDigitChar c) ∧
      ((numeral radix n).head? = some 48 → numeral radix n = [48]) := by
  have hchars : ∀ c ∈ numeral radix n, IsDigitChar c :=
    fun c hc => isDigitChar_of_mem_numeral hr hmax hc
  have hsign : (numeral radix n).head? ≠ some 45 := by
    intro hhead
    exact absurd (hchars 45 (List.mem_of_head? hhead)) (by decide)
  refine ⟨if_neg hsign, ?_, hchars, fun hhead => ?_⟩
  · rw [readBack, if_neg hsign, value_numeral hr hmax]
  · by_cases hn : n = 0
    · rw [hn, numeral_zero]
    · exact absurd hhead (numeral_head hr hmax hn)

theorem canonical_itoaText {num radix : Int} (hnum : InInt num) (hlo : 2 ≤ radix)
    (hhi : radix ≤ 36) : Canonical num radix.toNat (itoaText num radix) := by
  unfold itoaText
  by_cases hneg : radix = 10 ∧ num < 0
  · obtain ⟨rfl, hneg⟩ := hneg
    obtain ⟨-, -, hchars, hhead⟩ := canonical_numeral (n := num.natAbs) (show 2 ≤ 10 by omega)
      (by omega)
    have hten : (10 : Int).toNat = 10 := rfl
    rw [if_pos ⟨rfl, hneg⟩, hten]
    have hunsigned : unsigned (45 :: numeral 10 num.natAbs) = numeral 10 num.natAbs := rfl
    have hback : readBack 10 (45 :: numeral 10 num.natAbs) = num := by
      show -((value 10 (numeral 10 num.natAbs) : Nat) : Int) = num
      rw [value_numeral (by omega) (by omega)]
      omega
    exact ⟨by rwa [hunsigned], by rwa [hunsigned], by rw [hback]; exact i32_eq hnum.1 hnum.2⟩
  · obtain ⟨hunsigned, hback, hchars, hhead⟩ := canonical_numeral (n := u32 num)
      (show 2 ≤ radix.toNat by omega) (by omega)
    rw [if_neg hneg]
    refine ⟨by rwa [hunsigned], by rwa [hunsigned], ?_⟩
    rw [hback, i32_u32]
    exact i32_eq hnum.1 hnum.2

theorem nulFree_itoaText {num radix : Int} (hlo : 2 ≤ radix) (hhi : radix ≤ 36) :
    NulFree (itoaText num radix) := by
  have hdigits : ∀ {r n : Nat}, 2 ≤ r → r ≤ 36 → (0 : UInt8) ∉ numeral r n := by
    intro r n hr hmax hmem
    exact absurd (isDigitChar_of_mem_numeral hr hmax hmem) (by decide)
  unfold NulFree itoaText
  split
  · rw [List.mem_cons, not_or]
    exact ⟨by decide, hdigits (by omega) (by omega)⟩
  · exact hdigits (by omega) (by omega)

/-- A negative number in decimal. -/
theorem itoa_signed {num : Int} (hnum : InInt num) (hneg : num < 0) (old : Int → UInt8) {fuel : Nat}
    (hfuel : 33 ≤ fuel) :
    ∃ str, itoa fuel num old 10 = some str ∧
      Spells str.bytes 0 (45 :: numeral 10 num.natAbs ++ [0]) ∧
      ∀ x ∈ str.written, 0 ≤ x ∧ x < 33 := by
  have hlow := hnum.1
  unfold intMin at hlow
  have habs : u32 (i32 (-num)) = num.natAbs := by
    have heq := u32_eq (x := -num) (by omega) (by omega)
    rw [u32_i32]
    omega
  have hlen : (digits 10 num.natAbs).length ≤ 10 :=
    length_digits_le (by omega) (by omega) (by omega)
  have hfits : 1 + ((digits 10 num.natAbs).length : Int) < fuel := by omega
  have hsign : (1 : Int) = 1 → (Str.store ⟨old, []⟩ 0 45).bytes 0 = 45 := fun _ => rfl
  obtain ⟨str, hrun, hspells, hbelow, hwritten⟩ :=
    itoaDigits_numeral (by omega) (by omega) (Or.inr rfl) hfits hsign
  unfold itoa
  rw [if_pos ⟨rfl, hneg⟩, habs]
  refine ⟨str, hrun, ?_, fun x hx => ?_⟩
  · rw [List.cons_append, spells_cons, hbelow 0 (by omega)]
    exact ⟨rfl, hspells⟩
  · rcases hwritten x hx with hx | hx
    · rw [List.mem_singleton.1 hx]
      omega
    · omega

/-- Every other number, and every other radix. -/
theorem itoa_unsigned {num radix : Int} (hlo : 2 ≤ radix) (hhi : radix ≤ 36)
    (hneg : ¬ (radix = 10 ∧ num < 0)) (old : Int → UInt8) {fuel : Nat} (hfuel : 33 ≤ fuel) :
    ∃ str, itoa fuel num old radix = some str ∧
      Spells str.bytes 0 (numeral radix.toNat (u32 num) ++ [0]) ∧
      ∀ x ∈ str.written, 0 ≤ x ∧ x < 33 := by
  have hradix : u32 radix = radix.toNat := by
    have heq := u32_eq (x := radix) (by omega) (by omega)
    omega
  have hlen : (digits radix.toNat (u32 num)).length ≤ 32 := by
    refine length_digits_le (by omega) (by omega) ((u32_lt num).trans_le ?_)
    exact Nat.pow_le_pow_left (by omega) 32
  have hfits : 0 + ((digits radix.toNat (u32 num)).length : Int) < fuel := by omega
  have hsign : (0 : Int) = 1 → (Str.mk old []).bytes 0 = 45 := fun h => absurd h (by omega)
  obtain ⟨str, hrun, hspells, -, hwritten⟩ :=
    itoaDigits_numeral (by omega) (by omega) (Or.inl rfl) hfits hsign
  unfold itoa
  rw [if_neg hneg, hradix]
  refine ⟨str, hrun, hspells, fun x hx => ?_⟩
  rcases hwritten x hx with hx | hx
  · cases hx
  · omega

/-- For every `int` and every radix from 2 to 36: `itoa` ends and leaves the text of `num`,
    which is canonical, and stores to no index from 33 on. -/
theorem itoa_numeral {num radix : Int} (hnum : InInt num) (hlo : 2 ≤ radix) (hhi : radix ≤ 36)
    (old : Int → UInt8) {fuel : Nat} (hfuel : 33 ≤ fuel) :
    ∃ str, itoa fuel num old radix = some str ∧ Leaves str (itoaText num radix) ∧
      Canonical num radix.toNat (itoaText num radix) ∧
      ∀ x ∈ str.written, 0 ≤ x ∧ x < 33 := by
  have hcanonical := canonical_itoaText hnum hlo hhi
  have hnul : NulFree (itoaText num radix) := nulFree_itoaText hlo hhi
  have hspelled : ∃ str, itoa fuel num old radix = some str ∧
      Spells str.bytes 0 (itoaText num radix ++ [0]) ∧ ∀ x ∈ str.written, 0 ≤ x ∧ x < 33 := by
    unfold itoaText
    by_cases hneg : radix = 10 ∧ num < 0
    · rw [if_pos hneg, hneg.1]
      exact itoa_signed hnum hneg.2 old hfuel
    · rw [if_neg hneg]
      exact itoa_unsigned hlo hhi hneg old hfuel
  obtain ⟨str, hrun, hspells, hwritten⟩ := hspelled
  exact ⟨str, hrun, ⟨hspells, hnul⟩, hcanonical, hwritten⟩

/-- `itoa(INT_MIN, str, 10)` -/
theorem itoa_intMin : ∃ str, itoa 33 intMin (fun _ => 0) 10 = some str ∧
    Leaves str (itoaText intMin 10) ∧ Canonical intMin 10 (itoaText intMin 10) ∧
    ∀ x ∈ str.written, 0 ≤ x ∧ x < 33 :=
  itoa_numeral (by decide) (by decide) (by decide) _ (by decide)

end GameServer.Utils
