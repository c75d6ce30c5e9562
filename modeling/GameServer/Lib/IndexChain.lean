/-
  Chains threaded through a table: from an index the table gives the next one, until the
  `stop` index. `chainLength` counts the links, and has no value when the chain leaves the
  indices that count as `inside` or is not over within the fuel.

  The two rules are about tables whose entries are ascending from some index on:
  `chainLength_ascending` (the chain reaches the stop) and `chainLength_leaves` (an entry on
  the way points outside).
-/

namespace IndexChain

/-- Number of links from `i` to `stop` along `next`. -/
def chainLength (next : Int → Int) (stop : Int) (inside : Int → Bool) : Nat → Int → Option Nat
  | 0, i => if i = stop then some 0 else none
  | fuel + 1, i =>
    if i = stop then some 0
    else if inside i then (chainLength next stop inside fuel (next i)).map (· + 1)
    else none

variable {next : Int → Int} {stop : Int} {inside : Int → Bool}

@[simp] theorem chainLength_stop (fuel : Nat) :
    chainLength next stop inside fuel stop = some 0 := by
  cases fuel <;> simp [chainLength]

theorem chainLength_step (fuel : Nat) {i : Int} (hi : i ≠ stop) (hin : inside i = true) :
    chainLength next stop inside (fuel + 1) i =
      (chainLength next stop inside fuel (next i)).map (· + 1) := by
  simp [chainLength, hi, hin]

theorem chainLength_outside (fuel : Nat) {i : Int} (hi : i ≠ stop) (hout : inside i = false) :
    chainLength next stop inside fuel i = none := by
  cases fuel <;> simp [chainLength, hi, hout]

/-- A chain whose links all go one up takes as many links as the distance. -/
theorem chainLength_ascending (d : Nat) :
    ∀ (fuel : Nat) (i : Int), i + d = stop → d ≤ fuel →
      (∀ j, i ≤ j → j < stop → inside j = true ∧ next j = j + 1) →
      chainLength next stop inside fuel i = some d := by
  induction d with
  | zero =>
    intro fuel i hi _ _
    obtain rfl : i = stop := by omega
    simp
  | succ d ih =>
    intro fuel i hi hfuel hup
    obtain ⟨fuel, rfl⟩ : ∃ f, fuel = f + 1 := ⟨fuel - 1, by omega⟩
    obtain ⟨hin, hnext⟩ := hup i (by omega) (by omega)
    rw [chainLength_step fuel (by omega) hin, hnext,
      ih fuel (i + 1) (by omega) (by omega) fun j hj => hup j (by omega)]
    rfl

/-- A chain that goes one up as far as `m` and then outside has no length. -/
theorem chainLength_leaves {m : Int} (hm : inside m = true) (hms : m < stop)
    (hout : inside (next m) = false) (hne : next m ≠ stop) (d : Nat) :
    ∀ (fuel : Nat) (i : Int), i + d = m →
      (∀ j, i ≤ j → j < m → inside j = true ∧ next j = j + 1) →
      chainLength next stop inside fuel i = none := by
  induction d with
  | zero =>
    intro fuel i hi _
    obtain rfl : i = m := by omega
    cases fuel with
    | zero => simp [chainLength, Int.ne_of_lt hms]
    | succ fuel =>
      rw [chainLength_step fuel (Int.ne_of_lt hms) hm, chainLength_outside fuel hne hout]
      rfl
  | succ d ih =>
    intro fuel i hi hup
    cases fuel with
    | zero => simp only [chainLength, if_neg (show i ≠ stop by omega)]
    | succ fuel =>
      obtain ⟨hin, hnext⟩ := hup i (by omega) (by omega)
      rw [chainLength_step fuel (by omega) hin, hnext,
        ih fuel (i + 1) (by omega) fun j hj => hup j (by omega)]
      rfl

end IndexChain
