/-
  What a pattern means.

  `parse` reads a pattern as a list of items. `Matches` says which stretches of the subject a
  list of items stands for, and with which captures: a repetition stands for any number of
  characters of its class. `attempt` is the order in which `match` tries them, as a function
  without state: the first match, and how many single characters were matched on the way,
  which `MatchState.nrep` bounds. It finds a match if there is one (`attempt_sound`,
  `attempt_complete`).
-/
import GameServer.LuaPattern.Basic

namespace GameServer.LuaPattern

open Lua

/-- One item. A class is its set of characters. -/
inductive Item where
  | openCapture
  | positionCapture
  | closeCapture
  | final
  | balance (b e : UInt8)
  | frontier (set : UInt8 → Bool)
  | back (l : UInt8)
  | one (set : UInt8 → Bool)
  | optional (set : UInt8 → Bool)
  | star (set : UInt8 → Bool)
  | plus (set : UInt8 → Bool)
  | minus (set : UInt8 → Bool)

/-- The item of a class with what is behind it, and the pattern behind both. -/
def suffixItem (set : UInt8 → Bool) (ep : Bytes) : Item × Bytes :=
  if head ep = chr '?' then (.optional set, ep.tail)
  else if head ep = chr '*' then (.star set, ep.tail)
  else if head ep = chr '+' then (.plus set, ep.tail)
  else if head ep = chr '-' then (.minus set, ep.tail)
  else (.one set, ep)

/-- The first item of a pattern that is not empty, and the pattern behind it. -/
def parseItem (p : Bytes) : Result (Item × Bytes) :=
  if head p = chr '(' then
    if head p.tail = chr ')' then .ok (.positionCapture, p.tail.tail)
    else .ok (.openCapture, p.tail)
  else if head p = chr ')' then .ok (.closeCapture, p.tail)
  else if head p = chr '$' ∧ p.tail = [] then .ok (.final, [])
  else if head p = chr '%' ∧ head p.tail = chr 'b' then
    match p.tail.tail with
    | b :: e :: rest => .ok (.balance b e, rest)
    | _ => .error .missingBalance
  else if head p = chr '%' ∧ head p.tail = chr 'f' then
    if head p.tail.tail ≠ chr '[' then .error .missingFrontierSet
    else do
      let ep ← classend p.tail.tail
      return (.frontier fun c => matchbracketclass c p.tail.tail ep, ep)
  else if head p = chr '%' ∧ isDigit (head p.tail) then .ok (.back (head p.tail), p.tail.tail)
  else do
    let ep ← classend p
    return suffixItem (accepts p ep) ep

/-- The items of a pattern. -/
def parse : Nat → Bytes → Result (List Item)
  | 0, _ => .error .noFuel
  | fuel + 1, p =>
    if p = [] then .ok []
    else do
      let (item, rest) ← parseItem p
      let items ← parse fuel rest
      return item :: items

/-! ## Matches -/

/-- A character of the set at a position. -/
def single (src : Bytes) (set : UInt8 → Bool) (s : Nat) : Bool := (src[s]?.map set).getD false

/-- How many characters of the set there are from a position on. -/
def span (src : Bytes) (set : UInt8 → Bool) (s : Nat) : Nat :=
  ((src.drop s).takeWhile set).length

def Capture.isOpen (cap : Capture) : Bool := cap.len = .unfinished

def Capture.close (s : Nat) (cap : Capture) : Capture := { cap with len := .closed (s - cap.init) }

/-- The capture that a closing bracket closes, the last open one. -/
def toClose (c : List Capture) : Option Nat := (captureToCloseLoop c c.length).toOption

/-- Where a balanced string from `s` on ends. -/
def balanced (src : Bytes) (b e : UInt8) (s : Nat) : Option Nat :=
  if src.getD s 0 ≠ b then none else balanceLoop b e (src.drop (s + 1)) (s + 1) 1

/-- The characters on both sides of a frontier. -/
def isFrontier (src : Bytes) (set : UInt8 → Bool) (s : Nat) : Bool :=
  !set (if s = 0 then 0 else src.getD (s - 1) 0) && set (src.getD s 0)

/-- Where a copy of the capture from `s` on ends. -/
def copied (src : Bytes) (captures : List Capture) (l : UInt8) (s : Nat) : Option Nat :=
  match captures[(l.toNat - (chr '1').toNat)]? with
  | some ⟨init, .closed len⟩ =>
    if len ≤ src.length - s ∧ (src.drop init).take len = (src.drop s).take len then some (s + len)
    else none
  | _ => none

/-- The items match from `s` to `e`, and the captures `c` become `c'`. -/
inductive Matches (src : Bytes) : List Item → Nat → List Capture → Nat → List Capture → Prop
  | nil (s : Nat) (c : List Capture) : Matches src [] s c s c
  | openCapture {items s c e c'} (h : Matches src items s (c ++ [⟨s, .unfinished⟩]) e c') :
      Matches src (.openCapture :: items) s c e c'
  | positionCapture {items s c e c'} (h : Matches src items s (c ++ [⟨s, .position⟩]) e c') :
      Matches src (.positionCapture :: items) s c e c'
  | closeCapture {items s c e c' l} (hl : toClose c = some l)
      (h : Matches src items s (c.modify l (Capture.close s)) e c') :
      Matches src (.closeCapture :: items) s c e c'
  | final {items c} : Matches src (.final :: items) src.length c src.length c
  | balance {items b e s c s' c' e'} (hb : balanced src b e s = some s')
      (h : Matches src items s' c e' c') : Matches src (.balance b e :: items) s c e' c'
  | frontier {items set s c e c'} (hf : isFrontier src set s = true)
      (h : Matches src items s c e c') : Matches src (.frontier set :: items) s c e c'
  | back {items l s c s' e c'} (hl : copied src c l s = some s')
      (h : Matches src items s' c e c') : Matches src (.back l :: items) s c e c'
  | one {items set s c e c'} (h1 : single src set s = true)
      (h : Matches src items (s + 1) c e c') : Matches src (.one set :: items) s c e c'
  | optional {items set s c n e c'} (hn : n ≤ 1) (hall : ∀ i < n, single src set (s + i) = true)
      (h : Matches src items (s + n) c e c') : Matches src (.optional set :: items) s c e c'
  | star {items set s c n e c'} (hall : ∀ i < n, single src set (s + i) = true)
      (h : Matches src items (s + n) c e c') : Matches src (.star set :: items) s c e c'
  | plus {items set s c n e c'} (hn : 1 ≤ n) (hall : ∀ i < n, single src set (s + i) = true)
      (h : Matches src items (s + n) c e c') : Matches src (.plus set :: items) s c e c'
  | minus {items set s c n e c'} (hall : ∀ i < n, single src set (s + i) = true)
      (h : Matches src items (s + n) c e c') : Matches src (.minus set :: items) s c e c'

/-! ## The order of the attempts -/

/-- The outcome of an attempt: where the match ends with which captures, and the cost. -/
structure Attempt where
  result : Option (Nat × List Capture)
  cost : Nat

namespace Attempt

def fail : Attempt := ⟨none, 0⟩

def tick (a : Attempt) : Attempt := { a with cost := a.cost + 1 }

/-- One attempt, and another one if it fails. -/
def orElse (a b : Attempt) : Attempt :=
  if a.result = none then ⟨b.result, a.cost + b.cost⟩ else a

/-- The first attempt that succeeds. -/
def firstOf (f : Nat → Attempt) : List Nat → Attempt
  | [] => fail
  | s :: positions => (f s).orElse (firstOf f positions)

end Attempt

/-- The positions from `s + k` down to `s`. -/
def downFrom (s : Nat) : Nat → List Nat
  | 0 => [s]
  | k + 1 => (s + (k + 1)) :: downFrom s k

/-- The positions from `s` up to `s + k`. -/
def upFrom (s : Nat) : Nat → List Nat
  | 0 => [s]
  | k + 1 => s :: upFrom (s + 1) k

/-- A repetition takes as many characters as there are first, `-` as few as possible. -/
def attempt (src : Bytes) : List Item → Nat → List Capture → Attempt
  | [], s, c => ⟨some (s, c), 0⟩
  | .openCapture :: items, s, c => attempt src items s (c ++ [⟨s, .unfinished⟩])
  | .positionCapture :: items, s, c => attempt src items s (c ++ [⟨s, .position⟩])
  | .closeCapture :: items, s, c =>
    match toClose c with
    | none => .fail
    | some l => attempt src items s (c.modify l (Capture.close s))
  | .final :: _, s, c => if s = src.length then ⟨some (s, c), 0⟩ else .fail
  | .balance b e :: items, s, c =>
    match balanced src b e s with
    | none => .fail
    | some s => attempt src items s c
  | .frontier set :: items, s, c => if isFrontier src set s then attempt src items s c else .fail
  | .back l :: items, s, c =>
    match copied src c l s with
    | none => .fail
    | some s => attempt src items s c
  | .one set :: items, s, c =>
    if single src set s then (attempt src items (s + 1) c).tick else .fail
  | .optional set :: items, s, c =>
    if single src set s then ((attempt src items (s + 1) c).orElse (attempt src items s c)).tick
    else attempt src items s c
  | .star set :: items, s, c =>
    if single src set s then
      (Attempt.firstOf (fun s => attempt src items s c) (downFrom s (span src set s))).tick
    else attempt src items s c
  | .plus set :: items, s, c =>
    if single src set s then
      (Attempt.firstOf (fun s => attempt src items s c)
        (downFrom (s + 1) (span src set (s + 1)))).tick
    else .fail
  | .minus set :: items, s, c =>
    if single src set s then
      (Attempt.firstOf (fun s => attempt src items s c) (upFrom s (span src set s))).tick
    else attempt src items s c

/-! ## Soundness and completeness -/

theorem mem_downFrom {s k x : Nat} : x ∈ downFrom s k ↔ ∃ n, n ≤ k ∧ x = s + n := by
  induction k with
  | zero => simp [downFrom]
  | succ k ih =>
    rw [downFrom, List.mem_cons, ih]
    constructor
    · rintro (rfl | ⟨n, hn, rfl⟩)
      · exact ⟨k + 1, Nat.le_refl _, rfl⟩
      · exact ⟨n, Nat.le_succ_of_le hn, rfl⟩
    · rintro ⟨n, hn, rfl⟩
      rcases Nat.of_le_succ hn with hn | rfl
      · exact Or.inr ⟨n, hn, rfl⟩
      · exact Or.inl rfl

theorem mem_upFrom {s k x : Nat} : x ∈ upFrom s k ↔ ∃ n, n ≤ k ∧ x = s + n := by
  induction k generalizing s with
  | zero => simp [upFrom]
  | succ k ih =>
    rw [upFrom, List.mem_cons, ih]
    constructor
    · rintro (rfl | ⟨n, hn, rfl⟩)
      · exact ⟨0, Nat.zero_le _, rfl⟩
      · exact ⟨n + 1, Nat.succ_le_succ hn, by omega⟩
    · rintro ⟨n, hn, rfl⟩
      cases n with
      | zero => exact Or.inl rfl
      | succ n => exact Or.inr ⟨n, Nat.le_of_succ_le_succ hn, by omega⟩

theorem span_of_single {src : Bytes} {set : UInt8 → Bool} {s : Nat} (h : single src set s = true) :
    span src set s = span src set (s + 1) + 1 := by
  unfold single at h
  cases hs : src[s]? with
  | none => simp [hs] at h
  | some x =>
    obtain ⟨hlt, hx⟩ := List.getElem?_eq_some_iff.1 hs
    rw [hs, Option.map_some, Option.getD_some] at h
    unfold span
    rw [List.drop_eq_getElem_cons hlt, hx, List.takeWhile_cons_of_pos h, List.length_cons]

theorem span_of_not {src : Bytes} {set : UInt8 → Bool} {s : Nat} (h : single src set s = false) :
    span src set s = 0 := by
  unfold single at h
  unfold span
  by_cases hlt : s < src.length
  · rw [List.getElem?_eq_getElem hlt, Option.map_some, Option.getD_some] at h
    rw [List.drop_eq_getElem_cons hlt,
      List.takeWhile_cons_of_neg (by rw [h]; exact Bool.false_ne_true)]
    rfl
  · rw [List.drop_eq_nil_of_le (Nat.le_of_not_lt hlt)]
    rfl

/-- `n` characters of the set, in terms of `span`. -/
theorem all_single_iff {src : Bytes} {set : UInt8 → Bool} {s n : Nat} :
    (∀ i < n, single src set (s + i) = true) ↔ n ≤ span src set s := by
  induction n generalizing s with
  | zero => simp
  | succ n ih =>
    constructor
    · intro h
      have h0 : single src set s = true := h 0 (Nat.succ_pos n)
      have hrest := (ih (s := s + 1)).1 fun i hi => by
        have := h (i + 1) (Nat.succ_lt_succ hi)
        rwa [← Nat.add_assoc, Nat.add_right_comm] at this
      rw [span_of_single h0]
      exact Nat.succ_le_succ hrest
    · intro h i hi
      cases hs : single src set s with
      | false =>
        rw [span_of_not hs] at h
        omega
      | true =>
        rw [span_of_single hs] at h
        cases i with
        | zero => exact hs
        | succ i =>
          have := (ih (s := s + 1)).2 (Nat.le_of_succ_le_succ h) i (Nat.lt_of_succ_lt_succ hi)
          rwa [Nat.add_right_comm, Nat.add_assoc] at this

namespace Attempt

theorem orElse_some {a b : Attempt} {r : Nat × List Capture} (h : (a.orElse b).result = some r) :
    a.result = some r ∨ a.result = none ∧ b.result = some r := by
  unfold orElse at h
  split at h
  · next ha => exact Or.inr ⟨ha, h⟩
  · exact Or.inl h

theorem orElse_none {a b : Attempt} :
    (a.orElse b).result = none ↔ a.result = none ∧ b.result = none := by
  unfold orElse
  split
  · next ha => simp [ha]
  · next ha => simp [ha]

theorem orElse_fail (a : Attempt) : a.orElse fail = a := by
  unfold orElse
  split
  · next ha =>
    cases a with
    | mk result cost =>
      obtain rfl : result = none := ha
      rfl
  · rfl

theorem firstOf_some {f : Nat → Attempt} {positions : List Nat} {r : Nat × List Capture}
    (h : (firstOf f positions).result = some r) : ∃ s ∈ positions, (f s).result = some r := by
  induction positions with
  | nil => cases h
  | cons s positions ih =>
    rcases orElse_some h with hs | ⟨-, hrest⟩
    · exact ⟨s, List.mem_cons_self, hs⟩
    · obtain ⟨s', hs', hr⟩ := ih hrest
      exact ⟨s', List.mem_cons_of_mem _ hs', hr⟩

theorem firstOf_none {f : Nat → Attempt} {positions : List Nat}
    (h : (firstOf f positions).result = none) : ∀ s ∈ positions, (f s).result = none := by
  induction positions with
  | nil => exact fun _ hs => absurd hs List.not_mem_nil
  | cons s positions ih =>
    obtain ⟨hs, hrest⟩ := orElse_none.1 h
    exact List.forall_mem_cons.2 ⟨hs, ih hrest⟩

end Attempt

variable {src : Bytes}

/-- What is found is a match. -/
theorem attempt_sound {items : List Item} {s e : Nat} {c c' : List Capture}
    (h : (attempt src items s c).result = some (e, c')) : Matches src items s c e c' := by
  induction items generalizing s c with
  | nil =>
    obtain ⟨rfl, rfl⟩ : s = e ∧ c = c' := by simpa [attempt] using h
    exact .nil s c
  | cons item items ih =>
    cases item with
    | openCapture => exact .openCapture (ih h)
    | positionCapture => exact .positionCapture (ih h)
    | closeCapture =>
      rw [attempt] at h
      split at h
      · cases h
      · next l hl => exact .closeCapture hl (ih h)
    | final =>
      rw [attempt] at h
      split at h
      · next hs =>
        obtain ⟨rfl, rfl⟩ : s = e ∧ c = c' := by simpa using h
        rw [hs]
        exact .final
      · cases h
    | balance b e =>
      rw [attempt] at h
      split at h
      · cases h
      · next s' hs => exact .balance hs (ih h)
    | frontier set =>
      rw [attempt] at h
      split at h
      · next hf => exact .frontier hf (ih h)
      · cases h
    | back l =>
      rw [attempt] at h
      split at h
      · cases h
      · next s' hs => exact .back hs (ih h)
    | one set =>
      rw [attempt] at h
      split at h
      · next hs => exact .one hs (ih h)
      · cases h
    | optional set =>
      have none : (attempt src items s c).result = some (e, c') →
          Matches src (.optional set :: items) s c e c' :=
        fun h => .optional (Nat.zero_le 1) (fun _ hi => absurd hi (Nat.not_lt_zero _)) (ih h)
      rw [attempt] at h
      split at h
      · next hs =>
        rcases Attempt.orElse_some h with h | ⟨-, h⟩
        · refine .optional (Nat.le_refl 1) (fun i hi => ?_) (ih h)
          obtain rfl := Nat.lt_one_iff.1 hi
          exact hs
        · exact none h
      · exact none h
    | star set =>
      rw [attempt] at h
      split at h
      · obtain ⟨s', hs', h⟩ := Attempt.firstOf_some h
        obtain ⟨n, hn, rfl⟩ := mem_downFrom.1 hs'
        exact .star (all_single_iff.2 hn) (ih h)
      · exact .star (n := 0) (fun _ hi => absurd hi (Nat.not_lt_zero _)) (ih h)
    | plus set =>
      rw [attempt] at h
      split at h
      · next hs =>
        obtain ⟨s', hs', h⟩ := Attempt.firstOf_some h
        obtain ⟨n, hn, rfl⟩ := mem_downFrom.1 hs'
        refine .plus (n := n + 1) (Nat.succ_pos n) (all_single_iff.2 ?_) ?_
        · rw [span_of_single hs]
          exact Nat.succ_le_succ hn
        · rw [Nat.add_comm n 1, ← Nat.add_assoc]
          exact ih h
      · cases h
    | minus set =>
      rw [attempt] at h
      split at h
      · obtain ⟨s', hs', h⟩ := Attempt.firstOf_some h
        obtain ⟨n, hn, rfl⟩ := mem_upFrom.1 hs'
        exact .minus (all_single_iff.2 hn) (ih h)
      · exact .minus (n := 0) (fun _ hi => absurd hi (Nat.not_lt_zero _)) (ih h)

/-- Where nothing is found there is no match. -/
theorem attempt_complete {items : List Item} {s e : Nat} {c c' : List Capture}
    (h : Matches src items s c e c') : (attempt src items s c).result ≠ none := by
  induction h with
  | nil s c => exact Option.some_ne_none _
  | openCapture h ih => exact ih
  | positionCapture h ih => exact ih
  | closeCapture hl h ih =>
    rw [attempt, hl]
    exact ih
  | final =>
    rw [attempt, if_pos rfl]
    exact Option.some_ne_none _
  | balance hb h ih =>
    rw [attempt, hb]
    exact ih
  | frontier hf h ih =>
    rw [attempt, if_pos hf]
    exact ih
  | back hl h ih =>
    rw [attempt, hl]
    exact ih
  | one h1 h ih =>
    rw [attempt, if_pos h1]
    exact ih
  | @optional items set s c n e c' hn hall h ih =>
    rw [attempt]
    split
    · intro hnone
      obtain ⟨hone, hzero⟩ := Attempt.orElse_none.1 hnone
      rcases Nat.le_one_iff_eq_zero_or_eq_one.1 hn with rfl | rfl
      · exact ih hzero
      · exact ih hone
    · next hs =>
      rw [all_single_iff, span_of_not (Bool.of_not_eq_true hs), Nat.le_zero] at hall
      subst hall
      exact ih
  | @star items set s c n e c' hall h ih =>
    rw [all_single_iff] at hall
    rw [attempt]
    split
    · exact fun hnone => ih (Attempt.firstOf_none hnone _ (mem_downFrom.2 ⟨n, hall, rfl⟩))
    · next hs =>
      rw [span_of_not (Bool.of_not_eq_true hs), Nat.le_zero] at hall
      subst hall
      exact ih
  | @plus items set s c n e c' hn hall h ih =>
    rw [all_single_iff] at hall
    rw [attempt]
    split
    · next hs =>
      rw [span_of_single hs] at hall
      refine fun hnone => ih (Attempt.firstOf_none hnone _ (mem_downFrom.2 ⟨n - 1, ?_, ?_⟩)) <;>
        omega
    · next hs =>
      rw [span_of_not (Bool.of_not_eq_true hs)] at hall
      omega
  | @minus items set s c n e c' hall h ih =>
    rw [all_single_iff] at hall
    rw [attempt]
    split
    · exact fun hnone => ih (Attempt.firstOf_none hnone _ (mem_upFrom.2 ⟨n, hall, rfl⟩))
    · next hs =>
      rw [span_of_not (Bool.of_not_eq_true hs), Nat.le_zero] at hall
      subst hall
      exact ih

end GameServer.LuaPattern
