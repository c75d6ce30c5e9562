/-
  Format strings of the `printf` family with the directives `%%`, `%d` and `%s`.

  `expand` is the text of a format and its arguments, and `none` where C leaves the behaviour
  undefined: another directive, a directive that is cut off, an argument that is missing or of
  the wrong type. Arguments that are left over are ignored.

  An `Item` is one piece of a format with its argument, so that a list of items is a format
  with a matching list of arguments (`expand_format`). A text is a format itself: as one
  without arguments it expands to itself if and only if it contains no `%`
  (`expand_self_iff`).
-/
import GameServer.Lib.Numeral
import Mathlib.Data.List.TakeDrop

namespace Printf

/-- `%`, `d` and `s`. -/
def percent : UInt8 := 37
def convInt : UInt8 := 100
def convString : UInt8 := 115

/-- The contents of a C string: the bytes before its NUL. -/
structure CStr where
  bytes : List UInt8
  nulFree : (0 : UInt8) ∉ bytes
  deriving DecidableEq

inductive Arg where
  | int (n : Int)
  | str (s : CStr)
  deriving DecidableEq

/-- The text of the directive `%c`, and the arguments behind the one that it fetches. -/
def directive (c : UInt8) (args : List Arg) : Option (List UInt8 × List Arg) :=
  if c = percent then some ([percent], args)
  else if c = convInt then
    match args with
    | .int n :: args => some (Numeral.decimal n, args)
    | _ => none
  else if c = convString then
    match args with
    | .str s :: args => some (s.bytes, args)
    | _ => none
  else none

/-- The text of a format with these arguments. -/
def expand : List UInt8 → List Arg → Option (List UInt8)
  | [], _ => some []
  | [c], _ => if c = percent then none else some [c]
  | c :: d :: format, args =>
    if c = percent then
      (directive d args).bind fun (text, args) => (expand format args).map (text ++ ·)
    else (expand (d :: format) args).map (c :: ·)

/-- A piece of a format, with its argument. -/
inductive Item where
  | literal (c : UInt8) (plain : c ≠ percent ∧ c ≠ 0)
  | percent
  | int (n : Int)
  | string (s : CStr)

namespace Item

/-- The piece as it stands in the format. -/
def source : Item → List UInt8
  | literal c _ => [c]
  | percent => [Printf.percent, Printf.percent]
  | int _ => [Printf.percent, convInt]
  | string _ => [Printf.percent, convString]

def args : Item → List Arg
  | literal _ _ => []
  | percent => []
  | int n => [.int n]
  | string s => [.str s]

def text : Item → List UInt8
  | literal c _ => [c]
  | percent => [Printf.percent]
  | int n => Numeral.decimal n
  | string s => s.bytes

/-- The first `room` bytes of the text contain a `%`. -/
def BringsPercent (room : Nat) : Item → Prop
  | literal _ _ => False
  | percent => 0 < room
  | int _ => False
  | string s => Printf.percent ∈ s.bytes.take room

theorem nulFree_source (item : Item) : (0 : UInt8) ∉ item.source := by
  cases item with
  | literal c plain => exact fun hmem => plain.2 (List.mem_singleton.1 hmem).symm
  | percent => exact (by decide : (0 : UInt8) ∉ [Printf.percent, Printf.percent])
  | int n => exact (by decide : (0 : UInt8) ∉ [Printf.percent, convInt])
  | string s => exact (by decide : (0 : UInt8) ∉ [Printf.percent, convString])

theorem nulFree_text (item : Item) : (0 : UInt8) ∉ item.text := by
  cases item with
  | literal c plain => exact fun hmem => plain.2 (List.mem_singleton.1 hmem).symm
  | percent => decide
  | int n => exact Numeral.notMem_decimal (by decide) (by decide) n
  | string s => exact s.nulFree

end Item

/-! ## Lists of items -/

theorem nulFree_flatMap {f : Item → List UInt8} (hf : ∀ item, (0 : UInt8) ∉ f item)
    (items : List Item) : (0 : UInt8) ∉ items.flatMap f := by
  intro hmem
  obtain ⟨item, -, hzero⟩ := List.mem_flatMap.1 hmem
  exact hf item hzero

def format (items : List Item) : CStr :=
  ⟨items.flatMap Item.source, nulFree_flatMap Item.nulFree_source items⟩

def args (items : List Item) : List Arg := items.flatMap Item.args

def text (items : List Item) : CStr :=
  ⟨items.flatMap Item.text, nulFree_flatMap Item.nulFree_text items⟩

/-- A `%%` or a `%` of a string argument falls within the first `room` bytes of the text. -/
def BringsPercent : Nat → List Item → Prop
  | _, [] => False
  | room, item :: items =>
    item.BringsPercent room ∨ BringsPercent (room - item.text.length) items

/-! ## One piece -/

theorem expand_literal {c : UInt8} (hc : c ≠ percent) (format : List UInt8) (args : List Arg) :
    expand (c :: format) args = (expand format args).map (c :: ·) := by
  cases format with
  | nil => exact if_neg hc
  | cons d format => rw [expand, if_neg hc]

theorem expand_directive (c : UInt8) (format : List UInt8) (args : List Arg) :
    expand (percent :: c :: format) args =
      (directive c args).bind fun (text, args) => (expand format args).map (text ++ ·) := by
  rw [expand, if_pos rfl]

/-- A piece gives its text, and leaves the other pieces their arguments. -/
theorem expand_item (item : Item) (format : List UInt8) (args : List Arg) :
    expand (item.source ++ format) (item.args ++ args) =
      (expand format args).map (item.text ++ ·) := by
  cases item with
  | literal c plain => exact expand_literal plain.1 format args
  | percent => exact expand_directive percent format args
  | int n => exact expand_directive convInt format (.int n :: args)
  | string s => exact expand_directive convString format (.str s :: args)

theorem text_cons (item : Item) (items : List Item) :
    (text (item :: items)).bytes = item.text ++ (text items).bytes := List.flatMap_cons

theorem expand_format (items : List Item) :
    expand (format items).bytes (args items) = some (text items).bytes := by
  induction items with
  | nil => rfl
  | cons item items ih =>
    have hformat : (format (item :: items)).bytes = item.source ++ (format items).bytes :=
      List.flatMap_cons
    have hargs : args (item :: items) = item.args ++ args items := List.flatMap_cons
    rw [hformat, hargs, expand_item, ih, text_cons, Option.map_some]

/-! ## A text as a format -/

theorem directive_nil (c : UInt8) :
    directive c [] = if c = percent then some ([percent], []) else none := by
  unfold directive
  simp

/-- Without arguments the text is no longer than the format, and a `%` makes it shorter. The
    recursion is that of `expand`. -/
theorem expand_nil_length : ∀ (format : List UInt8) {t : List UInt8}, expand format [] = some t →
    t.length ≤ format.length ∧ (percent ∈ format → t.length < format.length)
  | [], t, h => by
    obtain rfl : [] = t := Option.some.inj h
    exact ⟨le_rfl, fun hmem => absurd hmem List.not_mem_nil⟩
  | [c], t, h => by
    by_cases hc : c = percent
    · rw [expand, if_pos hc] at h
      cases h
    · rw [expand, if_neg hc] at h
      obtain rfl : [c] = t := Option.some.inj h
      exact ⟨le_rfl, fun hmem => absurd (List.mem_singleton.1 hmem).symm hc⟩
  | c :: d :: format, t, h => by
    by_cases hc : c = percent
    · subst hc
      rw [expand_directive, directive_nil] at h
      split at h
      · obtain ⟨rest, hrest, rfl⟩ := Option.map_eq_some_iff.1 h
        have hle := (expand_nil_length format hrest).1
        simp only [List.length_append, List.length_cons, List.length_nil]
        omega
      · cases h
    · rw [expand_literal hc] at h
      obtain ⟨rest, hrest, rfl⟩ := Option.map_eq_some_iff.1 h
      obtain ⟨hle, hlt⟩ := expand_nil_length (d :: format) hrest
      refine ⟨Nat.succ_le_succ hle, fun hmem => Nat.succ_lt_succ (hlt ?_)⟩
      exact (List.mem_cons.1 hmem).resolve_left (Ne.symm hc)

/-- Without arguments a format expands to itself if and only if it contains no `%`. -/
theorem expand_self_iff (format : List UInt8) :
    expand format [] = some format ↔ percent ∉ format := by
  constructor
  · intro hself hmem
    exact lt_irrefl _ ((expand_nil_length format hself).2 hmem)
  · intro hplain
    induction format with
    | nil => rfl
    | cons c format ih =>
      rw [List.mem_cons, not_or] at hplain
      rw [expand_literal (Ne.symm hplain.1), ih hplain.2, Option.map_some]

/-! ## Where a `%` comes from -/

theorem Item.bringsPercent_iff (room : Nat) (item : Item) :
    item.BringsPercent room ↔ Printf.percent ∈ item.text.take room := by
  cases item with
  | literal c plain =>
    refine iff_of_false id fun hmem => ?_
    exact plain.1 (List.mem_singleton.1 (List.mem_of_mem_take hmem)).symm
  | percent =>
    show 0 < room ↔ Printf.percent ∈ [Printf.percent].take room
    cases room <;> simp
  | int n =>
    refine iff_of_false id fun hmem => ?_
    exact Numeral.notMem_decimal (by decide) (by decide) n (List.mem_of_mem_take hmem)
  | string s => exact Iff.rfl

theorem bringsPercent_iff (room : Nat) (items : List Item) :
    BringsPercent room items ↔ percent ∈ (text items).bytes.take room := by
  induction items generalizing room with
  | nil => simp [BringsPercent, text]
  | cons item items ih =>
    rw [text_cons, List.take_append, List.mem_append, BringsPercent, ih, item.bringsPercent_iff]

end Printf
