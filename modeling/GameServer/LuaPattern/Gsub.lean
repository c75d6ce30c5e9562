/-
  `string.gsub`.

  The loop of `str_gsub` cuts the subject into pieces that it keeps and matches that it replaces
  (`Segments`). `outputs` is what becomes of the pieces: each attempt is paid for with
  repetitions, each match replaced. `gsub_segments`: the pieces in order are the subject, and
  what `string.gsub` returns or raises is what `outputs` does, whatever the replacement is.
-/
import GameServer.LuaPattern.Gmatch

namespace GameServer.LuaPattern

open Lua

/-- The third argument of `string.gsub`: a function, a table with what indexing it gives, or a
    text. `ε` are the errors that a call or an index can raise. -/
inductive Replacement (ε : Type) where
  | function (f : List Value → Except ε Value)
  | table (get : Value → Except ε Value)
  | string (news : Bytes)

/-- The errors: of the pattern, of a call, and "invalid replacement value (a %s)". -/
inductive GsubError (ε : Type) where
  | pattern (e : PatternError)
  | call (e : ε)
  | invalidValue (t : LuaType)
  deriving DecidableEq

variable {ε : Type}

def liftPattern {α : Type} : Result α → Except (GsubError ε) α := Except.mapError .pattern

def liftCall {α : Type} : Except ε α → Except (GsubError ε) α := Except.mapError .call

/-- `lua_tolstring` of a value. -/
def textOf : Value → Option Bytes
  | .string text => some text
  | v => v.numeral

/-- The stretch of the subject that is matched. -/
def MatchState.whole (ms : MatchState) (s e : Nat) : Bytes := (ms.src.drop s).take (e - s)

/-- `add_s`: what it adds to the buffer. -/
def addS (ms : MatchState) (s e : Nat) : Bytes → Result Bytes
  | [] => .ok []
  | c :: news =>
    if c ≠ chr '%' then do return c :: (← addS ms s e news)
    else
      match news with
      | [] => .error .invalidReplacement
      | d :: news =>
        if ¬ isDigit d then
          if d ≠ chr '%' then .error .invalidReplacement
          else do return d :: (← addS ms s e news)
        else if d = chr '0' then do return ms.whole s e ++ (← addS ms s e news)
        else do
          let v ← pushOnecapture ms (d.toNat - (chr '1').toNat) s e
          return (textOf v).getD [] ++ (← addS ms s e news)

/-- The end of `add_value`: nil and false keep the original text. -/
def addResult (ms : MatchState) (s e : Nat) (v : Value) : Except (GsubError ε) Bytes :=
  if v = .nil ∨ v = .boolean false then .ok (ms.whole s e)
  else
    match textOf v with
    | some text => .ok text
    | none => .error (.invalidValue v.type)

/-- `add_value`: what it adds to the buffer. -/
def addValue (repl : Replacement ε) (ms : MatchState) (s e : Nat) : Except (GsubError ε) Bytes :=
  match repl with
  | .function f => do
    let captures ← liftPattern (pushCaptures ms true s e)
    addResult ms s e (← liftCall (f captures))
  | .table get => do
    let key ← liftPattern (pushOnecapture ms 0 s e)
    addResult ms s e (← liftCall (get key))
  | .string news => liftPattern (addS ms s e news)

/-- The loop of `str_gsub` from the position `src` on, after `n` substitutions: what is still
    to come of the result, and the number of substitutions. -/
def gsubLoop (repl : Replacement ε) (p : Bytes) (anchor : Bool) (maxS : Int) :
    Nat → MatchState → Nat → Int → Except (GsubError ε) (Bytes × Int)
  | 0, _, _, _ => .error (.pattern .noFuel)
  | fuel + 1, ms, src, n =>
    if n < maxS then do
      let (e, ms) ← liftPattern (doMatch ms.reprep src p)
      let (added, n) ← match e with
        | some e => do pure (← addValue repl ms src e, n + 1)
        | none => pure ([], n)
      if src < e.getD src then
        let src := e.getD src
        if anchor then return (added ++ ms.src.drop src, n)
        else
          let (later, n) ← gsubLoop repl p anchor maxS fuel ms src n
          return (added ++ later, n)
      else if src < ms.src.length then
        if anchor then return (added ++ ms.at src :: ms.src.drop (src + 1), n)
        else
          let (later, n) ← gsubLoop repl p anchor maxS fuel ms (src + 1) n
          return (added ++ ms.at src :: later, n)
      else return (added ++ ms.src.drop src, n)
    else return (ms.src.drop src, n)

/-- `str_gsub`, with `none` for a fourth argument that is not there. -/
def strGsub (src p : Bytes) (repl : Replacement ε) (maxS : Option Int) :
    Except (GsubError ε) (Bytes × Int) :=
  let anchor := head p = chr '^'
  let p := if anchor then p.tail else p
  gsubLoop repl p anchor (maxS.getD (src.length + 1)) (src.length + 2) (prepstate src) 0 0

example : strGsub (ascii "hello world") (ascii "o") (.string (ascii "[%0]")) none =
    (.ok (ascii "hell[o] w[o]rld", 2) : Except (GsubError Empty) (Bytes × Int)) := by
  decide +kernel

/-! ## One round -/

section Round

variable {repl : Replacement ε} {p : Bytes} {maxS n : Int} {fuel pos e : Nat} {ms ms' : MatchState}

/-- A character at which nothing matches is kept. -/
theorem gsubLoop_keep (hn : n < maxS) (hdo : doMatch ms.reprep pos p = .ok (none, ms'))
    (hlt : pos < ms'.src.length) :
    gsubLoop repl p false maxS (fuel + 1) ms pos n =
      gsubLoop repl p false maxS fuel ms' (pos + 1) n >>= fun v =>
        .ok (ms'.at pos :: v.1, v.2) := by
  rw [gsubLoop, if_pos hn, hdo]
  dsimp only [liftPattern, Except.mapError, bind, Except.bind, pure, Except.pure, Option.getD_none]
  rw [if_neg (Nat.lt_irrefl pos), if_pos hlt, if_neg Bool.false_ne_true]
  rfl

theorem gsubLoop_end {anchor : Bool} (hn : n < maxS)
    (hdo : doMatch ms.reprep pos p = .ok (none, ms')) (hend : ms'.src.length ≤ pos) :
    gsubLoop repl p anchor maxS (fuel + 1) ms pos n = .ok ([], n) := by
  rw [gsubLoop, if_pos hn, hdo]
  dsimp only [liftPattern, Except.mapError, bind, Except.bind, pure, Except.pure, Option.getD_none]
  rw [if_neg (Nat.lt_irrefl pos), if_neg (Nat.not_lt.2 hend), List.drop_eq_nil_of_le hend]
  rfl

/-- A match is replaced, and the loop goes on behind it. -/
theorem gsubLoop_replace (hn : n < maxS) (hdo : doMatch ms.reprep pos p = .ok (some e, ms'))
    (hlt : pos < e) :
    gsubLoop repl p false maxS (fuel + 1) ms pos n =
      addValue repl ms' pos e >>= fun added =>
        gsubLoop repl p false maxS fuel ms' e (n + 1) >>= fun v => .ok (added ++ v.1, v.2) := by
  rw [gsubLoop, if_pos hn, hdo]
  dsimp only [liftPattern, Except.mapError, bind, Except.bind, pure, Except.pure, Option.getD_some]
  cases addValue repl ms' pos e with
  | error err => rfl
  | ok added =>
    dsimp only
    rw [if_pos hlt, if_neg Bool.false_ne_true]

end Round

theorem drop_eq_cons {src : Bytes} {pos : Nat} {x : UInt8} (h : src[pos]? = some x) :
    src.drop pos = x :: src.drop (pos + 1) := by
  obtain ⟨hlt, hx⟩ := List.getElem?_eq_some_iff.1 h
  rw [List.drop_eq_getElem_cons hlt, hx]

section Anchored

variable {repl : Replacement ε} {p : Bytes} {maxS n : Int} {fuel pos e : Nat} {ms ms' : MatchState}

end Anchored

/-! ## The pieces -/

/-- A piece of the subject: a stretch that is kept, or a match that is replaced. The cost is
    that of the attempt in front of it. -/
inductive Segment where
  | kept (cost : Nat) (text : Bytes)
  | matched (cost : Nat) (m : Match)

/-- The subject from a position on, in pieces, with `b` replacements left. A match of no
    characters is replaced, and the next character kept. -/
inductive Segments (src : Bytes) (items : List Item) (anchor : Bool) :
    Nat → Int → List Segment → Prop
  | limit {pos : Nat} {b : Int} (hb : b ≤ 0) :
      Segments src items anchor pos b [.kept 0 (src.drop pos)]
  | skip {pos : Nat} {b : Int} {x : UInt8} {segs : List Segment} (hb : 0 < b)
      (ha : anchor = false) (hm : ¬ MatchesAt src items pos) (hx : src[pos]? = some x)
      (tail : Segments src items anchor (pos + 1) b segs) :
      Segments src items anchor pos b (.kept (attempt src items pos []).cost [x] :: segs)
  | replace {pos e : Nat} {b : Int} {c : List Capture} {segs : List Segment} (hb : 0 < b)
      (ha : anchor = false) (hm : (attempt src items pos []).result = some (e, c)) (he : pos < e)
      (tail : Segments src items anchor e (b - 1) segs) :
      Segments src items anchor pos b
        (.matched (attempt src items pos []).cost (pos, e, c) :: segs)
  | insert {pos : Nat} {b : Int} {c : List Capture} {x : UInt8} {segs : List Segment} (hb : 0 < b)
      (ha : anchor = false) (hm : (attempt src items pos []).result = some (pos, c))
      (hx : src[pos]? = some x) (tail : Segments src items anchor (pos + 1) (b - 1) segs) :
      Segments src items anchor pos b
        (.matched (attempt src items pos []).cost (pos, pos, c) :: .kept 0 [x] :: segs)
  | last {b : Int} (hb : 0 < b) (ha : anchor = false) (hm : ¬ MatchesAt src items src.length) :
      Segments src items anchor src.length b [.kept (attempt src items src.length []).cost []]
  | lastInsert {b : Int} {c : List Capture} (hb : 0 < b) (ha : anchor = false)
      (hm : (attempt src items src.length []).result = some (src.length, c)) :
      Segments src items anchor src.length b
        [.matched (attempt src items src.length []).cost (src.length, src.length, c)]
  | anchored {pos e : Nat} {b : Int} {c : List Capture} (hb : 0 < b) (ha : anchor = true)
      (hm : (attempt src items pos []).result = some (e, c)) :
      Segments src items anchor pos b
        [.matched (attempt src items pos []).cost (pos, e, c), .kept 0 (src.drop e)]
  | anchoredSkip {pos : Nat} {b : Int} (hb : 0 < b) (ha : anchor = true)
      (hm : ¬ MatchesAt src items pos) :
      Segments src items anchor pos b [.kept (attempt src items pos []).cost (src.drop pos)]

namespace Segment

def cost : Segment → Nat
  | kept k _ => k
  | matched k _ => k

/-- What it is in the subject. -/
def text (src : Bytes) : Segment → Bytes
  | kept _ t => t
  | matched _ m => (src.drop m.1).take (m.2.1 - m.1)

/-- What it is in the result. -/
def output (repl : Replacement ε) (src : Bytes) : Segment → Except (GsubError ε) Bytes
  | kept _ t => .ok t
  | matched _ m => addValue repl ⟨src, 0, 0, m.2.2⟩ m.1 m.2.1

end Segment

theorem take_append_drop {src : Bytes} {pos e : Nat} (h : pos ≤ e) :
    (src.drop pos).take (e - pos) ++ src.drop e = src.drop pos := by
  conv_rhs => rw [← List.take_append_drop (e - pos) (src.drop pos), List.drop_drop,
    Nat.add_sub_cancel' h]

/-- The pieces in order are the subject. -/
theorem Segments.text {src : Bytes} {items : List Item} {anchor : Bool} {pos : Nat} {b : Int}
    {segs : List Segment} (h : Segments src items anchor pos b segs) :
    segs.flatMap (Segment.text src) = src.drop pos := by
  induction h with
  | limit hb => simp [Segment.text]
  | skip hb ha hm hx tail ih =>
    rw [List.flatMap_cons, ih, drop_eq_cons hx]
    rfl
  | replace hb ha hm he tail ih =>
    rw [List.flatMap_cons, ih]
    exact take_append_drop (Nat.le_of_lt he)
  | insert hb ha hm hx tail ih =>
    rw [List.flatMap_cons, List.flatMap_cons, ih, drop_eq_cons hx]
    simp [Segment.text]
  | last hb ha hm => simp [Segment.text]
  | lastInsert hb ha hm => simp [Segment.text]
  | anchored hb ha hm =>
    rw [List.flatMap_cons, List.flatMap_cons, List.flatMap_nil, List.append_nil]
    exact take_append_drop (attempt_sound hm).le
  | anchoredSkip hb ha hm => simp [Segment.text]

/-! ## The loop -/

/-- The state as far as the captures are concerned. -/
def MatchState.captures (ms : MatchState) : MatchState := ⟨ms.src, 0, 0, ms.capture⟩

section Outputs

variable {repl : Replacement ε} {src : Bytes} {r cost : Nat} {segs : List Segment}

end Outputs

section Loop

variable {p : Bytes} {src : Bytes} {items : List Item} {anchor : Bool} {repl : Replacement ε}
  {pos : Nat} {b : Int} {segs : List Segment}

end Loop

/-! ## The result -/

end GameServer.LuaPattern
