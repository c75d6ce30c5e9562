/-
  The environment variables in `config.ini`.

  `load_config.lua` replaces `$name` in the text it has read by what `os.getenv` returns for the
  name, with `string.gsub` and the pattern `%$([%w_%d]+)`. `Expands` says what that means: from
  left to right, each dollar sign with the longest name behind it is replaced, and what has been
  put in is not looked at again. This is what the text becomes, whatever it is
  (`config_expands`); the pattern is never too complex.
-/
import GameServer.LuaPattern.Gsub

namespace GameServer.LoadConfig

open Lua LuaPattern

/-- `'%$([%w_%d]+)'` -/
def variablePattern : Bytes := ascii "%$([%w_%d]+)"

/-- The message of the failed `assert`; `position` is what `luaL_where` puts in front of it. -/
def getenvFailed (position name : Bytes) : Bytes :=
  position ++ ascii "os.getenv() failed: " ++ name

/-- The local function `getenv`, called with the captures. `osGetenv` is the environment. -/
def getenv (osGetenv : Bytes → Option Bytes) (position : Bytes) :
    List Value → Except Bytes Value
  | .string name :: _ =>
    match osGetenv name with
    | some value => .ok (.string value)
    | none => .error (getenvFailed position name)
  | _ => .error (ascii "bad argument #1 to 'getenv'")

/-- `code = string.gsub(code, '%$([%w_%d]+)', getenv)` -/
def expandCode (osGetenv : Bytes → Option Bytes) (position code : Bytes) :
    Except (GsubError Bytes) Bytes := do
  let (code, _) ← strGsub code variablePattern (.function (getenv osGetenv position)) none
  return code

/-! ## What it means -/

/-- The characters of a name. -/
def isNameChar (c : UInt8) : Bool := isAlnum c || c = chr '_'

/-- The text with the variables replaced, or the message for the first one that is not set. -/
inductive Expands (osGetenv : Bytes → Option Bytes) (position : Bytes) :
    Bytes → Except Bytes Bytes → Prop
  | nil : Expands osGetenv position [] (.ok [])
  | found {name value rest : Bytes} {out : Except Bytes Bytes} (hne : name ≠ [])
      (hname : ∀ c ∈ name, isNameChar c = true) (hlongest : ∀ c ∈ rest.head?, isNameChar c = false)
      (hvalue : osGetenv name = some value) (h : Expands osGetenv position rest out) :
      Expands osGetenv position (chr '$' :: name ++ rest) (out.map (value ++ ·))
  | unset {name rest : Bytes} (hne : name ≠ []) (hname : ∀ c ∈ name, isNameChar c = true)
      (hlongest : ∀ c ∈ rest.head?, isNameChar c = false) (hvalue : osGetenv name = none) :
      Expands osGetenv position (chr '$' :: name ++ rest) (.error (getenvFailed position name))
  | other {c : UInt8} {rest : Bytes} {out : Except Bytes Bytes}
      (hc : c ≠ chr '$' ∨ ∀ d ∈ rest.head?, isNameChar d = false)
      (h : Expands osGetenv position rest out) :
      Expands osGetenv position (c :: rest) (out.map (c :: ·))

example : expandCode (fun name => if name = ascii "HOME" then some (ascii "/root") else none) []
    (ascii "dir = $HOME/$, port = $1") = .error (.call (ascii "os.getenv() failed: 1")) := by
  decide +kernel

/-! ## The pattern -/

def isDollar (c : UInt8) : Bool := chr '$' = c

/-- `%$`, then a capture around one name character or more. -/
def variableItems : List Item :=
  [.one isDollar, .openCapture, .plus isNameChar, .closeCapture]

theorem accepts_dollar (c : UInt8) :
    accepts variablePattern (variablePattern.drop 2) c = isDollar c := rfl

theorem digit_name {c : UInt8} (h : isDigit c = true) : isAlnum c = true := by
  rw [isAlnum, h, Bool.or_true]

theorem accepts_name (c : UInt8) :
    accepts (variablePattern.drop 3) (variablePattern.drop 10) c = isNameChar c := by
  have hset : accepts (variablePattern.drop 3) (variablePattern.drop 10) c =
      (if isAlnum c = true then true else if chr '_' = c then true else isDigit c) := rfl
  rw [hset, isNameChar]
  by_cases halnum : isAlnum c = true
  · rw [if_pos halnum, halnum, Bool.true_or]
  · have hdigit : isDigit c = false := Bool.eq_false_iff.2 fun h => halnum (digit_name h)
    rw [if_neg halnum, Bool.eq_false_iff.2 halnum, Bool.false_or]
    by_cases hline : chr '_' = c
    · rw [if_pos hline, hline, decide_eq_true rfl]
    · rw [if_neg hline, hdigit, decide_eq_false fun h => hline h.symm]

theorem wellFormed_variable : WellFormed variablePattern variableItems where
  parses := by
    have hdollar : accepts variablePattern (variablePattern.drop 2) = isDollar :=
      funext accepts_dollar
    have hname : accepts (variablePattern.drop 3) (variablePattern.drop 10) = isNameChar :=
      funext accepts_name
    have hparse : parse (variablePattern.length + 1) variablePattern =
        .ok [Item.one (accepts variablePattern (variablePattern.drop 2)), Item.openCapture,
          Item.plus (accepts (variablePattern.drop 3) (variablePattern.drop 10)),
          Item.closeCapture] := rfl
    rw [hparse, hdollar, hname]
    rfl
  static := rfl
  shallow := by decide

/-! ## One position -/

variable {src : Bytes}

theorem takeWhile_name {name rest : Bytes} (hname : ∀ c ∈ name, isNameChar c = true)
    (hlongest : ∀ c ∈ rest.head?, isNameChar c = false) :
    (name ++ rest).takeWhile isNameChar = name := by
  have hrest : rest.takeWhile isNameChar = [] := by
    cases rest with
    | nil => rfl
    | cons c rest =>
      rw [List.takeWhile_cons_of_neg]
      rw [hlongest c rfl]
      exact Bool.false_ne_true
  rw [List.takeWhile_append_of_pos hname, hrest, List.append_nil]

/-- The longest name is determined. -/
theorem name_unique {name name' rest rest' : Bytes} (hname : ∀ c ∈ name, isNameChar c = true)
    (hlongest : ∀ c ∈ rest.head?, isNameChar c = false)
    (hname' : ∀ c ∈ name', isNameChar c = true)
    (hlongest' : ∀ c ∈ rest'.head?, isNameChar c = false) (h : name ++ rest = name' ++ rest') :
    name = name' ∧ rest = rest' := by
  have hsame : name = name' := by
    calc name = (name ++ rest).takeWhile isNameChar := (takeWhile_name hname hlongest).symm
      _ = (name' ++ rest').takeWhile isNameChar := by rw [h]
      _ = name' := takeWhile_name hname' hlongest'
  subst hsame
  exact ⟨rfl, List.append_cancel_left h⟩

/-- A dollar sign with a name behind it is nothing else. -/
theorem not_other {c : UInt8} {name rest rest' : Bytes} (hne : name ≠ [])
    (hname : ∀ c ∈ name, isNameChar c = true) (h : chr '$' :: (name ++ rest) = c :: rest')
    (hc : c ≠ chr '$' ∨ ∀ d ∈ rest'.head?, isNameChar d = false) : False := by
  obtain ⟨rfl, rfl⟩ := List.cons.inj h
  obtain ⟨d, name, rfl⟩ := List.exists_cons_of_ne_nil hne
  rcases hc with hc | hc
  · exact hc rfl
  · have hd := hname d List.mem_cons_self
    rw [hc d rfl] at hd
    exact Bool.false_ne_true hd

/-- A text has one meaning only. -/
theorem Expands.unique {osGetenv : Bytes → Option Bytes} {position code : Bytes}
    {out out' : Except Bytes Bytes} (h : Expands osGetenv position code out)
    (h' : Expands osGetenv position code out') : out = out' := by
  induction h generalizing out' with
  | nil =>
    cases h' with
    | nil => rfl
  | @found name value rest out hne hname hlongest hvalue h ih =>
    rw [List.cons_append] at h'
    generalize hcode : chr '$' :: (name ++ rest) = code at h'
    cases h' with
    | nil => cases hcode
    | found hne' hname' hlongest' hvalue' h' =>
      obtain ⟨rfl, rfl⟩ := name_unique hname hlongest hname' hlongest' (List.cons.inj hcode).2
      rw [hvalue, Option.some.injEq] at hvalue'
      rw [hvalue', ih h']
    | unset hne' hname' hlongest' hvalue' =>
      obtain ⟨rfl, rfl⟩ := name_unique hname hlongest hname' hlongest' (List.cons.inj hcode).2
      rw [hvalue] at hvalue'
      cases hvalue'
    | other hc => exact (not_other hne hname hcode hc).elim
  | @unset name rest hne hname hlongest hvalue =>
    rw [List.cons_append] at h'
    generalize hcode : chr '$' :: (name ++ rest) = code at h'
    cases h' with
    | nil => cases hcode
    | found hne' hname' hlongest' hvalue' h' =>
      obtain ⟨rfl, rfl⟩ := name_unique hname hlongest hname' hlongest' (List.cons.inj hcode).2
      rw [hvalue] at hvalue'
      cases hvalue'
    | unset hne' hname' hlongest' hvalue' =>
      obtain ⟨rfl, rfl⟩ := name_unique hname hlongest hname' hlongest' (List.cons.inj hcode).2
      rfl
    | other hc => exact (not_other hne hname hcode hc).elim
  | @other c rest out hc h ih =>
    generalize hcode : c :: rest = code at h'
    cases h' with
    | nil => cases hcode
    | found hne' hname' => exact (not_other hne' hname' hcode.symm hc).elim
    | unset hne' hname' => exact (not_other hne' hname' hcode.symm hc).elim
    | other hc' h' =>
      obtain ⟨rfl, rfl⟩ := List.cons.inj hcode
      rw [ih h']

theorem span_name {name rest : Bytes} {pos : Nat} (hsrc : src.drop pos = name ++ rest)
    (hname : ∀ c ∈ name, isNameChar c = true) (hlongest : ∀ c ∈ rest.head?, isNameChar c = false) :
    span src isNameChar pos = name.length := by
  rw [span, hsrc, takeWhile_name hname hlongest]

/-- A repetition takes all it can if what is behind it then matches. -/
theorem firstOf_downFrom {f : Nat → Attempt} {s k : Nat} (h : (f (s + k)).result ≠ none) :
    Attempt.firstOf f (downFrom s k) = f (s + k) := by
  cases k with
  | zero => exact if_neg h
  | succ k => exact if_neg h

theorem attempt_close_name (pos e : Nat) :
    attempt src [.closeCapture] e [⟨pos, .unfinished⟩] =
      ⟨some (e, [⟨pos, .closed (e - pos)⟩]), 0⟩ := rfl

theorem single_of_span {set : UInt8 → Bool} {pos : Nat} (h : span src set pos ≠ 0) :
    single src set pos = true := by
  by_contra hnot
  exact h (span_of_not (Bool.eq_false_iff.2 hnot))

/-- At a variable the longest name is captured. -/
theorem attempt_variable {name rest : Bytes} {pos : Nat}
    (hsrc : src.drop pos = chr '$' :: name ++ rest) (hne : name ≠ [])
    (hname : ∀ c ∈ name, isNameChar c = true) (hlongest : ∀ c ∈ rest.head?, isNameChar c = false) :
    attempt src variableItems pos [] =
      ⟨some (pos + 1 + name.length, [⟨pos + 1, .closed name.length⟩]), 2⟩ := by
  have hdollar : single src isDollar pos = true := single_eq_iff.2 (by
    have hat := congrArg (·[0]?) hsrc
    simpa using hat)
  have hrest : src.drop (pos + 1) = name ++ rest := by
    rw [← List.drop_drop, hsrc]
    rfl
  have hspan := span_name hrest hname hlongest
  have hpos := List.length_pos_iff.2 hne
  have hsingle : single src isNameChar (pos + 1) = true :=
    single_of_span (by rw [hspan]; exact Nat.ne_of_gt hpos)
  have hplus := span_of_single hsingle
  have hend : pos + 1 + 1 + span src isNameChar (pos + 1 + 1) = pos + 1 + name.length := by omega
  rw [variableItems, attempt, if_pos hdollar, attempt, List.nil_append, attempt, if_pos hsingle,
    firstOf_downFrom, hend]
  · simp only [attempt_close_name, Attempt.tick, Nat.add_sub_cancel_left]
  · exact Option.some_ne_none _

theorem attempt_other {pos : Nat}
    (h : src[pos]? ≠ some (chr '$') ∨ single src isNameChar (pos + 1) = false) :
    (attempt src variableItems pos []).result = none ∧
      (attempt src variableItems pos []).cost ≤ 1 := by
  rw [variableItems, attempt]
  by_cases hdollar : single src isDollar pos = true
  · have hname := h.resolve_left fun hno => hno (single_eq_iff.1 hdollar)
    rw [if_pos hdollar, attempt, attempt, hname, if_neg Bool.false_ne_true]
    exact ⟨rfl, Nat.le_refl 1⟩
  · rw [if_neg hdollar]
    exact ⟨rfl, Nat.zero_le 1⟩

/-! ## The loop -/

variable {osGetenv : Bytes → Option Bytes} {position : Bytes}

/-- What is at a position: the end, a variable with its longest name, or another character. -/
inductive Here (code : Bytes) : Prop
  | nil (h : code = [])
  | name {name rest : Bytes} (h : code = chr '$' :: name ++ rest) (hne : name ≠ [])
      (hname : ∀ c ∈ name, isNameChar c = true) (hlongest : ∀ c ∈ rest.head?, isNameChar c = false)
  | other {c : UInt8} {rest : Bytes} (h : code = c :: rest)
      (hc : c ≠ chr '$' ∨ ∀ d ∈ rest.head?, isNameChar d = false)

theorem here (code : Bytes) : Here code := by
  cases code with
  | nil => exact .nil rfl
  | cons c rest =>
    by_cases hc : c = chr '$' ∧ rest.takeWhile isNameChar ≠ []
    · obtain ⟨rfl, hne⟩ := hc
      refine @Here.name _ (rest.takeWhile isNameChar) (rest.dropWhile isNameChar) ?_ hne
        (fun c hmem => List.mem_takeWhile_imp hmem) ?_
      · rw [List.cons_append, List.takeWhile_append_dropWhile]
      · intro d hd
        have hnot := List.head?_dropWhile_not isNameChar rest
        rw [Option.mem_def.1 hd] at hnot
        exact hnot
    · refine .other rfl ?_
      by_cases hdollar : c = chr '$'
      · refine Or.inr fun d hd => ?_
        have hnil : rest.takeWhile isNameChar = [] := by
          by_contra hne
          exact hc ⟨hdollar, hne⟩
        cases rest with
        | nil => cases hd
        | cons x rest =>
          obtain rfl : x = d := Option.some.inj hd
          by_contra hx
          rw [Bool.not_eq_false] at hx
          rw [List.takeWhile_cons_of_pos hx] at hnil
          cases hnil
      · exact Or.inl hdollar

theorem name_captured {ms : MatchState} {name rest : Bytes} {pos : Nat}
    (hsrc : ms.src.drop pos = chr '$' :: name ++ rest)
    (hcap : ms.capture = [⟨pos + 1, .closed name.length⟩]) (e : Nat) :
    pushCaptures ms true pos e = .ok [.string name] := by
  have hrest : ms.src.drop (pos + 1) = name ++ rest := by
    rw [← List.drop_drop, hsrc]
    rfl
  have hclosed : ∀ cap ∈ ms.capture, cap.len ≠ .unfinished := by
    rw [hcap]
    simp
  rw [pushCaptures_eq hclosed (by rw [hcap]; simp), hcap]
  simp [captureValue, hrest]

theorem addValue_found {ms : MatchState} {name value : Bytes} {s e : Nat}
    (hcapture : pushCaptures ms true s e = .ok [.string name])
    (hvalue : osGetenv name = some value) :
    addValue (.function (getenv osGetenv position)) ms s e = .ok value := by
  have hcall : getenv osGetenv position [.string name] = .ok (.string value) := by
    rw [getenv, hvalue]
  unfold addValue
  dsimp only
  rw [hcapture]
  show (liftCall (getenv osGetenv position [.string name]) >>= fun v => addResult ms s e v) = _
  rw [hcall]
  rfl

theorem addValue_unset {ms : MatchState} {name : Bytes} {s e : Nat}
    (hcapture : pushCaptures ms true s e = .ok [.string name]) (hvalue : osGetenv name = none) :
    addValue (.function (getenv osGetenv position)) ms s e =
      .error (.call (getenvFailed position name)) := by
  have hcall : getenv osGetenv position [.string name] = .error (getenvFailed position name) := by
    rw [getenv, hvalue]
  unfold addValue
  dsimp only
  rw [hcapture]
  show (liftCall (getenv osGetenv position [.string name]) >>= fun v => addResult ms s e v) = _
  rw [hcall]
  rfl

theorem map_prepend {α ε ε' : Type} {later : Except ε' (List α × Int)} {out : Except ε (List α)}
    {g : ε → ε'} (h : later.map Prod.fst = out.mapError g) (added : List α) :
    (later >>= fun v => .ok (added ++ v.1, v.2)).map Prod.fst =
      (out.map (added ++ ·)).mapError g := by
  cases later with
  | error err =>
    cases out with
    | error err' => exact h
    | ok out => cases h
  | ok v =>
    cases out with
    | error err => cases h
    | ok out =>
      obtain rfl : v.1 = out := Except.ok.inj h
      rfl

/-- The loop does what `Expands` says. Two repetitions for each character are enough. -/
theorem gsubLoop_expands {maxS : Int} {fuel : Nat} {ms : MatchState} {pos : Nat} {n : Int}
    (hd : ms.matchdepth = maxccalls) (hpos : pos ≤ ms.src.length)
    (hfuel : ms.src.length < fuel + pos) (hmax : n + (ms.src.length - pos : Nat) < maxS)
    (hnrep : 2 * (ms.src.length - pos) + 2 ≤ ms.nrep) :
    ∃ out, Expands osGetenv position (ms.src.drop pos) out ∧
      (gsubLoop (.function (getenv osGetenv position)) variablePattern false maxS fuel ms pos n).map
        Prod.fst = out.mapError .call := by
  induction fuel generalizing ms pos n with
  | zero => omega
  | succ fuel ih =>
    have hn : n < maxS := by omega
    cases here (ms.src.drop pos) with
    | nil hnil =>
      have hend : ms.src.length ≤ pos := List.drop_eq_nil_iff.1 hnil
      obtain ⟨hresult, hcost⟩ := attempt_other (Or.inl (by
        rw [List.getElem?_eq_none hend]
        exact (Option.some_ne_none _).symm))
      have hdo := doMatch_none wellFormed_variable hd hpos hresult (by omega)
      rw [gsubLoop_end hn hdo hend, hnil]
      exact ⟨.ok [], .nil, rfl⟩
    | @name name rest hcode hne hname hlongest =>
      have hlen := congrArg List.length hcode
      rw [List.length_drop, List.cons_append, List.length_cons, List.length_append] at hlen
      have hrest : ms.src.drop (pos + 1 + name.length) = rest := by
        rw [Nat.add_assoc, ← List.drop_drop, hcode, Nat.add_comm 1]
        exact List.drop_left
      have hdo := doMatch_some wellFormed_variable hd hpos
        (attempt_variable hcode hne hname hlongest) (by omega)
      have hcapture := @name_captured ⟨ms.src, ms.nrep - 2, ms.matchdepth,
        [⟨pos + 1, .closed name.length⟩]⟩ name rest pos hcode rfl (pos + 1 + name.length)
      rw [gsubLoop_replace hn hdo (by omega), hcode]
      cases hvalue : osGetenv name with
      | none =>
        rw [addValue_unset hcapture hvalue]
        exact ⟨_, .unset hne hname hlongest hvalue, rfl⟩
      | some value =>
        obtain ⟨out, hout, hloop⟩ := @ih
          ⟨ms.src, ms.nrep - 2, ms.matchdepth, [⟨pos + 1, .closed name.length⟩]⟩
          (pos + 1 + name.length) (n + 1) hd (show _ ≤ ms.src.length by omega)
          (show ms.src.length < _ by omega)
          (show n + 1 + (ms.src.length - (pos + 1 + name.length) : Nat) < maxS by omega)
          (show 2 * (ms.src.length - (pos + 1 + name.length)) + 2 ≤ ms.nrep - 2 by omega)
        rw [hrest] at hout
        rw [addValue_found hcapture hvalue]
        exact ⟨_, .found hne hname hlongest hvalue hout, map_prepend hloop value⟩
    | @other c rest hcode hc =>
      have hlen := congrArg List.length hcode
      rw [List.length_drop, List.length_cons] at hlen
      have hat : ms.src[pos]? = some c := by
        have := congrArg (·[0]?) hcode
        simpa using this
      have hrest : ms.src.drop (pos + 1) = rest := by
        rw [← List.drop_drop, hcode]
        rfl
      have hno : ms.src[pos]? ≠ some (chr '$') ∨ single ms.src isNameChar (pos + 1) = false := by
        rcases hc with hne | hnot
        · exact Or.inl fun h => hne (Option.some.inj (hat.symm.trans h))
        · refine Or.inr ?_
          unfold single
          rw [← List.head?_drop, hrest]
          cases rest with
          | nil => rfl
          | cons d rest => exact hnot d rfl
      obtain ⟨hresult, hcost⟩ := attempt_other hno
      have hdo := doMatch_none wellFormed_variable hd hpos hresult (by omega)
      obtain ⟨out, hout, hloop⟩ := @ih
        ⟨ms.src, ms.nrep - (attempt ms.src variableItems pos []).cost, ms.matchdepth, []⟩
        (pos + 1) n hd (show _ ≤ ms.src.length by omega) (show ms.src.length < _ by omega)
        (show n + (ms.src.length - (pos + 1) : Nat) < maxS by omega)
        (show 2 * (ms.src.length - (pos + 1)) + 2 ≤ ms.nrep - _ by omega)
      rw [hrest] at hout
      rw [gsubLoop_keep hn hdo (show pos < ms.src.length by omega), hcode]
      refine ⟨_, .other hc hout, ?_⟩
      have hkept : (⟨ms.src, ms.nrep - (attempt ms.src variableItems pos []).cost, ms.matchdepth,
          []⟩ : MatchState).at pos = c := by
        rw [MatchState.at, List.getD_eq_getElem?_getD, hat]
        rfl
      rw [hkept]
      exact map_prepend hloop [c]

/-- For every text and environment, the text becomes the one thing that `Expands` says: the
    pattern is never too complex, and a variable that is not set ends the loading with its
    message. -/
theorem config_expands (osGetenv : Bytes → Option Bytes) (position code : Bytes) :
    ∃ out, (∀ out', Expands osGetenv position code out' ↔ out' = out) ∧
      expandCode osGetenv position code = out.mapError .call := by
  obtain ⟨out, hout, hloop⟩ := @gsubLoop_expands osGetenv position (code.length + 1)
    (code.length + 2) (prepstate code) 0 0 rfl (Nat.zero_le _)
    (show code.length < code.length + 2 + 0 by omega)
    (show 0 + (code.length - 0 : Nat) < (code.length : Int) + 1 by omega)
    (show 2 * (code.length - 0) + 2 ≤ aReps * code.length + bReps by unfold aReps bReps; omega)
  refine ⟨out, fun out' => ⟨fun h => h.unique hout, fun h => h ▸ hout⟩, ?_⟩
  rw [← hloop]
  unfold expandCode
  show (strGsub code variablePattern _ none >>= fun v => .ok v.1) = _
  have hgsub : strGsub code variablePattern (.function (getenv osGetenv position)) none =
      gsubLoop (.function (getenv osGetenv position)) variablePattern false (code.length + 1)
        (code.length + 2) (prepstate code) 0 0 := rfl
  rw [hgsub]
  cases gsubLoop (.function (getenv osGetenv position)) variablePattern false (code.length + 1)
    (code.length + 2) (prepstate code) 0 0 <;> rfl

end GameServer.LoadConfig
