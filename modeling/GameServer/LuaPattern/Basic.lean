/-
  The pattern matching of `src/3rd/lua/lstrlib.c`: `match` with everything it calls, and
  `string.find`, `string.match`, `string.gmatch` and `string.gsub` on top of it.

  A pointer into the subject is a position, a pointer into the pattern is what is left of it;
  both strings end with a NUL that C can read. A function that C calls `match` from takes it
  as its argument `go`. What is left of the pattern gets shorter with every call and every
  `goto init`, so the length of the pattern is fuel enough for `match` (`doMatch_settle`). Classes
  are those of the "C" locale.
-/
import GameServer.Lib.LuaString

namespace GameServer.LuaPattern

open Lua

/-- The calls of `luaL_error`. `noFuel` is no error of the program. -/
inductive PatternError where
  | tooComplex
  | endsWithEscape
  | missingBracket
  | missingBalance
  | missingFrontierSet
  | tooManyCaptures
  | invalidCapture
  | invalidCaptureIndex (l : Int)
  | unfinishedCapture
  | invalidReplacement
  | noFuel
  deriving DecidableEq, Repr

/-- The texts of the errors. -/
def PatternError.message : PatternError → String
  | .tooComplex => "pattern too complex"
  | .endsWithEscape => "malformed pattern (ends with '%')"
  | .missingBracket => "malformed pattern (missing ']')"
  | .missingBalance => "malformed pattern (missing arguments to '%b')"
  | .missingFrontierSet => "missing '[' after '%f' in pattern"
  | .tooManyCaptures => "too many captures"
  | .invalidCapture => "invalid pattern capture"
  | .invalidCaptureIndex l => "invalid capture index %" ++ toString l
  | .unfinishedCapture => "unfinished capture"
  | .invalidReplacement => "invalid use of '%' in replacement string"
  | .noFuel => ""

abbrev Result (α : Type) := Except PatternError α

/-- `CAP_UNFINISHED`, `CAP_POSITION` or a length -/
inductive CapLen where
  | unfinished
  | position
  | closed (n : Nat)
  deriving DecidableEq, Repr

structure Capture where
  init : Nat
  len : CapLen
  deriving DecidableEq, Repr

/-- `MatchState`. The subject is `src`, and `capture` has `level` entries. -/
structure MatchState where
  src : Bytes
  nrep : Nat
  matchdepth : Nat
  capture : List Capture
  deriving DecidableEq, Repr

/-- `LUA_MAXCAPTURES`, `MAXCCALLS`, `A_REPS` and `B_REPS` -/
def luaMaxcaptures : Nat := 32
def maxccalls : Nat := 200
def aReps : Nat := 4
def bReps : Nat := 100000

/-- A character constant. -/
def chr (c : Char) : UInt8 := c.toNat.toUInt8

/-- `*s`, at the end the NUL. -/
def MatchState.at (ms : MatchState) (s : Nat) : UInt8 := ms.src.getD s 0

/-- `*p` -/
def head (p : Bytes) : UInt8 := p.headD 0

/-! ## Character classes -/

def isUpper (c : UInt8) : Bool := chr 'A' ≤ c && c ≤ chr 'Z'
def isLower (c : UInt8) : Bool := chr 'a' ≤ c && c ≤ chr 'z'
def isAlpha (c : UInt8) : Bool := isUpper c || isLower c
def isDigit (c : UInt8) : Bool := chr '0' ≤ c && c ≤ chr '9'
def isAlnum (c : UInt8) : Bool := isAlpha c || isDigit c
def isGraph (c : UInt8) : Bool := 0x21 ≤ c && c ≤ 0x7e
def isPunct (c : UInt8) : Bool := isGraph c && !isAlnum c
def isSpace (c : UInt8) : Bool := c = chr ' ' || (0x09 ≤ c && c ≤ 0x0d)
def isCntrl (c : UInt8) : Bool := c < 0x20 || c = 0x7f
def isXdigit (c : UInt8) : Bool :=
  isDigit c || (chr 'a' ≤ c && c ≤ chr 'f') || (chr 'A' ≤ c && c ≤ chr 'F')
def toLower (c : UInt8) : UInt8 := if isUpper c then c + 32 else c

/-- The class that a letter stands for. -/
def letterClass (cl : UInt8) : Option (UInt8 → Bool) :=
  if cl = chr 'a' then some isAlpha
  else if cl = chr 'c' then some isCntrl
  else if cl = chr 'd' then some isDigit
  else if cl = chr 'g' then some isGraph
  else if cl = chr 'l' then some isLower
  else if cl = chr 'p' then some isPunct
  else if cl = chr 's' then some isSpace
  else if cl = chr 'u' then some isUpper
  else if cl = chr 'w' then some isAlnum
  else if cl = chr 'x' then some isXdigit
  else if cl = chr 'z' then some (· = 0)
  else none

/-- `match_class` -/
def matchClass (c cl : UInt8) : Bool :=
  match letterClass (toLower cl) with
  | none => cl = c
  | some res => if isLower cl then res c else !res c

/-- The loop of `matchbracketclass` over what is between the brackets. The set ends with `]`,
    which an escape at its end would read. -/
def bracketLoop (c : UInt8) : Bytes → Bool
  | [] => false
  | [x] => if x = chr '%' then matchClass c (chr ']') else x = c
  | [x, y] =>
    if x = chr '%' then matchClass c y
    else if x = c then true else bracketLoop c [y]
  | x :: y :: z :: set =>
    if x = chr '%' then if matchClass c y then true else bracketLoop c (z :: set)
    else if y = chr '-' then if x ≤ c && c ≤ z then true else bracketLoop c set
    else if x = c then true else bracketLoop c (y :: z :: set)

/-- `matchbracketclass(c, p, ep - 1)`: `p` begins with `[`, and `ep` is what follows the
    bracket that closes the set. -/
def matchbracketclass (c : UInt8) (p ep : Bytes) : Bool :=
  let set := p.tail.take (p.length - ep.length - 2)
  if head p.tail = chr '^' then !bracketLoop c set.tail else bracketLoop c set

/-- `default: return (uchar( *p) == c)` and the cases before it. -/
def accepts (p ep : Bytes) (c : UInt8) : Bool :=
  if head p = chr '.' then true
  else if head p = chr '%' then matchClass c (head p.tail)
  else if head p = chr '[' then matchbracketclass c p ep
  else head p = c

/-- `singlematch` -/
def singlematch (ms : MatchState) (s : Nat) (p ep : Bytes) : Bool :=
  if s ≥ ms.src.length then false else accepts p ep (ms.at s)

/-- The `do` loop of `classend`. -/
def bracketEnd : Bytes → Result Bytes
  | [] => .error .missingBracket
  | [_] => .error .missingBracket
  | x :: y :: p =>
    if x = chr '%' then
      if head p = chr ']' then .ok p.tail else bracketEnd p
    else if y = chr ']' then .ok p else bracketEnd (y :: p)

/-- `classend` -/
def classend (p : Bytes) : Result Bytes :=
  if head p = chr '%' then
    if p.tail = [] then .error .endsWithEscape else .ok p.tail.tail
  else if head p = chr '[' then
    if head p.tail = chr '^' then bracketEnd p.tail.tail else bracketEnd p.tail
  else .ok p.tail

/-! ## Captures -/

/-- `check_capture` -/
def checkCapture (ms : MatchState) (l : UInt8) : Result Capture :=
  let i : Int := l.toNat - (chr '1').toNat
  match if i < 0 then none else ms.capture[i.toNat]? with
  | none => .error (.invalidCaptureIndex (i + 1))
  | some cap => if cap.len = .unfinished then .error (.invalidCaptureIndex (i + 1)) else .ok cap

/-- The loop of `capture_to_close`. -/
def captureToCloseLoop (capture : List Capture) : Nat → Result Nat
  | 0 => .error .invalidCapture
  | level + 1 =>
    if (capture[level]?.map Capture.len) = some .unfinished then .ok level
    else captureToCloseLoop capture level

/-- `capture_to_close` -/
def captureToClose (ms : MatchState) : Result Nat :=
  captureToCloseLoop ms.capture ms.capture.length

/-- `ms->capture[l].len = ..` -/
def MatchState.setLen (ms : MatchState) (l : Nat) (len : Capture → CapLen) : MatchState :=
  { ms with capture := ms.capture.modify l fun cap => { cap with len := len cap } }

/-- What `match` returns, and the state it leaves. -/
abbrev Outcome := Option Nat × MatchState

abbrev Matcher := MatchState → Nat → Bytes → Result Outcome

/-- `start_capture` -/
def startCapture (go : Matcher) (ms : MatchState) (s : Nat) (p : Bytes) (what : CapLen) :
    Result Outcome :=
  if ms.capture.length ≥ luaMaxcaptures then .error .tooManyCaptures
  else do
    let (res, ms) ← go { ms with capture := ms.capture ++ [⟨s, what⟩] } s p
    if res = none then return (none, { ms with capture := ms.capture.dropLast })
    else return (res, ms)

/-- `end_capture` -/
def endCapture (go : Matcher) (ms : MatchState) (s : Nat) (p : Bytes) : Result Outcome := do
  let l ← captureToClose ms
  let (res, ms) ← go (ms.setLen l fun cap => .closed (s - cap.init)) s p
  if res = none then return (none, ms.setLen l fun _ => .unfinished)
  else return (res, ms)

/-- `match_capture`. The length of a position capture is too long for any subject. -/
def matchCapture (ms : MatchState) (s : Nat) (l : UInt8) : Result (Option Nat) := do
  let cap ← checkCapture ms l
  match cap.len with
  | .closed len =>
    if len ≤ ms.src.length - s ∧ (ms.src.drop cap.init).take len = (ms.src.drop s).take len then
      return some (s + len)
    else return none
  | _ => return none

/-! ## Balances and repetitions -/

/-- The loop of `matchbalance` over what follows the first character. -/
def balanceLoop (b e : UInt8) : Bytes → Nat → Nat → Option Nat
  | [], _, _ => none
  | c :: rest, s, cont =>
    if c = e then
      if cont - 1 = 0 then some (s + 1) else balanceLoop b e rest (s + 1) (cont - 1)
    else if c = b then balanceLoop b e rest (s + 1) (cont + 1)
    else balanceLoop b e rest (s + 1) cont

/-- `matchbalance` -/
def matchbalance (ms : MatchState) (s : Nat) : Bytes → Result (Option Nat)
  | b :: e :: _ =>
    if ms.at s ≠ b then .ok none
    else .ok (balanceLoop b e (ms.src.drop (s + 1)) (s + 1) 1)
  | _ => .error .missingBalance

/-- The first loop of `max_expand`, at most `n` times round. -/
def countMax (ms : MatchState) (s : Nat) (p ep : Bytes) : Nat → Nat → Nat
  | 0, i => i
  | n + 1, i => if singlematch ms (s + i) p ep then countMax ms s p ep n (i + 1) else i

/-- The second loop of `max_expand`. -/
def expandDown (go : Matcher) (s : Nat) (p : Bytes) : Nat → MatchState → Result Outcome
  | 0, ms => go ms s p
  | i + 1, ms => do
    let (res, ms) ← go ms (s + (i + 1)) p
    if res = none then expandDown go s p i ms else return (res, ms)

/-- `max_expand` -/
def maxExpand (go : Matcher) (ms : MatchState) (s : Nat) (p ep : Bytes) : Result Outcome :=
  expandDown go s ep.tail (countMax ms s p ep (ms.src.length - s) 0) ms

/-- The loop of `min_expand`, at most `n + 1` times round. -/
def expandUp (go : Matcher) (p ep : Bytes) : Nat → MatchState → Nat → Result Outcome
  | 0, ms, s => do
    let (res, ms) ← go ms s ep.tail
    if res = none then return (none, ms) else return (res, ms)
  | n + 1, ms, s => do
    let (res, ms) ← go ms s ep.tail
    if res = none then
      if singlematch ms s p ep then expandUp go p ep n ms (s + 1) else return (none, ms)
    else return (res, ms)

/-- `min_expand` -/
def minExpand (go : Matcher) (ms : MatchState) (s : Nat) (p ep : Bytes) : Result Outcome :=
  expandUp go p ep (ms.src.length - s) ms s

/-! ## `match` -/

/-- `match` around its body. -/
def descend (body : Matcher) : Matcher := fun ms s p =>
  if ms.matchdepth = 0 then .error .tooComplex
  else do
    let (res, ms) ← body { ms with matchdepth := ms.matchdepth - 1 } s p
    return (res, { ms with matchdepth := ms.matchdepth + 1 })

/-- The label `dflt`. -/
def dflt (init : Matcher) (ms : MatchState) (s : Nat) (p : Bytes) : Result Outcome := do
  let ep ← classend p
  if ¬ singlematch ms s p ep then
    if head ep = chr '*' ∨ head ep = chr '?' ∨ head ep = chr '-' then init ms s ep.tail
    else return (none, ms)
  else if ms.nrep = 0 then .error .tooComplex
  else
    let ms := { ms with nrep := ms.nrep - 1 }
    if head ep = chr '?' then do
      let (res, ms) ← descend init ms (s + 1) ep.tail
      if res = none then init ms s ep.tail else return (res, ms)
    else if head ep = chr '+' then maxExpand (descend init) ms (s + 1) p ep
    else if head ep = chr '*' then maxExpand (descend init) ms s p ep
    else if head ep = chr '-' then minExpand (descend init) ms s p ep
    else init ms (s + 1) ep

/-- `case 'f'`, from the set on. -/
def frontier (init : Matcher) (ms : MatchState) (s : Nat) (p : Bytes) : Result Outcome :=
  if head p ≠ chr '[' then .error .missingFrontierSet
  else do
    let ep ← classend p
    let previous := if s = 0 then 0 else ms.at (s - 1)
    if ¬ matchbracketclass previous p ep ∧ matchbracketclass (ms.at s) p ep then init ms s ep
    else return (none, ms)

/-- `match` from the label `init` on; a `goto` goes back there. -/
def matchInit : Nat → Matcher
  | 0, _, _, _ => .error .noFuel
  | fuel + 1, ms, s, p =>
    let init := matchInit fuel
    if p = [] then .ok (some s, ms)
    else if head p = chr '(' then
      if head p.tail = chr ')' then startCapture (descend init) ms s p.tail.tail .position
      else startCapture (descend init) ms s p.tail .unfinished
    else if head p = chr ')' then endCapture (descend init) ms s p.tail
    else if head p = chr '$' ∧ p.tail = [] then
      .ok (if s = ms.src.length then some s else none, ms)
    else if head p = chr '%' ∧ head p.tail = chr 'b' then do
      match ← matchbalance ms s p.tail.tail with
      | some s => init ms s (p.drop 4)
      | none => return (none, ms)
    else if head p = chr '%' ∧ head p.tail = chr 'f' then frontier init ms s p.tail.tail
    else if head p = chr '%' ∧ isDigit (head p.tail) then do
      match ← matchCapture ms s (head p.tail) with
      | some s => init ms s p.tail.tail
      | none => return (none, ms)
    else dflt init ms s p

/-- `match` -/
def doMatch (ms : MatchState) (s : Nat) (p : Bytes) : Result Outcome :=
  descend (matchInit (p.length + 1)) ms s p

/-! ## The functions of the library -/

/-- `memchr(s1, c, l1)` -/
def memchr (s1 : Bytes) (c : UInt8) (l1 : Nat) : Option Nat :=
  (s1.take l1).findIdx? (· = c)

/-- The loop of `lmemfind`; `off` is how far `s1` is behind the first one. -/
def lmemfindLoop (s2 : Bytes) : Nat → Bytes → Nat → Nat → Option Nat
  | 0, _, _, _ => none
  | fuel + 1, s1, l1, off =>
    if l1 > 0 then
      match memchr s1 (head s2) l1 with
      | none => none
      | some j =>
        if (s1.drop (j + 1)).take (s2.length - 1) = s2.tail then some (off + j)
        else lmemfindLoop s2 fuel (s1.drop (j + 1)) (l1 - (j + 1)) (off + j + 1)
    else none

/-- `lmemfind` -/
def lmemfind (s1 s2 : Bytes) : Option Nat :=
  if s2.length = 0 then some 0
  else if s2.length > s1.length then none
  else lmemfindLoop s2 (s1.length + 1) s1 (s1.length - (s2.length - 1)) 0

/-- `prepstate`. The other case is for subjects that fill the address space. -/
def prepstate (src : Bytes) : MatchState := ⟨src, aReps * src.length + bReps, maxccalls, []⟩

/-- `reprepstate` -/
def MatchState.reprep (ms : MatchState) : MatchState := { ms with capture := [] }

/-- `push_onecapture` -/
def pushOnecapture (ms : MatchState) (i : Nat) (s e : Nat) : Result Value :=
  match ms.capture[i]? with
  | none =>
    if i = 0 then .ok (.string ((ms.src.drop s).take (e - s)))
    else .error (.invalidCaptureIndex (i + 1))
  | some cap =>
    match cap.len with
    | .unfinished => .error .unfinishedCapture
    | .position => .ok (.integer (cap.init + 1))
    | .closed l => .ok (.string ((ms.src.drop cap.init).take l))

/-- The loop of `push_captures`, for `n` captures from `i` on. -/
def pushLoop (ms : MatchState) (s e : Nat) : Nat → Nat → Result (List Value)
  | 0, _ => .ok []
  | n + 1, i => do
    let v ← pushOnecapture ms i s e
    let values ← pushLoop ms s e n (i + 1)
    return v :: values

/-- `push_captures`; without `whole` there is no value for the whole match. -/
def pushCaptures (ms : MatchState) (whole : Bool) (s e : Nat) : Result (List Value) :=
  pushLoop ms s e (if ms.capture = [] ∧ whole then 1 else ms.capture.length) 0

/-- The loop of `str_find_aux` and `gmatch_aux` over the positions from `s1` on, at most
    `n + 1` times round: where the match begins and ends. -/
def findLoop (p : Bytes) (anchor : Bool) : Nat → MatchState → Nat →
    Result (Option (Nat × Nat) × MatchState)
  | 0, ms, s1 => do
    let (res, ms) ← doMatch ms.reprep s1 p
    return (res.map fun e => (s1, e), ms)
  | n + 1, ms, s1 => do
    let (res, ms) ← doMatch ms.reprep s1 p
    match res with
    | some e => return (some (s1, e), ms)
    | none => if anchor then return (none, ms) else findLoop p anchor n ms (s1 + 1)

/-- `str_find_aux`: the values returned. -/
def strFindAux (find : Bool) (s p : Bytes) (init : Int) (plain : Bool) : Result (List Value) :=
  let init := posrelat init s.length
  let init := if init < 1 then 1 else init
  if init > s.length + 1 then .ok [.nil]
  else
    let start := (init - 1).toNat
    if find ∧ (plain ∨ nospecials p) then
      match lmemfind (s.drop start) p with
      | some k => .ok [.integer (start + k + 1), .integer (start + k + p.length)]
      | none => .ok [.nil]
    else do
      let anchor := head p = chr '^'
      let p := if anchor then p.tail else p
      let (res, ms) ← findLoop p anchor (s.length - start) (prepstate s) start
      match res with
      | none => return [.nil]
      | some (s1, e) =>
        if find then
          let captures ← pushCaptures ms false s1 e
          return .integer (s1 + 1) :: .integer e :: captures
        else pushCaptures ms true s1 e

/-- `gmatch_aux`: the captures, and the position and the state for the next call. -/
def gmatchAux (p : Bytes) (src : Nat) (ms : MatchState) :
    Result (Option (List Value × Nat × MatchState)) :=
  if src > ms.src.length then .ok none
  else do
    let (res, ms) ← findLoop p false (ms.src.length - src) ms src
    match res with
    | none => return none
    | some (s1, e) =>
      let captures ← pushCaptures ms true s1 e
      return some (captures, if e = s1 then s1 + 1 else e, ms)

/-- The captures of `for .. in s:gmatch(p)`, in at most `fuel - 1` rounds. -/
def gmatchLoop (p : Bytes) : Nat → Nat → MatchState → Result (List (List Value))
  | 0, _, _ => .error .noFuel
  | fuel + 1, src, ms => do
    match ← gmatchAux p src ms with
    | none => return []
    | some (captures, src, ms) => return captures :: (← gmatchLoop p fuel src ms)

/-- A round goes at least one position on. -/
def gmatch (s p : Bytes) : Result (List (List Value)) :=
  gmatchLoop p (s.length + 2) 0 (prepstate s)

example : strFindAux true (ascii "key = value") (ascii "(%w+)%s*=%s*(%w+)") 1 false =
    .ok [.integer 1, .integer 11, .string (ascii "key"), .string (ascii "value")] := by
  decide +kernel

example : gmatch (ascii "a=b=c=") (ascii "(.-)=") =
    .ok [[.string (ascii "a")], [.string (ascii "b")], [.string (ascii "c")]] := by
  decide +kernel

example : strFindAux true (ascii "x = f(a(b)c)d") (ascii "%f[%a]%a%b()") 1 false =
    .ok [.integer 5, .integer 12] := by
  decide +kernel

end GameServer.LuaPattern
