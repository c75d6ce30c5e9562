/-
  The string functions of Lua 5.3: `string.sub`, `string.find` and `string.gmatch`.

  Positions count from 1, and negative ones from the end. A pattern without magic characters
  stands for itself: `find` then is plain search, and `gmatch` with `(.-)` in front of it
  captures the shortest stretches up to its occurrences. All other patterns are a parameter.

  The rules: `stringSub_eq`, `stringFind_eq` at a position inside the string, and
  `lazyMatches_cut`, which gives all captures of a traversal at once.
-/
import GameServer.Lib.LuaState
import GameServer.Lib.Separated

namespace Lua

open Separated

/-! ## Positions -/

/-- `posrelat` of `lstrlib.c` -/
def posrelat (pos : Int) (len : Nat) : Int :=
  if 0 ≤ pos then pos else if (len : Int) < -pos then 0 else len + pos + 1

/-- `string.sub(s, first, last)` -/
def stringSub (s : Bytes) (first last : Int) : Bytes :=
  let first := max (posrelat first s.length) 1
  let last := min (posrelat last s.length) s.length
  if first ≤ last then (s.drop (first - 1).toNat).take (last - first + 1).toNat else []

/-- The `n` characters behind the first `a`. -/
theorem stringSub_eq {s : Bytes} {a n : Nat} (h : a + n ≤ s.length) :
    stringSub s (a + 1) (a + n) = (s.drop a).take n := by
  have hfirst : max (posrelat (a + 1) s.length) 1 = a + 1 := by
    unfold posrelat
    rw [if_pos (by omega)]
    omega
  have hlast : min (posrelat (a + n) s.length) s.length = a + n := by
    unfold posrelat
    rw [if_pos (by omega)]
    omega
  unfold stringSub
  simp only [hfirst, hlast]
  have hdrop : ((a : Int) + 1 - 1).toNat = a := by omega
  have htake : ((a : Int) + n - (a + 1) + 1).toNat = n := by omega
  split
  · rw [hdrop, htake]
  · have hzero : n = 0 := by omega
    rw [hzero, List.take_zero]

/-! ## Patterns -/

/-- The magic characters of a pattern. -/
def magic : Bytes := ascii "^$()%.[]*+-?"

def NoMagic (p : Bytes) : Prop := ∀ c ∈ p, c ∉ magic

instance (p : Bytes) : Decidable (NoMagic p) := inferInstanceAs (Decidable (∀ c ∈ p, _))

theorem noMagic_nil : NoMagic [] := fun _ hc => absurd hc List.not_mem_nil

/-- `SPECIALS` of `lstrlib.c`, which has no closing brackets. -/
def specials : Bytes := ascii "^$*+?.([%-"

/-- `nospecials` of `lstrlib.c` -/
def nospecials (p : Bytes) : Bool := p.all fun c => decide (c ∉ specials)

theorem nospecials_of_noMagic {p : Bytes} (h : NoMagic p) : nospecials p = true := by
  have hsub : ∀ c ∈ specials, c ∈ magic := by decide +kernel
  unfold nospecials
  rw [List.all_eq_true]
  intro c hc
  exact decide_eq_true fun hspecial => h c hc (hsub c hspecial)

/-- What `string.find` and `string.gmatch` do with other patterns than the plain ones. -/
structure Patterns where
  find : Bytes → Bytes → Int → Except Stop (Option (Int × Int))
  gmatch : Bytes → Bytes → Except Stop (List Bytes)

variable (patterns : Patterns)

/-- `string.find(s, p, init)`: where the match begins and where it ends. -/
def stringFind (s p : Bytes) (init : Int) : Except Stop (Option (Int × Int)) :=
  let init := max (posrelat init s.length) 1
  if s.length + 1 < init then .ok none
  else if nospecials p then
    .ok ((search p (s.drop (init - 1).toNat)).map fun k => (init + k, init + k + p.length - 1))
  else patterns.find s p init

/-- Plain search behind the first `a` characters. -/
theorem stringFind_eq {s p : Bytes} (hp : NoMagic p) {a : Nat} (ha : a ≤ s.length) :
    stringFind patterns s p (a + 1) =
      .ok ((search p (s.drop a)).map fun k =>
        ((a : Int) + 1 + k, (a : Int) + 1 + k + p.length - 1)) := by
  have hinit : max (posrelat (a + 1) s.length) 1 = a + 1 := by
    unfold posrelat
    rw [if_pos (by omega)]
    omega
  have hdrop : ((a : Int) + 1 - 1).toNat = a := by omega
  unfold stringFind
  simp only [hinit, hdrop]
  rw [if_neg (by omega), if_pos (nospecials_of_noMagic hp)]

/-! ## Traversal -/

/-- `(.-)`: the shortest stretch up to what comes behind it in the pattern. -/
def lazyCapture : Bytes := ascii "(.-)"

/-- The captures of `(.-)` in front of `d`, from position `src` on, in at most `fuel - 1`
    matches. A match of no characters goes on one position behind. -/
def lazyMatches (s d : Bytes) : Nat → Nat → Except Stop (List Bytes)
  | 0, _ => .error .cutOff
  | fuel + 1, src =>
    if s.length < src then .ok []
    else
      match search d (s.drop src) with
      | none => .ok []
      | some k => do
        let e := src + k + d.length
        let later ← lazyMatches s d fuel (if e = src then src + 1 else e)
        return (s.drop src).take k :: later

/-- The captures of `for match in s:gmatch(p)`. -/
def stringGmatch (fuel : Nat) (s p : Bytes) : Except Stop (List Bytes) :=
  if lazyCapture <+: p ∧ NoMagic (p.drop lazyCapture.length) then
    lazyMatches s (p.drop lazyCapture.length) fuel 0
  else patterns.gmatch s p

theorem stringGmatch_lazy {d : Bytes} (hd : NoMagic d) (fuel : Nat) (s : Bytes) :
    stringGmatch patterns fuel s (lazyCapture ++ d) = lazyMatches s d fuel 0 := by
  unfold stringGmatch
  rw [List.drop_left, if_pos ⟨List.prefix_append _ _, hd⟩]

/-- Where a loop over a string is behind a field and the separator. -/
theorem drop_more {s field sep rest : Bytes} {a : Nat} (h : s.drop a = field ++ sep ++ rest)
    (ha : a ≤ s.length) : s.drop (a + field.length + sep.length) = rest ∧
      a + field.length + sep.length ≤ s.length := by
  have hlen := congrArg List.length h
  simp only [List.length_drop, List.length_append] at hlen
  refine ⟨?_, by omega⟩
  rw [Nat.add_assoc, ← List.length_append, ← List.drop_drop, h, List.drop_left]

/-- A traversal captures all fields but the last. The induction is on the cut of what is
    still to come. -/
theorem lazyMatches_cut {s d r : Bytes} (hd : d ≠ []) {fields : List Bytes} (h : Cut d r fields) :
    ∀ {src : Nat}, s.drop src = r → src ≤ s.length → ∀ fuel, r.length < fuel →
      lazyMatches s d fuel src = .ok fields.dropLast := by
  induction h with
  | last hnot =>
    intro src hr hsrc fuel hfuel
    cases fuel with
    | zero => omega
    | succ fuel => rw [lazyMatches, if_neg (by omega), hr, search_eq_none hnot]; rfl
  | @more field rest fields hfield tail ih =>
    intro src hr hsrc fuel hfuel
    obtain ⟨hrest, hle⟩ := drop_more hr hsrc
    have hpos := List.length_pos_iff.2 hd
    cases fuel with
    | zero => omega
    | succ fuel =>
      have hlater := ih hrest hle fuel (by simp only [List.length_append] at hfuel; omega)
      rw [lazyMatches, if_neg (by omega), hr, search_leftmost hfield]
      simp only
      rw [if_neg (by omega), hlater, List.dropLast_cons_of_ne_nil tail.ne_nil, List.append_assoc,
        List.take_left]
      rfl

end Lua
