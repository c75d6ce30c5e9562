/-
  `string.gmatch`.

  A call of `gmatch_aux` returns the leftmost match from where the last one ended, so a loop
  over the calls visits the matches of a `Traversal`, unless its searches together cost more
  than the repetitions allowed (`gmatch_traversal`).

  `string.split` of `src/load_config.lua` traverses with `(.-)` in front of its delimiter.
  `gmatch` then captures the fields in front of the delimiters, as `lazyMatches` has it
  (`gmatchLoop_lazy`). What the repetitions cost is paid for by the characters they pass as long as
  the delimiter has at most five characters, so it is never too complex (`split_gmatch`).
-/
import GameServer.LuaPattern.Find

namespace GameServer.LuaPattern

open Lua Separated

/-! ## Traversals -/

/-- Where the search goes on behind a match. -/
def Match.next (m : Match) : Nat := if m.2.1 = m.1 then m.1 + 1 else m.2.1

/-- The matches from `start` on: each one is leftmost behind the one before. -/
inductive Traversal (src : Bytes) (items : List Item) : Nat → List Match → Prop
  | done {start : Nat} (h : Leftmost src items false start none) : Traversal src items start []
  | more {start : Nat} {m : Match} {later : List Match}
      (h : Leftmost src items false start (some m)) (tail : Traversal src items m.next later) :
      Traversal src items start (m :: later)

/-- What the searches of a traversal cost, the last one included, which finds nothing. -/
def traversalCost (src : Bytes) (items : List Item) : Nat → List Match → Nat
  | start, [] => searchCost src items false start none
  | start, m :: later =>
    searchCost src items false start (some m) + traversalCost src items m.next later

theorem lt_balanceLoop {b e : UInt8} {rest : Bytes} {s cont s' : Nat}
    (h : balanceLoop b e rest s cont = some s') : s < s' := by
  induction rest generalizing s cont with
  | nil => cases h
  | cons c rest ih =>
    rw [balanceLoop] at h
    split at h
    · split at h
      · obtain rfl := Option.some.inj h
        exact Nat.lt_succ_self s
      · exact Nat.lt_of_succ_lt (ih h)
    · split at h
      · exact Nat.lt_of_succ_lt (ih h)
      · exact Nat.lt_of_succ_lt (ih h)

theorem le_balanced {src : Bytes} {b e : UInt8} {s s' : Nat} (h : balanced src b e s = some s') :
    s ≤ s' := by
  unfold balanced at h
  split at h
  · cases h
  · exact Nat.le_of_lt (Nat.lt_of_succ_lt (lt_balanceLoop h))

theorem le_copied {src : Bytes} {c : List Capture} {l : UInt8} {s s' : Nat}
    (h : copied src c l s = some s') : s ≤ s' := by
  unfold copied at h
  split at h
  · split at h
    · obtain rfl := Option.some.inj h
      exact Nat.le_add_right s _
    · cases h
  · cases h

theorem Matches.le {src : Bytes} {items : List Item} {s e : Nat} {c c' : List Capture}
    (h : Matches src items s c e c') : s ≤ e := by
  induction h with
  | nil => exact Nat.le_refl _
  | openCapture h ih => exact ih
  | positionCapture h ih => exact ih
  | closeCapture hl h ih => exact ih
  | final => exact Nat.le_refl _
  | balance hb h ih => exact Nat.le_trans (le_balanced hb) ih
  | frontier hf h ih => exact ih
  | back hl h ih => exact Nat.le_trans (le_copied hl) ih
  | one h1 h ih => omega
  | optional hn hall h ih => omega
  | star hall h ih => omega
  | plus hn hall h ih => omega
  | minus hall h ih => omega

theorem Leftmost.le {src : Bytes} {items : List Item} {start : Nat} {m : Match}
    (h : Leftmost src items false start (some m)) : start ≤ m.1 ∧ m.1 ≤ m.2.1 := by
  have hm := h.matches
  cases h with
  | found hb hend hanchor _ hleft => exact ⟨hb, hm.le⟩

theorem Match.lt_next (m : Match) (h : m.1 ≤ m.2.1) : m.1 < m.next ∧ m.2.1 ≤ m.next := by
  unfold Match.next
  split
  · omega
  · omega

/-- The matches are in order, and none begins before the one in front of it has ended. -/
theorem Traversal.ordered {src : Bytes} {items : List Item} {start : Nat} {found : List Match}
    (h : Traversal src items start found) :
    (∀ m ∈ found, start ≤ m.1) ∧
      found.Pairwise fun m m' => m.1 < m'.1 ∧ m.2.1 ≤ m'.1 := by
  induction h with
  | done h => exact ⟨fun _ hm => absurd hm List.not_mem_nil, .nil⟩
  | @more start m later h tail ih =>
    obtain ⟨hstart, hm⟩ := h.le
    obtain ⟨hlt, hle⟩ := m.lt_next hm
    refine ⟨List.forall_mem_cons.2 ⟨hstart, fun m' hm' => ?_⟩, .cons (fun m' hm' => ?_) ih.2⟩
    · have := ih.1 m' hm'
      omega
    · have := ih.1 m' hm'
      omega

/-! ## The iterator -/

/-- The values of a match for the loop. -/
def loopValues (src : Bytes) (m : Match) : List Value := findValues src false (some m)

variable {p : Bytes} {items : List Item}

/-- What a call of `gmatch_aux` returns. -/
def yielded (ms : MatchState) (r : Option Match) (cost : Nat) :
    Result (Option (List Value × Nat × MatchState)) :=
  if cost ≤ ms.nrep then
    .ok (r.map fun m => (loopValues ms.src m, m.next,
      ⟨ms.src, ms.nrep - cost, ms.matchdepth, m.2.2⟩))
  else .error .tooComplex

theorem gmatchAux_exact (h : WellFormed p items) {ms : MatchState}
    (hd : ms.matchdepth = maxccalls) (src : Nat) :
    ∃ r, Leftmost ms.src items false src r ∧ (r ≠ none → src ≤ ms.src.length) ∧
      gmatchAux p src ms = yielded ms r (searchCost ms.src items false src r) := by
  unfold gmatchAux yielded
  by_cases hend : src > ms.src.length
  · refine ⟨none, .none fun b h1 h2 _ => by omega, fun h => absurd rfl h, ?_⟩
    have hcost : searchCost ms.src items false src none = 0 := by
      rw [searchCost, if_neg fun h => Bool.false_ne_true h.1,
        show ms.src.length + 1 - src = 0 by omega, attemptsCost]
    rw [if_pos hend, hcost, if_pos (Nat.zero_le _)]
    rfl
  · rw [if_neg hend]
    obtain ⟨r, hleft, hloop⟩ := findLoop_exact h false hd
      (show src + (ms.src.length - src) = ms.src.length by omega)
    refine ⟨r, hleft, fun _ => Nat.le_of_not_lt hend, ?_⟩
    rw [hloop]
    by_cases hc : searchCost ms.src items false src r ≤ ms.nrep
    · rw [searched_enough hc, if_pos hc, ok_bind]
      cases r with
      | none => rfl
      | some m =>
        have hpushed := findValues_pushed h
          ⟨ms.src, ms.nrep - searchCost ms.src items false src (some m), ms.matchdepth, m.2.2⟩
          hleft rfl false
        rw [if_neg Bool.false_ne_true] at hpushed
        dsimp only [Option.map_some, Option.getD_some]
        rw [hpushed]
        rfl
    · rw [searched_tooComplex (Nat.lt_of_not_le hc), if_neg hc]
      rfl

/-- A loop over the iterator sees the matches of a traversal, as long as the repetitions last
    for its searches. -/
theorem gmatchLoop_exact (h : WellFormed p items) {fuel : Nat} {ms : MatchState} (src : Nat)
    (hd : ms.matchdepth = maxccalls) (hpos : 0 < fuel) (hfuel : ms.src.length + 1 < fuel + src) :
    ∃ found, Traversal ms.src items src found ∧
      gmatchLoop p fuel src ms =
        if traversalCost ms.src items src found ≤ ms.nrep then
          .ok (found.map (loopValues ms.src))
        else .error .tooComplex := by
  induction fuel generalizing ms src with
  | zero => exact absurd hpos (Nat.lt_irrefl 0)
  | succ fuel ih =>
    obtain ⟨r, hleft, hsrc, hcall⟩ := gmatchAux_exact h hd src
    rw [gmatchLoop, hcall, yielded]
    cases r with
    | none =>
      refine ⟨[], .done hleft, ?_⟩
      rw [traversalCost]
      split <;> rfl
    | some m =>
      obtain ⟨hle, hm⟩ := hleft.le
      have hstart := hsrc (Option.some_ne_none m)
      have hnext := (m.lt_next hm).1
      obtain ⟨later, htail, hlater⟩ := @ih
        ⟨ms.src, ms.nrep - searchCost ms.src items false src (some m), ms.matchdepth, m.2.2⟩
        m.next hd (by omega) (by dsimp only; omega)
      refine ⟨m :: later, .more hleft htail, ?_⟩
      rw [traversalCost]
      by_cases hc : searchCost ms.src items false src (some m) ≤ ms.nrep
      · rw [if_pos hc, ok_bind]
        dsimp only [Option.map_some]
        rw [hlater]
        dsimp only
        by_cases hrest : traversalCost ms.src items m.next later ≤
            ms.nrep - searchCost ms.src items false src (some m)
        · rw [if_pos hrest, if_pos (by omega)]
          rfl
        · rw [if_neg hrest, if_neg (by omega)]
          rfl
      · rw [if_neg hc, if_neg (by omega)]
        rfl

/-- `for .. in s:gmatch(p)` visits leftmost matches that do not overlap, from left to right,
    until there are no more. It is too complex exactly if the searches cost more than the
    repetitions allowed. -/
theorem gmatch_traversal (s : Bytes) (h : WellFormed p items) :
    ∃ found, Traversal s items 0 found ∧
      (found.Pairwise fun m m' => m.1 < m'.1 ∧ m.2.1 ≤ m'.1) ∧
        gmatch s p =
          if traversalCost s items 0 found ≤ repetitions s then .ok (found.map (loopValues s))
          else .error .tooComplex := by
  obtain ⟨found, htraversal, hloop⟩ := gmatchLoop_exact h 0 (prepstate_matchdepth s)
    (Nat.succ_pos _) (show s.length + 1 < s.length + 2 + 0 from Nat.lt_succ_self _)
  exact ⟨found, htraversal, htraversal.ordered.2, hloop⟩

theorem gmatch_traversal_words :
    ∃ found, Traversal (ascii "to be") (itemsOf (ascii "%a+")) 0 found ∧
      found.map (loopValues (ascii "to be")) =
        [[.string (ascii "to")], [.string (ascii "be")]] := by
  obtain ⟨found, h, -, heq⟩ := gmatch_traversal (p := ascii "%a+") (ascii "to be")
    (WellFormed.of_check (by decide +kernel))
  refine ⟨found, h, ?_⟩
  have hfound : gmatch (ascii "to be") (ascii "%a+") =
      .ok [[.string (ascii "to")], [.string (ascii "be")]] := by decide +kernel
  rw [hfound] at heq
  split at heq
  · exact (Except.ok.inj heq).symm
  · cases heq

/-! ## Fields -/

/-- The items of a text without magic characters. -/
def literal (d : Bytes) : List Item := d.map fun x => .one fun c => x = c

theorem parse_literal {d : Bytes} (hd : NoMagic d) {fuel : Nat} (hfuel : d.length < fuel) :
    parse fuel d = .ok (literal d) := by
  induction d generalizing fuel with
  | nil =>
    obtain ⟨fuel, rfl⟩ := Nat.exists_eq_succ_of_ne_zero (Nat.ne_of_gt hfuel)
    rfl
  | cons x d ih =>
    rw [List.length_cons] at hfuel
    obtain ⟨fuel, rfl⟩ := Nat.exists_eq_succ_of_ne_zero (Nat.ne_of_gt (Nat.zero_lt_of_lt hfuel))
    have hx : x ≠ chr ')' := fun heq =>
      hd x List.mem_cons_self (heq ▸ (by decide +kernel))
    rw [parse, if_neg (List.cons_ne_nil x d), parseItem_plain (nospecials_of_noMagic hd) hx,
      ok_bind]
    dsimp only
    rw [ih (fun c hc => hd c (List.mem_cons_of_mem x hc)) (by omega)]
    rfl

variable {src : Bytes} {c : List Capture}

theorem attempt_literal {d : Bytes} {s : Nat} (h : d <+: src.drop s) :
    attempt src (literal d) s c = ⟨some (s + d.length, c), d.length⟩ := by
  induction d generalizing s with
  | nil => rfl
  | cons x d ih =>
    obtain ⟨hx, htail⟩ := prefix_drop_iff.1 h
    show attempt src (.one _ :: literal d) s c = _
    rw [attempt, if_pos (single_eq_iff.2 hx), ih htail, Attempt.tick, List.length_cons]
    simp only [Attempt.mk.injEq, Option.some.injEq, Prod.mk.injEq, and_true]
    omega

theorem attempt_literal_fails {d : Bytes} {s : Nat} (h : ¬ d <+: src.drop s) :
    (attempt src (literal d) s c).result = none ∧
      (attempt src (literal d) s c).cost + 1 ≤ d.length := by
  induction d generalizing s with
  | nil => exact absurd List.nil_prefix h
  | cons x d ih =>
    show (attempt src (.one _ :: literal d) s c).result = none ∧
      (attempt src (.one _ :: literal d) s c).cost + 1 ≤ _
    rw [attempt]
    split
    · next hx =>
      have htail := ih fun htail => h (prefix_drop_iff.2 ⟨single_eq_iff.1 hx, htail⟩)
      exact ⟨htail.1, Nat.succ_le_succ htail.2⟩
    · exact ⟨rfl, Nat.succ_le_succ (Nat.zero_le _)⟩

/-- The first position that succeeds, and what those before it cost. -/
theorem firstOf_upFrom {f : Nat → Attempt} {n k s m : Nat} (hk : k ≤ n)
    (hfail : ∀ i < k, (f (s + i)).result = none ∧ (f (s + i)).cost ≤ m)
    (hok : (f (s + k)).result ≠ none) :
    (Attempt.firstOf f (upFrom s n)).result = (f (s + k)).result ∧
      (Attempt.firstOf f (upFrom s n)).cost ≤ k * m + (f (s + k)).cost := by
  induction k generalizing s n with
  | zero =>
    rw [Nat.add_zero] at hok ⊢
    have hfirst : ∀ later, ((f s).orElse later) = f s := fun later => if_neg hok
    cases n with
    | zero =>
      rw [upFrom, Attempt.firstOf, hfirst]
      exact ⟨rfl, by omega⟩
    | succ n =>
      rw [upFrom, Attempt.firstOf, hfirst]
      exact ⟨rfl, by omega⟩
  | succ k ih =>
    cases n with
    | zero => omega
    | succ n =>
      have h0 : (f s).result = none ∧ (f s).cost ≤ m := hfail 0 (Nat.succ_pos k)
      have hnext : s + 1 + k = s + (k + 1) := by omega
      have hrest := ih (s := s + 1) (Nat.le_of_succ_le_succ hk)
        (fun i hi => by
          rw [show s + 1 + i = s + (i + 1) by omega]
          exact hfail (i + 1) (Nat.succ_lt_succ hi))
        (by rw [hnext]; exact hok)
      rw [hnext] at hrest
      rw [upFrom, Attempt.firstOf, Attempt.orElse, if_pos h0.1]
      refine ⟨hrest.1, Nat.le_trans (Nat.add_le_add h0.2 hrest.2) ?_⟩
      rw [Nat.succ_mul]
      omega

theorem firstOf_upFrom_fails {f : Nat → Attempt} {n s m : Nat}
    (hfail : ∀ i ≤ n, (f (s + i)).result = none ∧ (f (s + i)).cost ≤ m) :
    (Attempt.firstOf f (upFrom s n)).result = none ∧
      (Attempt.firstOf f (upFrom s n)).cost ≤ (n + 1) * m := by
  induction n generalizing s with
  | zero =>
    have h0 : (f s).result = none ∧ (f s).cost ≤ m := hfail 0 (Nat.le_refl 0)
    rw [upFrom, Attempt.firstOf, Attempt.firstOf, Attempt.orElse_fail]
    exact ⟨h0.1, by have := h0.2; omega⟩
  | succ n ih =>
    have h0 : (f s).result = none ∧ (f s).cost ≤ m := hfail 0 (Nat.zero_le _)
    have hrest := ih (s := s + 1) fun i hi => by
      rw [show s + 1 + i = s + (i + 1) by omega]
      exact hfail (i + 1) (Nat.succ_le_succ hi)
    rw [upFrom, Attempt.firstOf, Attempt.orElse, if_pos h0.1]
    refine ⟨hrest.1, Nat.le_trans (Nat.add_le_add h0.2 hrest.2) ?_⟩
    rw [Nat.succ_mul (n + 1)]
    omega

/-- The items of `(.-)` in front of a text. -/
def lazyItems (d : Bytes) : List Item :=
  .openCapture :: .minus (fun _ => true) :: .closeCapture :: literal d

theorem static_literal (d : Bytes) (st : List Bool) :
    Static (literal d) st = !st.contains true := by
  induction d with
  | nil => rfl
  | cons x d ih => exact ih

theorem nesting_literal (d : Bytes) : nesting (literal d) = 0 := by
  induction d with
  | nil => rfl
  | cons x d ih =>
    show nesting (.one _ :: literal d) = 0
    rw [nesting_cons_of_not rfl, ih]

theorem parse_lazy {d : Bytes} (hd : NoMagic d) :
    parse ((lazyCapture ++ d).length + 1) (lazyCapture ++ d) = .ok (lazyItems d) := by
  have hlazy : lazyCapture ++ d = chr '(' :: chr '.' :: chr '-' :: chr ')' :: d := rfl
  have hopen : parseItem (chr '(' :: chr '.' :: chr '-' :: chr ')' :: d) =
      .ok (.openCapture, chr '.' :: chr '-' :: chr ')' :: d) := rfl
  have hminus : parseItem (chr '.' :: chr '-' :: chr ')' :: d) =
      .ok (.minus fun _ => true, chr ')' :: d) := rfl
  have hclose : parseItem (chr ')' :: d) = .ok (.closeCapture, d) := rfl
  rw [hlazy, parse, if_neg (List.cons_ne_nil _ _), hopen, ok_bind]
  dsimp only [List.length_cons]
  rw [parse, if_neg (List.cons_ne_nil _ _), hminus, ok_bind]
  dsimp only
  rw [parse, if_neg (List.cons_ne_nil _ _), hclose, ok_bind]
  dsimp only
  rw [parse_literal hd (by omega)]
  rfl

theorem wellFormed_lazy {d : Bytes} (hd : NoMagic d) :
    WellFormed (lazyCapture ++ d) (lazyItems d) where
  parses := parse_lazy hd
  static := by
    show Static (literal d) [false] = true
    rw [static_literal]
    rfl
  shallow := by
    unfold lazyItems
    rw [nesting_cons rfl, nesting_cons rfl, nesting_cons rfl, nesting_literal]
    decide

/-- The shortest stretch first. -/
theorem attempt_minus_any (items : List Item) (s : Nat) :
    (attempt src (.minus (fun _ => true) :: items) s c).result =
        (Attempt.firstOf (fun s => attempt src items s c) (upFrom s (src.length - s))).result ∧
      (attempt src (.minus (fun _ => true) :: items) s c).cost ≤
        1 + (Attempt.firstOf (fun s => attempt src items s c)
          (upFrom s (src.length - s))).cost := by
  by_cases hs : s < src.length
  · have hsingle : single src (fun _ => true) s = true := by
      simp [single, List.getElem?_eq_getElem hs]
    have hspan : span src (fun _ => true) s = src.length - s := by
      rw [span, List.takeWhile_eq_self_iff.2 fun _ _ => rfl, List.length_drop]
    rw [attempt, if_pos hsingle, hspan]
    exact ⟨rfl, Nat.le_of_eq (Nat.add_comm _ 1)⟩
  · have hsingle : ¬ single src (fun _ => true) s = true := by
      simp [single, List.getElem?_eq_none (Nat.le_of_not_lt hs)]
    have hend : src.length - s = 0 := by omega
    rw [attempt, if_neg hsingle, hend, upFrom, Attempt.firstOf, Attempt.firstOf,
      Attempt.orElse_fail]
    exact ⟨rfl, by omega⟩

theorem attempt_close (d : Bytes) (s s' : Nat) :
    attempt src (.closeCapture :: literal d) s' [⟨s, .unfinished⟩] =
      attempt src (literal d) s' [⟨s, .closed (s' - s)⟩] := rfl

theorem attempt_open (d : Bytes) (s : Nat) :
    attempt src (lazyItems d) s [] =
      attempt src (.minus (fun _ => true) :: .closeCapture :: literal d) s
        [⟨s, .unfinished⟩] := rfl

/-- Everything up to the first occurrence. -/
theorem attempt_lazy {d : Bytes} {s k : Nat} (hk : search d (src.drop s) = some k) :
    (attempt src (lazyItems d) s []).result = some (s + k + d.length, [⟨s, .closed k⟩]) ∧
      (attempt src (lazyItems d) s []).cost ≤ 1 + (k * (d.length - 1) + d.length) := by
  obtain ⟨hle, hpre, hbefore⟩ := search_some_iff.1 hk
  rw [List.length_drop] at hle
  rw [List.drop_drop] at hpre
  rw [attempt_open]
  obtain ⟨hresult, hcost⟩ := @attempt_minus_any src [⟨s, .unfinished⟩]
    (.closeCapture :: literal d) s
  have hhere := attempt_literal (c := [⟨s, .closed (s + k - s)⟩]) hpre
  have hfirst := firstOf_upFrom (n := src.length - s)
    (f := fun s' => attempt src (.closeCapture :: literal d) s' [⟨s, .unfinished⟩])
    (m := d.length - 1) hle
    (fun i hi => by
      have hfail := attempt_literal_fails (c := [⟨s, .closed (s + i - s)⟩]) (fun hpre =>
        hbefore i hi (by rw [List.drop_drop]; exact hpre))
      exact ⟨hfail.1, Nat.le_sub_one_of_lt hfail.2⟩)
    (by
      rw [attempt_close, hhere]
      exact Option.some_ne_none _)
  rw [attempt_close, hhere] at hfirst
  rw [hresult, hfirst.1]
  refine ⟨?_, Nat.le_trans hcost (Nat.add_le_add_left hfirst.2 1)⟩
  rw [Nat.add_sub_cancel_left]

theorem attempt_lazy_fails {d : Bytes} {s : Nat}
    (hk : search d (src.drop s) = none) :
    (attempt src (lazyItems d) s []).result = none ∧
      (attempt src (lazyItems d) s []).cost ≤ 1 + (src.length - s + 1) * (d.length - 1) := by
  rw [attempt_open]
  obtain ⟨hresult, hcost⟩ := @attempt_minus_any src [⟨s, .unfinished⟩]
    (.closeCapture :: literal d) s
  have hfirst := firstOf_upFrom_fails (n := src.length - s) (s := s)
    (f := fun s' => attempt src (.closeCapture :: literal d) s' [⟨s, .unfinished⟩])
    (m := d.length - 1) fun i hi => by
      have hfail := attempt_literal_fails (c := [⟨s, .closed (s + i - s)⟩]) (fun hpre =>
        search_none_iff.1 hk i (by rw [List.length_drop]; exact hi)
          (by rw [List.drop_drop]; exact hpre))
      exact ⟨hfail.1, Nat.le_sub_one_of_lt hfail.2⟩
  rw [hresult]
  exact ⟨hfirst.1, Nat.le_trans hcost (Nat.add_le_add_left hfirst.2 1)⟩

/-! ## What a traversal costs -/

section Cost

variable {ms : MatchState} {s : Nat}

theorem doMatch_some (h : WellFormed p items) (hd : ms.matchdepth = maxccalls)
    (hs : s ≤ ms.src.length) {e cost : Nat} {c : List Capture}
    (hmatch : attempt ms.src items s [] = ⟨some (e, c), cost⟩) (hcost : cost ≤ ms.nrep) :
    doMatch ms.reprep s p = .ok (some e, ⟨ms.src, ms.nrep - cost, ms.matchdepth, c⟩) := by
  rw [doMatch_enough h hd hs (by rw [hmatch]; exact hcost), hmatch]
  rfl

theorem doMatch_none (h : WellFormed p items) (hd : ms.matchdepth = maxccalls)
    (hs : s ≤ ms.src.length) (hresult : (attempt ms.src items s []).result = none)
    (hcost : (attempt ms.src items s []).cost ≤ ms.nrep) :
    doMatch ms.reprep s p =
      .ok (none, ⟨ms.src, ms.nrep - (attempt ms.src items s []).cost, ms.matchdepth, []⟩) := by
  rw [doMatch_enough h hd hs hcost, hresult]
  rfl

theorem attemptsCost_le {src : Bytes} {k m : Nat}
    (hle : ∀ t, s ≤ t → t < s + k → (attempt src items t []).cost ≤ m) :
    attemptsCost src items s k ≤ k * m := by
  induction k generalizing s with
  | zero => exact Nat.zero_le _
  | succ k ih =>
    have hfirst := hle s (Nat.le_refl s) (by omega)
    have hrest := ih (s := s + 1) fun t h1 h2 => hle t (by omega) (by omega)
    rw [attemptsCost, Nat.succ_mul]
    omega

/-- No match at any position. -/
theorem findLoop_fails (h : WellFormed p items) (hd : ms.matchdepth = maxccalls) {n m : Nat}
    (hs : s + n = ms.src.length)
    (hfail : ∀ t, s ≤ t → t ≤ ms.src.length → (attempt ms.src items t []).result = none ∧
      (attempt ms.src items t []).cost ≤ m) :
    (∃ ms', findLoop p false n ms s = .ok (none, ms')) ∨
      findLoop p false n ms s = .error .tooComplex ∧ ms.nrep < (n + 1) * m := by
  obtain ⟨r, hleft, hloop⟩ := findLoop_exact h false hd hs
  cases hleft with
  | found hb hend hanchor hm hleft =>
    rw [(hfail _ hb hend).1] at hm
    cases hm
  | none hno =>
    have hpositions : ms.src.length + 1 - s = n + 1 := by omega
    have hcost : searchCost ms.src items false s none ≤ (n + 1) * m := by
      rw [searchCost, if_neg fun h => Bool.false_ne_true h.1, hpositions]
      exact attemptsCost_le fun t h1 h2 => (hfail t h1 (by omega)).2
    rw [hloop]
    by_cases hc : searchCost ms.src items false s none ≤ ms.nrep
    · exact Or.inl ⟨_, searched_enough hc⟩
    · exact Or.inr ⟨searched_tooComplex (by omega), by omega⟩

end Cost

/-- One call of the iterator: the field in front of the next delimiter. -/
theorem gmatchAux_lazy {d : Bytes} (hd : NoMagic d) {ms : MatchState}
    (hdepth : ms.matchdepth = maxccalls) {src k : Nat} (hsrc : src ≤ ms.src.length)
    (hk : search d (ms.src.drop src) = some k) :
    (gmatchAux (lazyCapture ++ d) src ms = .error .tooComplex ∧
        ms.nrep < 1 + (k * (d.length - 1) + d.length)) ∨
      ∃ ms', gmatchAux (lazyCapture ++ d) src ms =
          .ok (some ([.string ((ms.src.drop src).take k)],
            if src + k + d.length = src then src + 1 else src + k + d.length, ms')) ∧
        ms'.src = ms.src ∧ ms'.matchdepth = maxccalls ∧
          ms.nrep ≤ ms'.nrep + (1 + (k * (d.length - 1) + d.length)) := by
  obtain ⟨hmatch, hcost⟩ := attempt_lazy hk
  have hloop := findLoop_first (wellFormed_lazy hd) false (n := ms.src.length - src) hdepth hsrc
    (Or.inr (Or.inr (by rw [hmatch]; exact Option.some_ne_none _)))
  rw [hmatch] at hloop
  unfold gmatchAux
  rw [if_neg (Nat.not_lt.2 hsrc), hloop]
  by_cases hless : (attempt ms.src (lazyItems d) src []).cost ≤ ms.nrep
  · rw [searched_enough hless]
    refine Or.inr ⟨_, rfl, rfl, hdepth, ?_⟩
    dsimp only
    omega
  · rw [searched_tooComplex (Nat.lt_of_not_le hless)]
    exact Or.inl ⟨rfl, by omega⟩

/-- The last call: there is no more delimiter. -/
theorem gmatchAux_done {d : Bytes} (hd : NoMagic d) {ms : MatchState}
    (hdepth : ms.matchdepth = maxccalls) {src : Nat} (hsrc : src ≤ ms.src.length)
    (hk : search d (ms.src.drop src) = none) :
    gmatchAux (lazyCapture ++ d) src ms = .ok none ∨
      gmatchAux (lazyCapture ++ d) src ms = .error .tooComplex ∧
        ms.nrep < (ms.src.length - src + 1) *
          (1 + (ms.src.length - src + 1) * (d.length - 1)) := by
  have hnone : ∀ t, src ≤ t → t ≤ ms.src.length → search d (ms.src.drop t) = none := by
    intro t h1 h2
    refine search_none_iff.2 fun i hi hpre => ?_
    rw [List.length_drop] at hi
    rw [List.drop_drop] at hpre
    refine search_none_iff.1 hk (t + i - src) ?_ ?_
    · rw [List.length_drop]
      omega
    · rw [List.drop_drop, show src + (t + i - src) = t + i by omega]
      exact hpre
  have hloop := findLoop_fails (wellFormed_lazy hd) hdepth
    (m := 1 + (ms.src.length - src + 1) * (d.length - 1))
    (Nat.add_sub_cancel' hsrc) fun t h1 h2 => by
      obtain ⟨hresult, hcost⟩ := attempt_lazy_fails (hnone t h1 h2)
      refine ⟨hresult, Nat.le_trans hcost (Nat.add_le_add_left (Nat.mul_le_mul_right _ ?_) 1)⟩
      omega
  unfold gmatchAux
  rw [if_neg (Nat.not_lt.2 hsrc)]
  rcases hloop with ⟨ms', hok⟩ | ⟨herr, hmore⟩
  · rw [hok]
    exact Or.inl rfl
  · rw [herr]
    exact Or.inr ⟨rfl, hmore⟩

/-- The longest delimiter whose fields pay for their repetitions. -/
def cheapLength : Nat := 5

/-- A round is paid for by the characters it passes, four repetitions each. -/
theorem round_paid {src k l next : Nat} (hl : l ≤ cheapLength)
    (hnext : next = if src + k + l = src then src + 1 else src + k + l) :
    1 + (k * (l - 1) + l) + 4 * src ≤ 4 * next := by
  have hk : k * (l - 1) ≤ k * 4 := Nat.mul_le_mul_left k (Nat.sub_le_sub_right hl 1)
  have hzero : l = 0 → k * (l - 1) = 0 := by
    rintro rfl
    exact Nat.mul_zero k
  subst hnext
  split
  · have hl0 : l = 0 := by omega
    have := hzero hl0
    omega
  · by_cases hl0 : l = 0
    · have := hzero hl0
      omega
    · omega

/-- Behind the last delimiter there are less characters than it has. -/
theorem remainder_paid {r l : Nat} (hl : l ≤ cheapLength) (hr : r < l) :
    (r + 1) * (1 + (r + 1) * (l - 1)) ≤ 105 := by
  have h1 : (r + 1) * (l - 1) ≤ 5 * 4 :=
    Nat.mul_le_mul (Nat.le_trans hr hl) (Nat.sub_le_sub_right hl 1)
  calc (r + 1) * (1 + (r + 1) * (l - 1)) ≤ 5 * 21 :=
        Nat.mul_le_mul (Nat.le_trans hr hl) (by omega)
    _ = 105 := rfl

/-- The traversal captures the fields in front of the delimiters. The induction is on the
    rounds; what is left of the repetitions is enough for what is left of the subject. -/
theorem gmatchLoop_lazy {d : Bytes} (hd : NoMagic d) {fuel : Nat} {ms : MatchState} {src : Nat}
    (hdepth : ms.matchdepth = maxccalls) (hpos : 0 < fuel)
    (hfuel : ms.src.length + 1 < fuel + src) :
    ∃ captures, lazyMatches ms.src d fuel src = .ok captures ∧
      (gmatchLoop (lazyCapture ++ d) fuel src ms = .ok (captures.map fun field => [.string field]) ∨
        gmatchLoop (lazyCapture ++ d) fuel src ms = .error .tooComplex ∧
          (d.length ≤ cheapLength → d <:+ ms.src →
            ms.nrep < 4 * (ms.src.length + 1 - src) + 105)) := by
  induction fuel generalizing ms src with
  | zero => exact absurd hpos (Nat.lt_irrefl 0)
  | succ fuel ih =>
    rw [lazyMatches, gmatchLoop]
    by_cases hend : ms.src.length < src
    · have hdone : gmatchAux (lazyCapture ++ d) src ms = .ok none := if_pos hend
      rw [if_pos hend, hdone]
      exact ⟨[], rfl, Or.inl rfl⟩
    · have hsrc : src ≤ ms.src.length := Nat.le_of_not_lt hend
      rw [if_neg hend]
      cases hk : search d (ms.src.drop src) with
      | none =>
        refine ⟨[], rfl, ?_⟩
        rcases gmatchAux_done hd hdepth hsrc hk with hdone | ⟨herr, hmore⟩
        · rw [hdone]
          exact Or.inl rfl
        · rw [herr]
          refine Or.inr ⟨rfl, fun hl hsuffix => ?_⟩
          -- the delimiter at the end has been passed
          have hr : ms.src.length - src < d.length := by
            by_contra hlong
            obtain ⟨before, hbefore⟩ := hsuffix
            have hlen := congrArg List.length hbefore
            rw [List.length_append] at hlen
            refine search_none_iff.1 hk (before.length - src) ?_ ?_
            · rw [List.length_drop]
              omega
            · rw [List.drop_drop, Nat.add_sub_cancel' (by omega), ← hbefore, List.drop_left]
          have := remainder_paid hl hr
          omega
      | some k =>
        obtain ⟨hle, hpre, -⟩ := search_some_iff.1 hk
        have hlen := hpre.length_le
        rw [List.length_drop] at hle
        rw [List.length_drop, List.length_drop] at hlen
        dsimp only
        generalize hnext : (if src + k + d.length = src then src + 1 else src + k + d.length) = next
        have hprogress : src < next ∧ next ≤ ms.src.length + 1 := by
          rw [← hnext]
          split <;> omega
        have hround := gmatchAux_lazy hd hdepth hsrc hk
        rw [hnext] at hround
        rcases hround with ⟨herr, hmore⟩ | ⟨ms', hok, hsrc', hdepth', hcost⟩
        · obtain ⟨later, hlazy, -⟩ := @ih ms next hdepth (by omega) (by omega)
          rw [hlazy, herr]
          refine ⟨_, rfl, Or.inr ⟨rfl, fun hl _ => ?_⟩⟩
          have hpaid := round_paid hl hnext.symm
          omega
        · obtain ⟨later, hlazy, hlater⟩ := @ih ms' next hdepth' (by omega) (by rw [hsrc']; omega)
          rw [hsrc'] at hlazy hlater
          rw [hlazy, hok, ok_bind]
          dsimp only
          refine ⟨_, rfl, ?_⟩
          rcases hlater with hlater | ⟨herr, hmore⟩
          · rw [hlater]
            exact Or.inl rfl
          · rw [herr]
            refine Or.inr ⟨rfl, fun hl hsuffix => ?_⟩
            have hless := hmore hl hsuffix
            have hpaid := round_paid hl hnext.symm
            omega

/-- What `string.split` collects is what `gmatch` captures, and for a delimiter of at most five
    characters the pattern is never too complex, whatever the string. -/
theorem split_gmatch (patterns : Patterns) (str : Bytes) {d : Bytes} (hd : NoMagic d) :
    ∃ captures,
      stringGmatch patterns ((str ++ d).length + 2) (str ++ d) (lazyCapture ++ d) = .ok captures ∧
        (gmatch (str ++ d) (lazyCapture ++ d) = .ok (captures.map fun field => [.string field]) ∨
          cheapLength < d.length ∧
            gmatch (str ++ d) (lazyCapture ++ d) = .error .tooComplex) := by
  have hfuel : (prepstate (str ++ d)).src.length + 1 < (str ++ d).length + 2 + 0 :=
    Nat.lt_succ_self _
  obtain ⟨captures, hlazy, hloop⟩ := gmatchLoop_lazy hd (prepstate_matchdepth (str ++ d))
    (Nat.succ_pos _) hfuel
  refine ⟨captures, (stringGmatch_lazy patterns hd _ _).trans hlazy, ?_⟩
  rcases hloop with hok | ⟨herr, hmore⟩
  · exact Or.inl hok
  · refine Or.inr ⟨Nat.lt_of_not_le fun hl => ?_, herr⟩
    -- there are four repetitions for each character, and a hundred thousand more
    have hless : aReps * (str ++ d).length + bReps < 4 * ((str ++ d).length + 1 - 0) + 105 :=
      hmore hl (List.suffix_append str d)
    unfold aReps bReps at hless
    omega

theorem split_gmatch_comma :
    ∃ captures,
      stringGmatch ⟨fun _ _ _ => .ok none, fun _ _ => .ok []⟩
          ((ascii "a,b" ++ ascii ",").length + 2)
          (ascii "a,b" ++ ascii ",") (lazyCapture ++ ascii ",") = .ok captures ∧
        (gmatch (ascii "a,b" ++ ascii ",") (lazyCapture ++ ascii ",") =
            .ok (captures.map fun field => [.string field]) ∨
          cheapLength < (ascii ",").length ∧
            gmatch (ascii "a,b" ++ ascii ",") (lazyCapture ++ ascii ",") = .error .tooComplex) :=
  split_gmatch _ (ascii "a,b") (by decide +kernel)

end GameServer.LuaPattern
