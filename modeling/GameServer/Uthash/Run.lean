/-
  A program that uses the macros: any number of hashes whose elements share one memory, and any
  sequence of additions, deletions, sorts and clears.

  The elements and their order are all that a hash is to its user (`Contents`). `Represents` ties
  the memory to them: the heads, the links, the buckets and the tables, each hash with a table
  of its own and no table without a hash. What an operation asks of its caller is `Allowed`: an
  element is added that is in no hash, and deleted from the one it is in. The rest is what
  `malloc` promises.
-/
import GameServer.Uthash.Add
import GameServer.Uthash.Delete
import GameServer.Uthash.Find
import GameServer.Uthash.Sort

namespace GameServer.Uthash

variable {ι α τ : Type} [DecidableEq ι] [DecidableEq α] [DecidableEq τ]

/-! ## Programs -/

structure Hashes (ι α τ : Type) where
  store : Store α τ
  head : ι → Option α

/-- The elements of the hashes in app order, and their keys. -/
structure Contents (ι α : Type) where
  order : ι → List α
  key : α → List UInt8

inductive Op (ι α τ : Type)
  | add (i : ι) (x : α) (key : List UInt8) (mem : Malloc τ)
  | delete (i : ι) (x : α)
  | clear (i : ι)
  | sort (i : ι) (cmp : α → α → Int)

/-- The macros assign the head they are given. -/
def Hashes.assign (h : Hashes ι α τ) (i : ι) (r : Option α × Store α τ) : Hashes ι α τ :=
  ⟨r.2, Function.update h.head i r.1⟩

def Op.run (fcn : List UInt8 → UInt32) (rounds : Nat) (h : Hashes ι α τ) :
    Op ι α τ → Except Halt (Hashes ι α τ)
  | add i x key mem =>
    (hashAddKeyptr fcn mem rounds (h.head i) key x h.store).map (h.assign i)
  | delete i x => (hashDelete (h.head i) x h.store).map (h.assign i)
  | clear i => (hashClear (h.head i) h.store).map (h.assign i)
  | sort i cmp => (hashSrt cmp rounds (h.head i) h.store).map (h.assign i)

def Op.apply (c : Contents ι α) : Op ι α τ → Contents ι α
  | add i x key _ =>
    ⟨Function.update c.order i (c.order i ++ [x]), Function.update c.key x key⟩
  | delete i x => { c with order := Function.update c.order i ((c.order i).erase x) }
  | clear i => { c with order := Function.update c.order i [] }
  | sort i cmp =>
    { c with order := Function.update c.order i (BottomUp.sort (le cmp) (c.order i)) }

/-- What the caller and `malloc` promise. -/
def Op.Allowed (h : Hashes ι α τ) (c : Contents ι α) : Op ι α τ → Prop
  | add _ x _ mem =>
    (∀ j, x ∉ c.order j) ∧ Bounded mem ∧ ∀ t, mem.table = some t → h.store.tables t = none
  | delete i x => x ∈ c.order i
  | clear _ => True
  | sort _ _ => True

/-- `malloc` refuses what the operation asks for. -/
def Op.Starved (h : Hashes ι α τ) : Op ι α τ → Prop
  | add i _ _ mem => Refused mem h.store ((h.head i).bind h.store.hh.tbl)
  | _ => False

/-- The promises hold at every step. -/
def AllowedRun (fcn : List UInt8 → UInt32) (rounds : Nat) :
    Hashes ι α τ → Contents ι α → List (Op ι α τ) → Prop
  | _, _, [] => True
  | h, c, op :: ops =>
    op.Allowed h c ∧ ∀ h', op.run fcn rounds h = .ok h' → AllowedRun fcn rounds h' (op.apply c) ops

structure Represents (fcn : List UInt8 → UInt32) (h : Hashes ι α τ) (c : Contents ι α)
    (tp : ι → Option τ) : Prop where
  head : ∀ i, h.head i = (c.order i).head?
  holds : ∀ i, Holds fcn h.store (tp i) (c.order i)
  key : h.store.hh.key = c.key
  apart : ∀ i j, i ≠ j → ∀ a ∈ c.order i, a ∉ c.order j
  own : ∀ i j t, tp i = some t → tp j = some t → i = j
  freed : ∀ t, h.store.tables t ≠ none → ∃ i, tp i = some t

/-- No hash has an element, and no table is allocated. -/
def Hashes.start (hh : Handles α τ) : Hashes ι α τ := ⟨⟨hh, fun _ => none⟩, fun _ => none⟩

def Contents.start (ι : Type) (hh : Handles α τ) : Contents ι α := ⟨fun _ => [], hh.key⟩

variable {fcn : List UInt8 → UInt32} {rounds : Nat} {h h' : Hashes ι α τ} {c : Contents ι α}
  {tp : ι → Option τ} {i : ι} {s' : Store α τ} {L l' : List α} {t : τ} {tp' : Option τ}
  {key' : α → List UInt8}

omit [DecidableEq ι] [DecidableEq α] [DecidableEq τ] in
theorem represents_start (hh : Handles α τ) :
    Represents fcn (Hashes.start hh : Hashes ι α τ) (Contents.start ι hh) fun _ => none :=
  ⟨fun _ => rfl, fun _ => rfl, rfl, fun _ _ _ _ ha => (List.not_mem_nil ha).elim,
    fun _ _ t ht => (Option.some_ne_none t ht.symm).elim, fun _ ht => (ht rfl).elim⟩

omit [DecidableEq ι] [DecidableEq α] [DecidableEq τ] in
/-- A hash has neither elements nor a table, or both. -/
theorem Represents.cases (hR : Represents fcn h c tp) (i : ι) :
    (tp i = none ∧ c.order i = []) ∨
      ∃ t T, tp i = some t ∧ c.order i ≠ [] ∧ Live fcn h.store t T (c.order i) := by
  have hholds := hR.holds i
  cases htp : tp i with
  | none =>
    rw [htp] at hholds
    exact Or.inl ⟨rfl, hholds⟩
  | some t =>
    rw [htp] at hholds
    obtain ⟨hne, T, hlive⟩ := hholds
    exact Or.inr ⟨t, T, rfl, hne, hlive⟩

/-! ## One step -/

omit [DecidableEq α] in
/-- An operation on one hash, which touches its elements and its table only. -/
theorem Represents.replace (hR : Represents fcn h c tp) (hframe : Frame h.store s' L t)
    (hL : ∀ j ≠ i, ∀ a ∈ c.order j, a ∉ L) (ht : ∀ j ≠ i, tp j ≠ some t)
    (hold : tp i = some t ∨ tp i = none) (hholds : Holds fcn s' tp' l')
    (hl' : ∀ j ≠ i, ∀ a ∈ c.order j, a ∉ l') (hkey : s'.hh.key = key')
    (hnew : tp' = some t ∨ tp' = none ∧ s'.tables t = none) :
    Represents fcn (h.assign i (l'.head?, s')) ⟨Function.update c.order i l', key'⟩
      (Function.update tp i tp') := by
  refine ⟨fun j => ?_, fun j => ?_, hkey, fun j k hjk a ha => ?_, fun j k t' hj hk => ?_,
    fun t' ht' => ?_⟩
  · show Function.update h.head i _ j = (Function.update c.order i l' j).head?
    by_cases hji : j = i
    · subst hji
      rw [Function.update_self, Function.update_self]
    · rw [Function.update_of_ne hji, Function.update_of_ne hji, hR.head j]
  · show Holds fcn s' _ (Function.update c.order i l' j)
    by_cases hji : j = i
    · subst hji
      rwa [Function.update_self, Function.update_self]
    · rw [Function.update_of_ne hji, Function.update_of_ne hji]
      exact (hR.holds j).frame hframe (hL j hji) (ht j hji)
  · show a ∉ Function.update c.order i l' k
    change a ∈ Function.update c.order i l' j at ha
    by_cases hji : j = i
    · subst hji
      rw [Function.update_self] at ha
      rw [Function.update_of_ne hjk.symm]
      exact fun hak => hl' k hjk.symm a hak ha
    · rw [Function.update_of_ne hji] at ha
      by_cases hki : k = i
      · subst hki
        rw [Function.update_self]
        exact hl' j hji a ha
      · rw [Function.update_of_ne hki]
        exact hR.apart j k hjk a ha
  · -- a table of the hash is `t`, one of another hash is not
    have hone : ∀ j, Function.update tp i tp' j = some t' →
        j = i ∧ t' = t ∨ j ≠ i ∧ t' ≠ t ∧ tp j = some t' := by
      intro j hj
      by_cases hji : j = i
      · subst hji
        rw [Function.update_self] at hj
        rcases hnew with hnew | ⟨hnew, -⟩
        · exact Or.inl ⟨rfl, Option.some.inj (hj.symm.trans hnew)⟩
        · exact (Option.some_ne_none t' (hj.symm.trans hnew)).elim
      · rw [Function.update_of_ne hji] at hj
        exact Or.inr ⟨hji, fun heq => ht j hji (heq ▸ hj), hj⟩
    rcases hone j hj with ⟨rfl, hjt⟩ | ⟨-, hjt, hj'⟩
    · rcases hone k hk with ⟨rfl, -⟩ | ⟨-, hkt, -⟩
      · rfl
      · exact absurd hjt hkt
    · rcases hone k hk with ⟨-, hkt⟩ | ⟨-, -, hk'⟩
      · exact absurd hkt hjt
      · exact hR.own j k t' hj' hk'
  · change s'.tables t' ≠ none at ht'
    by_cases htt : t' = t
    · subst htt
      rcases hnew with hnew | ⟨-, hnone⟩
      · exact ⟨i, by rw [Function.update_self, hnew]⟩
      · exact absurd hnone ht'
    · rw [hframe.tables t' htt] at ht'
      obtain ⟨j, hj⟩ := hR.freed t' ht'
      refine ⟨j, ?_⟩
      rw [Function.update_of_ne, hj]
      rintro rfl
      rcases hold with hold | hold
      · exact htt (Option.some.inj (hj.symm.trans hold))
      · exact Option.some_ne_none t' (hj.symm.trans hold)

omit [DecidableEq ι] [DecidableEq α] [DecidableEq τ] in
/-- The table of a hash is no other hash's. -/
theorem Represents.other (hR : Represents fcn h c tp) (hi : tp i = some t) :
    ∀ j ≠ i, tp j ≠ some t := fun j hj hjt => hj (hR.own j i t hjt hi)

omit [DecidableEq α] [DecidableEq τ] in
/-- Nothing is there to do for a hash without elements. -/
theorem Represents.same (hR : Represents fcn h c tp) (hnil : c.order i = []) :
    Represents fcn (h.assign i (none, h.store)) { c with order := Function.update c.order i [] }
      tp := by
  have hhead : Function.update h.head i none = h.head := by
    rw [Function.update_eq_self_iff, hR.head i, hnil, List.head?_nil]
  have horder : Function.update c.order i [] = c.order := Function.update_eq_self_iff.2 hnil.symm
  rw [Hashes.assign, hhead, horder]
  exact hR

omit [DecidableEq ι] [DecidableEq α] [DecidableEq τ] in
/-- The table of a hash is the one its head points to. -/
theorem Represents.table (hR : Represents fcn h c tp) (i : ι) :
    (h.head i).bind h.store.hh.tbl = tp i := by
  rw [hR.head i]
  rcases hR.cases i with ⟨htp, hnil⟩ | ⟨t, T, htp, hne, hlive⟩
  · rw [htp, hnil, List.head?_nil]
    rfl
  · rw [htp, List.head?_eq_some_head hne]
    exact hlive.tbl _ (List.head_mem hne)

theorem add_represents (hR : Represents fcn h c tp) {x : α} {key : List UInt8} {mem : Malloc τ}
    (hop : (Op.add i x key mem).Allowed h c) (hsize : (c.order i).length + 1 < 2 ^ 32)
    (hrounds : (c.order i).length + 1 ≤ rounds) :
    ((Op.add i x key mem).Starved h ∧ (Op.add i x key mem).run fcn rounds h = .error .exit) ∨
      ∃ h' tp', (Op.add i x key mem).run fcn rounds h = .ok h' ∧
        Represents fcn h' ((Op.add i x key mem : Op ι α τ).apply c) tp' := by
  obtain ⟨hx, hmem, hfresh⟩ := hop
  rcases hashAddKeyptr_spec (hR.holds i) (hx i) hsize hmem hfresh hrounds with
    ⟨hrefused, hexit⟩ | ⟨s', t, hok, hholds, hframe, hkey, htp⟩
  · left
    refine ⟨?_, ?_⟩
    · rw [Op.Starved, hR.table i]
      exact hrefused
    · rw [Op.run, hR.head i, hexit]
      rfl
  · right
    have hother : ∀ j ≠ i, ∀ a ∈ c.order j, a ∉ c.order i ++ [x] := by
      intro j hj a ha hmem
      rcases List.mem_append.1 hmem with hmem | hmem
      · exact hR.apart j i hj a ha hmem
      · exact hx j (List.mem_singleton.1 hmem ▸ ha)
    have ht : ∀ j ≠ i, tp j ≠ some t := by
      rcases htp with htp | ⟨-, hnone⟩
      · exact hR.other htp
      · -- the new table was not allocated, and those of the other hashes are
        intro j _ hj
        rcases hR.cases j with ⟨htp, -⟩ | ⟨t', T, htp, -, hlive⟩
        · exact Option.some_ne_none t (hj.symm.trans htp)
        · obtain rfl : t = t' := Option.some.inj (hj.symm.trans htp)
          exact Option.some_ne_none T (hlive.table.symm.trans hnone)
    refine ⟨_, _, ?_, hR.replace hframe hother ht (htp.imp id And.left) hholds hother
      (hkey.trans (by rw [hR.key])) (Or.inl rfl)⟩
    rw [Op.run, hR.head i, hok]
    rfl

theorem delete_represents (hR : Represents fcn h c tp) {x : α} (hx : x ∈ c.order i)
    (hsize : (c.order i).length < 2 ^ 32) :
    ∃ h' tp', (Op.delete i x : Op ι α τ).run fcn rounds h = .ok h' ∧
      Represents fcn h' ((Op.delete i x : Op ι α τ).apply c) tp' := by
  rcases hR.cases i with ⟨-, hnil⟩ | ⟨t, T, htp, -, hlive⟩
  · rw [hnil] at hx
    exact (List.not_mem_nil hx).elim
  · obtain ⟨s', tp', hok, hholds', hframe, hkey, htp'⟩ := hashDelete_spec hlive hx hsize
    refine ⟨_, _, ?_, hR.replace hframe (fun j hj => hR.apart j i hj) (hR.other htp)
      (Or.inl htp) hholds' (fun j hj a ha hmem => hR.apart j i hj a ha (List.mem_of_mem_erase hmem))
      (hkey.trans hR.key) htp'⟩
    rw [Op.run, hR.head i, hok]
    rfl

theorem clear_represents (hR : Represents fcn h c tp) (i : ι) :
    ∃ h' tp', (Op.clear i : Op ι α τ).run fcn rounds h = .ok h' ∧
      Represents fcn h' ((Op.clear i : Op ι α τ).apply c) tp' := by
  rcases hR.cases i with ⟨-, hnil⟩ | ⟨t, T, htp, -, -⟩
  · refine ⟨_, _, ?_, hR.same hnil⟩
    rw [Op.run, hR.head i, hnil]
    rfl
  · obtain ⟨s', hok, hhh, htables⟩ := hashClear_spec (hR.holds i)
    rw [htp] at htables
    have hframe : Frame h.store s' [] t := by
      refine ⟨fun a _ => ?_, fun t' ht' => ?_⟩
      · rw [hhh]
        exact ⟨rfl, rfl, rfl, rfl, rfl, rfl, rfl⟩
      · exact (htables t').trans (if_neg fun heq => ht' (Option.some.inj heq).symm)
    have hnil : Holds fcn s' none [] := rfl
    have hempty : ∀ j ≠ i, ∀ a ∈ c.order j, a ∉ ([] : List α) :=
      fun _ _ _ _ => List.not_mem_nil
    refine ⟨_, _, ?_, hR.replace hframe hempty (hR.other htp) (Or.inl htp) hnil hempty
      (hhh ▸ hR.key) (Or.inr ⟨rfl, (htables t).trans (if_pos rfl)⟩)⟩
    rw [Op.run, hR.head i, hok]
    rfl

theorem sort_represents (hR : Represents fcn h c tp) (i : ι) (cmp : α → α → Int)
    (hsize : (c.order i).length < 2 ^ 32) (hrounds : (c.order i).length ≤ rounds) :
    ∃ h' tp', (Op.sort i cmp : Op ι α τ).run fcn rounds h = .ok h' ∧
      Represents fcn h' ((Op.sort i cmp : Op ι α τ).apply c) tp' := by
  rcases hR.cases i with ⟨-, hnil⟩ | ⟨t, T, htp, hne, hlive⟩
  · refine ⟨h.assign i (none, h.store), tp, ?_, ?_⟩
    · rw [Op.run, hR.head i, hnil]
      rfl
    · have hsame := hR.same hnil
      rwa [Op.apply, hnil]
  · have hperm := BottomUp.sort_perm (le cmp) (c.order i)
    obtain ⟨s', T', hok, hlive', hframe, hkey⟩ := hashSrt_spec cmp hlive hne hsize hrounds
    have hne' : BottomUp.sort (le cmp) (c.order i) ≠ [] := fun hnil =>
      hne (hnil ▸ hperm).symm.eq_nil
    have hholds' : Holds fcn s' (some t) (BottomUp.sort (le cmp) (c.order i)) :=
      ⟨hne', T', hlive'⟩
    refine ⟨_, _, ?_, hR.replace hframe (fun j hj => hR.apart j i hj) (hR.other htp)
      (Or.inl htp) hholds'
      (fun j hj a ha hmem => hR.apart j i hj a ha (hperm.mem_iff.1 hmem)) (hkey.trans hR.key)
      (Or.inl rfl)⟩
    rw [Op.run, hR.head i, hok]
    rfl

/-- There are numbers and rounds for `n` more operations. -/
structure Fits (rounds : Nat) (c : Contents ι α) (n : Nat) : Prop where
  size : ∀ i, (c.order i).length + n < 2 ^ 32
  rounds : ∀ i, (c.order i).length + n ≤ rounds

/-- Every operation ends the process because `malloc` refuses what it asks for, or does to the
    memory what it says of the contents. -/
theorem step_represents (hR : Represents fcn h c tp) (op : Op ι α τ) (hop : op.Allowed h c)
    (hfits : Fits rounds c 1) :
    (op.Starved h ∧ op.run fcn rounds h = .error .exit) ∨
      ∃ h' tp', op.run fcn rounds h = .ok h' ∧ Represents fcn h' (op.apply c) tp' := by
  cases op with
  | add i x key mem => exact add_represents hR hop (hfits.size i) (hfits.rounds i)
  | delete i x => exact Or.inr (delete_represents hR hop (Nat.lt_of_succ_lt (hfits.size i)))
  | clear i => exact Or.inr (clear_represents hR i)
  | sort i cmp =>
    exact Or.inr (sort_represents hR i cmp (Nat.lt_of_succ_lt (hfits.size i))
      (Nat.le_of_succ_le (hfits.rounds i)))

omit [DecidableEq τ] in
/-- One operation makes a hash longer by one element at most. -/
theorem apply_length (c : Contents ι α) (op : Op ι α τ) (j : ι) :
    ((op.apply c).order j).length ≤ (c.order j).length + 1 := by
  have hupdate : ∀ i (l : List α), l.length ≤ (c.order i).length + 1 →
      (Function.update c.order i l j).length ≤ (c.order j).length + 1 := by
    intro i l hl
    by_cases hji : j = i
    · subst hji
      rwa [Function.update_self]
    · rw [Function.update_of_ne hji]
      exact Nat.le_succ _
  cases op with
  | add i x key mem => exact hupdate i _ (Nat.le_of_eq List.length_append)
  | delete i x => exact hupdate i _ (Nat.le_succ_of_le (List.length_erase_le))
  | clear i => exact hupdate i _ (Nat.zero_le _)
  | sort i cmp =>
    exact hupdate i _ ((BottomUp.sort_perm (le cmp) (c.order i)).length_eq ▸ Nat.le_succ _)

/-! ## Runs -/

/-- The contents after a run. -/
def contents (c : Contents ι α) (ops : List (Op ι α τ)) : Contents ι α := ops.foldl Op.apply c

omit [DecidableEq τ] in
theorem contents_length (c : Contents ι α) (ops : List (Op ι α τ)) (i : ι) :
    ((contents c ops).order i).length ≤ (c.order i).length + ops.length := by
  induction ops generalizing c with
  | nil => exact Nat.le_refl _
  | cons op ops ih =>
    have hlength := apply_length c op i
    have hrest := ih (op.apply c)
    rw [List.length_cons]
    exact hrest.trans (by omega)

variable {m n : Nat} {ops : List (Op ι α τ)}

omit [DecidableEq ι] [DecidableEq α] [DecidableEq τ] in
theorem fits_start (hh : Handles α τ) (hsize : n < 2 ^ 32) (hrounds : n ≤ rounds) :
    Fits rounds (Contents.start ι hh) n :=
  ⟨fun _ => (Nat.zero_add n).trans_lt hsize, fun _ => (Nat.zero_add n).trans_le hrounds⟩

omit [DecidableEq ι] [DecidableEq α] in
theorem Fits.mono (h : Fits rounds c n) (hle : m ≤ n) : Fits rounds c m :=
  ⟨fun i => (Nat.add_le_add_left hle _).trans_lt (h.size i),
    fun i => (Nat.add_le_add_left hle _).trans (h.rounds i)⟩

omit [DecidableEq τ] in
theorem Fits.contents (h : Fits rounds c (ops.length + n)) : Fits rounds (contents c ops) n := by
  have hlength : ∀ i, ((Uthash.contents c ops).order i).length + n ≤
      (c.order i).length + (ops.length + n) := by
    intro i
    rw [← Nat.add_assoc]
    exact Nat.add_le_add_right (contents_length c ops i) n
  exact ⟨fun i => (hlength i).trans_lt (h.size i), fun i => (hlength i).trans (h.rounds i)⟩

theorem represents_run (hR : Represents fcn h c tp) (hops : AllowedRun fcn rounds h c ops)
    (hfits : Fits rounds c ops.length) :
    (∃ h' tp', ops.foldlM (Op.run fcn rounds) h = .ok h' ∧
        Represents fcn h' (contents c ops) tp') ∨
      (ops.foldlM (Op.run fcn rounds) h = .error .exit ∧
        ∃ pre op post h', ops = pre ++ op :: post ∧
          pre.foldlM (Op.run fcn rounds) h = .ok h' ∧ op.Starved h') := by
  induction ops generalizing h c tp with
  | nil => exact Or.inl ⟨h, tp, rfl, hR⟩
  | cons op ops ih =>
    rw [List.length_cons, Nat.add_comm] at hfits
    have hrest : Fits rounds (contents c [op]) ops.length := Fits.contents hfits
    rcases step_represents hR op hops.1 (hfits.mono (Nat.le_add_right 1 _)) with
      ⟨hstarved, hexit⟩ | ⟨h', tp', hok, hR'⟩
    · refine Or.inr ⟨?_, [], op, ops, h, rfl, rfl, hstarved⟩
      rw [List.foldlM_cons, hexit]
      rfl
    · rcases ih hR' (hops.2 h' hok) hrest with
        ⟨h'', tp'', hrun, hR''⟩ | ⟨hrun, pre, op', post, h'', hsplit, hpre, hstarved⟩
      · refine Or.inl ⟨h'', tp'', ?_, hR''⟩
        rw [List.foldlM_cons, hok]
        exact hrun
      · refine Or.inr ⟨?_, op :: pre, op', post, h'', ?_, ?_, hstarved⟩
        · rw [List.foldlM_cons, hok]
          exact hrun
        · rw [hsplit, List.cons_append]
        · rw [List.foldlM_cons, hok]
          exact hpre

end GameServer.Uthash
