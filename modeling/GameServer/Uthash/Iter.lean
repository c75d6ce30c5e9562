/-
  `HASH_ITER`, which allows its body to delete the element it is at: the element behind it is
  read before the body runs.

  The body is a list of operations for each element. It may do what it likes to other hashes,
  and add to them an element it has deleted; to the hash itself it may do no more than delete
  the element it is at (`Op.Spares`). The loop is then the run of the bodies of all elements
  that the hash had at first, in app order.
-/
import GameServer.Uthash.Run

namespace GameServer.Uthash

variable {ι α τ : Type} [DecidableEq ι] [DecidableEq α] [DecidableEq τ]

/-- `HASH_ITER` at `el`, where `tmp` is the element to go on with. -/
def hashIter (fcn : List UInt8 → UInt32) (rounds : Nat) (body : α → List (Op ι α τ)) :
    Nat → Option α → Option α → Hashes ι α τ → Except Halt (Hashes ι α τ)
  | _, none, _, h => .ok h
  | 0, some _, _, _ => .error .rounds
  | k + 1, some el, tmp, h => do
    let h ← (body el).foldlM (Op.run fcn rounds) h
    hashIter fcn rounds body k tmp (tmp.bind h.store.hh.next) h

/-- `HASH_ITER` over hash `i`. -/
def Hashes.iter (fcn : List UInt8 → UInt32) (rounds : Nat) (body : α → List (Op ι α τ)) (i : ι)
    (h : Hashes ι α τ) : Except Halt (Hashes ι α τ) :=
  hashIter fcn rounds body rounds (h.head i) ((h.head i).bind h.store.hh.next) h

/-- The operation does no more to hash `i` than delete the element `el`. -/
def Op.Spares (i : ι) (el : α) : Op ι α τ → Prop
  | add j _ _ _ => j ≠ i
  | delete j x => j = i → x = el
  | clear j => j ≠ i
  | sort j _ => j ≠ i

variable {fcn : List UInt8 → UInt32} {rounds k : Nat} {h : Hashes ι α τ} {c : Contents ι α}
  {tp : ι → Option τ} {i : ι} {el : α} {op : Op ι α τ} {ops ops' : List (Op ι α τ)}
  {body : α → List (Op ι α τ)} {kept rest : List α}

theorem AllowedRun.append (hops : AllowedRun fcn rounds h c (ops ++ ops')) :
    AllowedRun fcn rounds h c ops ∧ ∀ h', ops.foldlM (Op.run fcn rounds) h = .ok h' →
      AllowedRun fcn rounds h' (contents c ops) ops' := by
  induction ops generalizing h c with
  | nil =>
    refine ⟨trivial, fun h' hrun => ?_⟩
    obtain rfl : h = h' := Except.ok.inj hrun
    exact hops
  | cons op ops ih =>
    refine ⟨⟨hops.1, fun h₁ hok => (ih (hops.2 h₁ hok)).1⟩, fun h' hrun => ?_⟩
    rw [List.foldlM_cons] at hrun
    cases hok : op.run fcn rounds h with
    | error e =>
      rw [hok] at hrun
      cases hrun
    | ok h₁ =>
      rw [hok] at hrun
      exact (ih (hops.2 h₁ hok)).2 h' hrun

omit [DecidableEq τ] in
theorem Op.Spares.order (hop : op.Spares i el) (c : Contents ι α) :
    (op.apply c).order i = c.order i ∨ (op.apply c).order i = (c.order i).erase el := by
  cases op with
  | add j x key mem => exact Or.inl (Function.update_of_ne hop.symm _ _)
  | delete j x =>
    by_cases hij : i = j
    · subst hij
      obtain rfl : x = el := hop rfl
      exact Or.inr (Function.update_self i _ _)
    · exact Or.inl (Function.update_of_ne hij _ _)
  | clear j => exact Or.inl (Function.update_of_ne hop.symm _ _)
  | sort j cmp => exact Or.inl (Function.update_of_ne hop.symm _ _)

omit [DecidableEq τ] in
/-- The body has deleted its element or not. -/
theorem contents_spares (hops : ∀ op ∈ ops, op.Spares i el) (hnd : (c.order i).Nodup) :
    (contents c ops).order i = c.order i ∨
      (contents c ops).order i = (c.order i).erase el := by
  induction ops generalizing c with
  | nil => exact Or.inl rfl
  | cons op ops ih =>
    have hrest := fun op' hop' => hops op' (List.mem_cons_of_mem op hop')
    show (contents (op.apply c) ops).order i = _ ∨ (contents (op.apply c) ops).order i = _
    rcases (hops op List.mem_cons_self).order c with hsame | herase
    · rw [← hsame] at hnd ⊢
      exact ih hrest hnd
    · right
      have herase' := List.erase_of_not_mem (hnd.not_mem_erase (a := el))
      rcases ih hrest (herase ▸ hnd.erase el) with hsame | htwice
      · rw [hsame, herase]
      · rw [htwice, herase, herase']

omit [DecidableEq ι] [DecidableEq α] [DecidableEq τ] in
theorem Represents.nodup (hR : Represents fcn h c tp) (i : ι) : (c.order i).Nodup :=
  (hR.holds i).nodup

omit [DecidableEq ι] [DecidableEq α] [DecidableEq τ] in
theorem Represents.next (hR : Represents fcn h c tp) (hsplit : c.order i = kept ++ el :: rest) :
    h.store.hh.next el = rest.head? := by
  rcases hR.cases i with ⟨-, hnil⟩ | ⟨t, T, -, -, hlive⟩
  · rw [hsplit] at hnil
    exact absurd hnil (List.append_ne_nil_of_right_ne_nil kept (List.cons_ne_nil el rest))
  · have horder := hlive.order
    rw [hsplit] at horder
    exact horder.links.1

/-- The induction is on the elements that are left: the body leaves the hash with those it has
    passed and kept, and with these. -/
theorem hashIter_eq (hR : Represents fcn h c tp) (hsplit : c.order i = kept ++ rest)
    (hspares : ∀ el ∈ rest, ∀ op ∈ body el, op.Spares i el)
    (hops : AllowedRun fcn rounds h c (rest.flatMap body))
    (hfits : Fits rounds c (rest.flatMap body).length) (hk : rest.length ≤ k) :
    hashIter fcn rounds body k rest.head? (rest.head?.bind h.store.hh.next) h =
      (rest.flatMap body).foldlM (Op.run fcn rounds) h := by
  induction rest generalizing h c tp kept k with
  | nil => cases k <;> rfl
  | cons el rest ih =>
    obtain ⟨k, rfl⟩ : ∃ k', k = k' + 1 :=
      Nat.exists_eq_succ_of_ne_zero (by rw [List.length_cons] at hk; omega)
    rw [List.flatMap_cons] at hops hfits
    rw [List.length_append] at hfits
    rw [List.flatMap_cons, List.foldlM_append]
    obtain ⟨hbody, hrest⟩ := hops.append
    show ((body el).foldlM (Op.run fcn rounds) h >>= fun h' => hashIter fcn rounds body k
      (h.store.hh.next el) ((h.store.hh.next el).bind h'.store.hh.next) h') = _
    rw [hR.next hsplit]
    rcases represents_run hR hbody (hfits.mono (Nat.le_add_right _ _)) with
      ⟨h', tp', hok, hR'⟩ | ⟨hexit, -⟩
    · rw [hok]
      have hnd := hR.nodup i
      obtain ⟨kept', hsplit'⟩ :
          ∃ kept', (contents c (body el)).order i = kept' ++ rest := by
        rcases contents_spares (hspares el List.mem_cons_self) hnd with hsame | herase
        · exact ⟨kept ++ [el], by rw [hsame, hsplit, List.append_assoc, List.singleton_append]⟩
        · rw [hsplit] at hnd
          have hel : el ∉ kept := fun hmem =>
            (List.nodup_append.1 hnd).2.2 el hmem el List.mem_cons_self rfl
          exact ⟨kept, by
            rw [herase, hsplit, List.erase_append_right _ hel, List.erase_cons_head]⟩
      exact ih hR' hsplit' (fun a ha => hspares a (List.mem_cons_of_mem el ha)) (hrest h' hok)
        hfits.contents (Nat.le_of_succ_le_succ hk)
    · rw [hexit]
      rfl

end GameServer.Uthash
