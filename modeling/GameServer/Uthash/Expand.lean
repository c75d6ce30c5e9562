/-
  `HASH_EXPAND_BUCKETS` moves every handle to the bucket it has among twice as many, whatever
  the order in which it meets them, and leaves the app order alone.

  `Moved hh₀ ideal n st done`: of the handles that started out linked as in `hh₀`, those in
  `done` hang in the `n` new buckets of `st`, and the others are still linked as they were.
-/
import GameServer.Uthash.Load

namespace GameServer.Uthash

open DoublyLinked ListUpdate

variable {α τ : Type} {hh hh₀ : Handles α τ} {n ideal k : Nat}
  {st : Expansion α τ} {done c : List α} {x : α} {T : Table α}

/-! ## The new ideal length of a chain -/

/-- `⌈n / b⌉`, in shifts and masks. -/
theorem idealChain_le_iff (hk : k ≤ 30) (hlog : T.log2NumBuckets = k) (hnum : T.numBuckets = 2 ^ k)
    (hitems : T.numItems < 2 ^ 32) {q : Nat} :
    idealChain T ≤ q ↔ T.numItems ≤ q * 2 ^ (k + 1) := by
  have hbig : 2 ^ (k + 1) < 2 ^ 32 := Nat.pow_lt_pow_right (by omega) (by omega)
  have hlow : 2 ≤ 2 ^ (k + 1) := Nat.le_self_pow (by omega) 2
  have hpow : 2 ^ k * 2 = 2 ^ (k + 1) := (Nat.pow_succ 2 k).symm
  have hdm := Nat.div_add_mod T.numItems (2 ^ (k + 1))
  have hmod := Nat.mod_lt T.numItems (Nat.two_pow_pos (k + 1))
  have hhalf : T.numItems / 2 ^ (k + 1) ≤ T.numItems / 2 := Nat.div_le_div_left hlow (by omega)
  unfold idealChain
  rw [hnum, hlog, hpow, u32_eq hbig, u32_pred (Nat.two_pow_pos (k + 1)) hbig,
    Nat.and_two_pow_sub_one_eq_mod, Nat.shiftRight_eq_div_pow]
  by_cases h0 : T.numItems % 2 ^ (k + 1) = 0
  · rw [if_neg (not_not_intro h0), Nat.add_zero, u32_eq (by omega)]
    rw [h0, Nat.add_zero] at hdm
    constructor
    · intro h
      calc T.numItems = T.numItems / 2 ^ (k + 1) * 2 ^ (k + 1) := by rw [Nat.mul_comm, hdm]
        _ ≤ q * 2 ^ (k + 1) := Nat.mul_le_mul_right _ h
    · exact fun h => Nat.div_le_of_le_mul (by rwa [Nat.mul_comm])
  · rw [if_pos h0, u32_eq (by omega), Nat.add_one_le_iff, Nat.div_lt_iff_lt_mul (by omega)]
    refine ⟨Nat.le_of_lt, fun h => Nat.lt_of_le_of_ne h fun heq => h0 ?_⟩
    rw [heq, Nat.mul_mod_left]

/-! ## One handle, one chain, all chains -/

structure Moved (hh₀ : Handles α τ) (ideal n : Nat) (st : Expansion α τ) (done : List α) :
    Prop where
  filled : ∃ ds, Filled st.hh n st.newBuckets ds ∧ ds.flatten.Perm done
  length : st.newBuckets.length = n
  graded : Graded ideal st.newBuckets
  links : Relinked hh₀ st.hh done

theorem Moved.start (hh₀ : Handles α τ) (ideal n : Nat) :
    Moved hh₀ ideal n ⟨hh₀, List.replicate n ⟨none, 0, 0⟩, 0⟩ [] := by
  refine ⟨⟨_, Filled.empty hh₀ n n, ?_⟩, List.length_replicate, fun b hb => ?_,
    Relinked.refl hh₀ []⟩
  · rw [List.flatten_replicate_nil]
  · obtain rfl := List.eq_of_mem_replicate hb
    rfl

/-- The counter of a bucket is below the number of all handles. -/
theorem Filled.count_le {bs : List (Bucket α)} {cs : List (List α)} {i : Nat} {b : Bucket α}
    (h : Filled hh n bs cs) (hb : bs[i]? = some b) : b.count ≤ cs.flatten.length := by
  obtain ⟨c, hc⟩ := h.exists_chain hb
  obtain ⟨rest, hperm, -⟩ := flatten_split hc
  rw [(h.ok i b c hb hc).count, hperm.length_eq, List.length_append]
  exact Nat.le_add_right _ _

variable [DecidableEq α]

/-- One round of the inner loop. -/
theorem expandStep_moved (hk : k ≤ 30) (hideal : 0 < ideal)
    (h : Moved hh₀ ideal (2 ^ (k + 1)) st done) (hx : x ∉ done) (hlen : done.length + 1 < 2 ^ 32) :
    ∃ st', expandStep ideal (2 ^ k) st x = .ok st' ∧
      Moved hh₀ ideal (2 ^ (k + 1)) st' (done ++ [x]) := by
  obtain ⟨ds, hfill, hperm⟩ := h.filled
  have hbig : 2 ^ (k + 1) < 2 ^ 32 := Nat.pow_lt_pow_right (by omega) (by omega)
  have hdouble : u32 (2 ^ k * 2) = 2 ^ (k + 1) := u32_eq hbig
  have hi : hashToBkt (st.hh.hashv x) (2 ^ (k + 1)) < st.newBuckets.length := by
    rw [h.length]
    exact hashToBkt_lt _ (by omega)
  have hb := List.getElem?_eq_getElem hi
  generalize st.newBuckets[hashToBkt (st.hh.hashv x) (2 ^ (k + 1))] = b at hb
  have hgr := h.graded b (List.mem_of_getElem? hb)
  have hcount : u32 (b.count + 1) = b.count + 1 := by
    have := hfill.count_le hb
    rw [hperm.length_eq] at this
    exact u32_eq (by omega)
  -- what both branches write, with the multiplier they leave
  have key : ∀ m nonideal, (m = if b.count + 1 ≤ ideal then 0 else (b.count + 1) / ideal) →
      Moved hh₀ ideal (2 ^ (k + 1)) ⟨st.hh.linkHh b.hhHead x, st.newBuckets.set
        (hashToBkt (st.hh.hashv x) (2 ^ (k + 1))) ⟨some x, b.count + 1, m⟩, nonideal⟩
        (done ++ [x]) := by
    intro m nonideal hm
    obtain ⟨c, hc⟩ := hfill.exists_chain hb
    obtain ⟨hfill', hperm'⟩ :=
      hfill.push hb hc (fun hmem => hx (hperm.mem_iff.1 hmem)) rfl m
    have hdone : (x :: ds.flatten).Perm (done ++ [x]) :=
      (hperm.cons x).trans (List.perm_append_singleton x done).symm
    refine ⟨⟨_, hfill', hperm'.trans hdone⟩, by rw [List.length_set, h.length],
      forall_set h.graded _ hm, (h.links.mono fun a => List.mem_append_left [x]).trans
        (Relinked.linkHh st.hh (List.mem_append_right done List.mem_cons_self) fun a ha => ?_)⟩
    rw [(hfill.ok _ b c hb hc).head] at ha
    exact List.mem_append_left [x]
      (hperm.mem_iff.1 (mem_flatten_of_getElem? hc (List.mem_of_head? ha)))
  unfold expandStep
  rw [hdouble]
  dsimp only
  rw [hb]
  dsimp only
  rw [hcount]
  by_cases hgt : b.count + 1 > ideal
  · rw [if_pos hgt, if_neg (by omega)]
    exact ⟨_, rfl, key _ _ (by rw [if_neg (by omega)])⟩
  · rw [if_neg hgt]
    refine ⟨_, rfl, key _ _ ?_⟩
    rw [hgr, if_pos (by omega), if_pos (by omega)]

/-- The inner loop, over a chain that is still linked as it was. -/
theorem expandChain_moved (hk : k ≤ 30) (hideal : 0 < ideal) {before : Option α}
    (hc : Chain hh₀.hhNext hh₀.hhPrev before c) {rounds : Nat} (hrounds : c.length ≤ rounds)
    (h : Moved hh₀ ideal (2 ^ (k + 1)) st done) (hnd : (done ++ c).Nodup)
    (hlen : (done ++ c).length < 2 ^ 32) :
    ∃ st', expandChain ideal (2 ^ k) rounds c.head? st = .ok st' ∧
      Moved hh₀ ideal (2 ^ (k + 1)) st' (done ++ c) := by
  induction c generalizing before rounds st done with
  | nil =>
    refine ⟨st, ?_, by rwa [List.append_nil]⟩
    cases rounds <;> rfl
  | cons x c ih =>
    obtain ⟨rounds, rfl⟩ : ∃ r, rounds = r + 1 :=
      Nat.exists_eq_succ_of_ne_zero (by rw [List.length_cons] at hrounds; omega)
    have hx : x ∉ done := fun hmem =>
      (List.nodup_append.1 hnd).2.2 x hmem x List.mem_cons_self rfl
    have hsplit : done ++ x :: c = done ++ [x] ++ c := by
      rw [List.append_assoc, List.singleton_append]
    rw [List.length_append, List.length_cons] at hlen
    obtain ⟨st₁, hstep, h₁⟩ := expandStep_moved hk hideal h hx (by omega)
    obtain ⟨st₂, hrest, h₂⟩ := ih hc.2.2 (Nat.le_of_succ_le_succ hrounds) h₁ (hsplit ▸ hnd) (by
      rw [List.length_append, List.length_append, List.length_singleton]
      omega)
    refine ⟨st₂, ?_, hsplit ▸ h₂⟩
    show (expandStep ideal (2 ^ k) st x >>= fun st' =>
      expandChain ideal (2 ^ k) rounds (st.hh.hhNext x) st') = _
    rw [hstep, h.links.next x hx, hc.2.1]
    exact hrest

/-- All buckets, one after the other. -/
theorem expandAll_moved (hk : k ≤ 30) (hideal : 0 < ideal) {cs : List (List α)}
    (hfill : Filled hh₀ (2 ^ k) T.buckets cs) (hlen : cs.flatten.length < 2 ^ 32) {rounds : Nat}
    (hrounds : cs.flatten.length ≤ rounds) {m : Nat} (hm : m ≤ T.buckets.length) :
    ∃ st, (List.range m).foldlM (fun st bktI => do
          let b ← T.bucket bktI
          expandChain ideal (2 ^ k) rounds b.hhHead st)
        ⟨hh₀, List.replicate (2 ^ (k + 1)) ⟨none, 0, 0⟩, 0⟩ = Except.ok st ∧
      Moved hh₀ ideal (2 ^ (k + 1)) st (cs.take m).flatten := by
  induction m with
  | zero => exact ⟨_, rfl, Moved.start hh₀ ideal _⟩
  | succ m ih =>
    obtain ⟨st, hfold, hmoved⟩ := ih (by omega)
    have hb := List.getElem?_eq_getElem (l := T.buckets) (i := m) (by omega)
    obtain ⟨c, hc⟩ := hfill.exists_chain hb
    have hok := hfill.ok m _ c hb hc
    have htake := flatten_take_succ hc
    have hsub : ((cs.take m).flatten ++ c).Sublist cs.flatten :=
      htake ▸ flatten_take_sublist cs (m + 1)
    have hclen := hsub.length_le
    have hcrounds : c.length ≤ rounds := by
      rw [List.length_append] at hclen
      omega
    obtain ⟨st', hchain, hmoved'⟩ := expandChain_moved hk hideal hok.chain hcrounds hmoved
      (hfill.nodup.sublist hsub) (Nat.lt_of_le_of_lt hclen hlen)
    have hround : (T.bucket m >>= fun b => expandChain ideal (2 ^ k) rounds b.hhHead st) =
        .ok st' := by
      unfold Table.bucket
      rw [hb, ← hchain, ← hok.head]
      rfl
    refine ⟨st', ?_, htake ▸ hmoved'⟩
    rw [List.range_succ, List.foldlM_append, hfold]
    show ((T.bucket m >>= fun b => expandChain ideal (2 ^ k) rounds b.hhHead st) >>= pure) = _
    rw [hround]
    rfl

/-! ## The macros -/

/-- The buckets of a table hold the handles `l`. -/
structure Bucketed (hh : Handles α τ) (T : Table α) (l : List α) : Prop where
  log2 : T.log2NumBuckets ≤ 30
  num : T.numBuckets = 2 ^ T.log2NumBuckets
  length : T.buckets.length = T.numBuckets
  filled : ∃ cs, Filled hh T.numBuckets T.buckets cs ∧ cs.flatten.Perm l
  loaded : T.noexpand = false → Loaded T.buckets

variable [DecidableEq τ] {mem : Malloc τ} {rounds : Nat} {t : τ} {s : Store α τ} {l : List α}
  {cs : List (List α)}

/-- A doubling ends the process for want of memory, or leaves twice the buckets with the same
    handles. -/
theorem hashExpandBuckets_spec (hlog : T.log2NumBuckets ≤ 30)
    (hnum : T.numBuckets = 2 ^ T.log2NumBuckets) (hlength : T.buckets.length = T.numBuckets)
    (hfill : Filled s.hh T.numBuckets T.buckets cs) (hperm : cs.flatten.Perm l)
    (hitems : T.numItems = l.length) (hne : l ≠ []) (hlt : l.length < 2 ^ 32)
    (hload : l.length ≤ 20 * T.numBuckets) (hmem : ∀ n, 2 ^ 31 ≤ n → mem.buckets n = false)
    (hrounds : l.length ≤ rounds) :
    (mem.buckets (2 * T.numBuckets) = false ∧
        hashExpandBuckets mem rounds t T s = .error .exit) ∨
      ∃ T' hh', hashExpandBuckets mem rounds t T s =
          .ok ⟨hh', Function.update s.tables t (some T')⟩ ∧
        Relinked s.hh hh' l ∧ T'.tail = T.tail ∧ T'.numItems = T.numItems ∧
        Bucketed hh' T' l := by
  generalize hk : T.log2NumBuckets = k at hlog hnum
  have hbig : 2 ^ (k + 1) < 2 ^ 32 := Nat.pow_lt_pow_right (by omega) (by omega)
  have htwo : 2 * T.numBuckets = 2 ^ (k + 1) := by rw [hnum, Nat.pow_succ, Nat.mul_comm]
  have hmul : u32 (T.numBuckets * 2) = 2 ^ (k + 1) := by
    rw [Nat.mul_comm, htwo]
    exact u32_eq hbig
  have hpos : 0 < l.length := List.length_pos_iff.2 hne
  have hceil := @idealChain_le_iff α k T hlog hk hnum (hitems ▸ hlt)
  have hideal : 0 < idealChain T := by
    rcases Nat.eq_zero_or_pos (idealChain T) with h0 | h0
    · have := hceil.1 (Nat.le_of_eq h0)
      omega
    · exact h0
  unfold hashExpandBuckets
  rw [htwo, u32_eq hbig]
  by_cases hno : mem.buckets (2 ^ (k + 1)) = false
  · exact Or.inl ⟨hno, by rw [if_pos hno]⟩
  · right
    have hk' : k + 1 ≤ 30 := by
      by_contra hgt
      exact hno (hmem _ (Nat.pow_le_pow_right (by omega) (by omega)))
    rw [if_neg hno, hk, if_neg (by omega), hnum]
    obtain ⟨st, hst, hmoved⟩ := @expandAll_moved α τ s.hh (idealChain T) k T _ hlog hideal cs
      (hnum ▸ hfill) (hperm.length_eq ▸ hlt) rounds (hperm.length_eq ▸ hrounds) _
      (Nat.le_of_eq (hlength.trans hnum).symm)
    obtain ⟨ds, hds, hdperm⟩ := hmoved.filled
    have hall : (cs.take (2 ^ k)).flatten = cs.flatten := by
      rw [List.take_of_length_le]
      rw [hfill.length, hlength, hnum]
    rw [hall] at hdperm hmoved
    dsimp only
    rw [hst]
    have hlen' : st.newBuckets.length = 2 ^ (k + 1) := hmoved.length
    have hitems' : items st.newBuckets = l.length :=
      hds.items_eq.trans (hdperm.trans hperm).length_eq
    refine ⟨_, st.hh, rfl, hmoved.links.mono fun a ha => hperm.mem_iff.1 ha, rfl, rfl,
      ⟨?_, ?_, ?_, ⟨ds, ?_, hdperm.trans hperm⟩, fun _ => ?_⟩⟩
    · show u32 (k + 1) ≤ 30
      rwa [u32_eq (by omega)]
    · show u32 (2 ^ k * 2) = 2 ^ u32 (k + 1)
      rw [← hnum, hmul, u32_eq (by omega)]
    · show st.newBuckets.length = u32 (2 ^ k * 2)
      rw [← hnum, hmul, hlen']
    · show Filled st.hh (u32 (2 ^ k * 2)) st.newBuckets ds
      rwa [← hnum, hmul]
    · -- the multipliers handed out cover the new chains
      refine hmoved.graded.loaded hideal (hceil.2 ?_) ?_
      · rw [hitems, Nat.pow_succ, ← hnum]
        omega
      · rw [hitems', hlen', ← hitems]
        exact hceil.1 (Nat.le_refl _)

end GameServer.Uthash
