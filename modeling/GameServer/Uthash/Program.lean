/-
  What a program that uses the hashes can rely on, after any run from the start: the memory is
  what the operations say, searches are exact, the integrity check passes, chains are bounded
  until the table gives up doubling, sorts are stable, and a loop over a hash may delete the
  element it is at.

  The build's hash function is any function of the key. The assumptions on a run are those of
  `AllowedRun`; a run of fewer than `2 ^ 32` operations does not wrap a counter. The loops get
  at least as many rounds as the run has operations, which is no limit: no loop ends for want of
  rounds.
-/
import GameServer.Uthash.Iter

namespace GameServer.Uthash

variable {ι α τ : Type} [DecidableEq ι] [DecidableEq α] [DecidableEq τ]
  {fcn : List UInt8 → UInt32} {rounds : Nat} {h : Hashes ι α τ} {hh : Handles α τ}
  {ops : List (Op ι α τ)}

/-- A run from the start that returns. -/
theorem represents_returned
    (hops : AllowedRun fcn rounds (Hashes.start hh) (Contents.start ι hh) ops)
    (hsize : ops.length < 2 ^ 32) (hrounds : ops.length ≤ rounds)
    (hrun : ops.foldlM (Op.run fcn rounds) (Hashes.start hh) = .ok h) :
    ∃ tp, Represents fcn h (contents (Contents.start ι hh) ops) tp ∧
      ∀ i, ((contents (Contents.start ι hh) ops).order i).length ≤ ops.length := by
  have hlen : ∀ i, ((contents (Contents.start ι hh) ops).order i).length ≤ ops.length :=
    fun i => (contents_length _ ops i).trans (Nat.le_of_eq (Nat.zero_add _))
  rcases represents_run (represents_start hh) hops (fits_start hh hsize hrounds) with
    ⟨h', tp, hok, hR⟩ | ⟨hexit, -⟩
  · rw [hrun] at hok
    cases hok
    exact ⟨tp, hR, hlen⟩
  · rw [hrun] at hexit
    cases hexit

/-! ## Two users in one of two hashes -/

/-- Memory before it is used. -/
def blank : Handles Nat Nat where
  tbl _ := none
  prev _ := none
  next _ := none
  hhPrev _ := none
  hhNext _ := none
  key _ := []
  hashv _ := 0

/-- `malloc` with room for less than `2 ^ 31` buckets. -/
def room (table : Option Nat) : Malloc Nat := ⟨table, fun n => decide (n < 2 ^ 31)⟩

theorem bounded_room (table : Option Nat) : Bounded (room table) := fun _ hn =>
  decide_eq_false (Nat.not_lt.2 hn)

def Op.Roomy : Op Bool Nat Nat → Prop
  | .add _ _ _ mem => mem = room mem.table
  | _ => True

/-- What `Allowed` asks of an operation that is roomy. -/
def Op.proper (h : Hashes Bool Nat Nat) (c : Contents Bool Nat) : Op Bool Nat Nat → Bool
  | .add _ x _ mem => decide (x ∉ c.order true) && decide (x ∉ c.order false) &&
      mem.table.all fun t => (h.store.tables t).isNone
  | .delete i x => decide (x ∈ c.order i)
  | _ => true

/-- The run itself shows that its operations are allowed. -/
def properRun (fcn : List UInt8 → UInt32) (rounds : Nat) :
    Hashes Bool Nat Nat → Contents Bool Nat → List (Op Bool Nat Nat) → Bool
  | _, _, [] => true
  | h, c, op :: ops => op.proper h c &&
      match op.run fcn rounds h with
      | .ok h' => properRun fcn rounds h' (op.apply c) ops
      | .error _ => true

theorem Op.allowed_of_proper {h : Hashes Bool Nat Nat} {c : Contents Bool Nat}
    {op : Op Bool Nat Nat} (hroomy : op.Roomy) (hproper : op.proper h c = true) :
    op.Allowed h c := by
  cases op with
  | add i x key mem =>
    rw [proper, Bool.and_eq_true, Bool.and_eq_true, decide_eq_true_eq, decide_eq_true_eq] at hproper
    obtain ⟨⟨htrue, hfalse⟩, htable⟩ := hproper
    refine ⟨fun j => ?_, ?_, fun t ht => ?_⟩
    · cases j
      · exact hfalse
      · exact htrue
    · have hmem : mem = room mem.table := hroomy
      rw [hmem]
      exact bounded_room _
    · rw [ht, Option.all_some, Option.isNone_iff_eq_none] at htable
      exact htable
  | delete i x =>
    rw [proper, decide_eq_true_eq] at hproper
    exact hproper
  | clear i => trivial
  | sort i cmp => trivial

theorem allowed_of_proper {fcn : List UInt8 → UInt32} {rounds : Nat} {h : Hashes Bool Nat Nat}
    {c : Contents Bool Nat} {ops : List (Op Bool Nat Nat)} (hroomy : ∀ op ∈ ops, op.Roomy)
    (hproper : properRun fcn rounds h c ops = true) : AllowedRun fcn rounds h c ops := by
  induction ops generalizing h c with
  | nil => trivial
  | cons op ops ih =>
    rw [properRun, Bool.and_eq_true] at hproper
    obtain ⟨hop, hrest⟩ := hproper
    refine ⟨op.allowed_of_proper (hroomy op List.mem_cons_self) hop, fun h' hrun => ?_⟩
    rw [hrun] at hrest
    exact ih (fun o ho => hroomy o (List.mem_cons_of_mem op ho)) hrest

/-- Two elements, added in the order of their keys and sorted the other way round. -/
def users : List (Op Bool Nat Nat) :=
  [.add true 1 [97] (room (some 0)), .add true 2 [98] (room none), .sort true fun a b => b - a]

theorem allowed_users :
    AllowedRun hashJen 3 (Hashes.start blank) (Contents.start Bool blank) users :=
  allowed_of_proper (by simp [users, Op.Roomy, room]) (by decide +kernel)

theorem returned_users : ∃ h, users.foldlM (Op.run hashJen 3) (Hashes.start blank) = .ok h :=
  ⟨_, rfl⟩

/-- A hash function with one value. -/
def sameBucket (_ : List UInt8) : UInt32 := 0

/-- Ten elements in one bucket, so the table doubles; one is deleted and another hash used
    and cleared. -/
def crowd : List (Op Bool Nat Nat) :=
  .add true 0 [0] (room (some 0)) ::
    ((List.range' 1 9).map fun n => .add true n [UInt8.ofNat n] (room none)) ++
    [.delete true 3, .add false 3 [3] (room (some 1)), .clear false]

theorem allowed_crowd :
    AllowedRun sameBucket 13 (Hashes.start blank) (Contents.start Bool blank) crowd := by
  refine allowed_of_proper (fun op hop => ?_) (by decide +kernel)
  unfold crowd at hop
  simp only [List.cons_append, List.mem_cons, List.mem_append, List.mem_map, List.not_mem_nil,
    or_false] at hop
  rcases hop with rfl | ⟨n, -, rfl⟩ | rfl | rfl | rfl
  · exact rfl
  · exact rfl
  · trivial
  · exact rfl
  · trivial

/-! ## The memory -/

/-- A run ends early only because `malloc` refuses what an addition asks for. Otherwise the
    memory holds the hashes that the operations describe. -/
theorem run_represents
    (hops : AllowedRun fcn rounds (Hashes.start hh) (Contents.start ι hh) ops)
    (hsize : ops.length < 2 ^ 32) (hrounds : ops.length ≤ rounds) :
    (∃ h tp, ops.foldlM (Op.run fcn rounds) (Hashes.start hh) = .ok h ∧
        Represents fcn h (contents (Contents.start ι hh) ops) tp) ∨
      (ops.foldlM (Op.run fcn rounds) (Hashes.start hh) = .error .exit ∧
        ∃ pre op post h, ops = pre ++ op :: post ∧
          pre.foldlM (Op.run fcn rounds) (Hashes.start hh) = .ok h ∧ op.Starved h) :=
  represents_run (represents_start hh) hops (fits_start hh hsize hrounds)

theorem crowd_represented :
    ∃ h tp, crowd.foldlM (Op.run sameBucket 13) (Hashes.start blank) = .ok h ∧
      Represents sameBucket h (contents (Contents.start Bool blank) crowd) tp ∧
        (contents (Contents.start Bool blank) crowd).order true = [0, 1, 2, 4, 5, 6, 7, 8, 9] ∧
          (contents (Contents.start Bool blank) crowd).order false = [] := by
  rcases run_represents allowed_crowd (by decide) (by decide) with
    ⟨h, tp, hrun, hR⟩ | ⟨hexit, -⟩
  · exact ⟨h, tp, hrun, hR, by decide +kernel, by decide +kernel⟩
  · have hreturns : (crowd.foldlM (Op.run sameBucket 13) (Hashes.start blank)).isOk = true := by
      decide +kernel
    rw [hexit] at hreturns
    cases hreturns

/-! ## Searches and the integrity check -/

/-- A search finds an element with the key if and only if the hash has one. -/
theorem find_exact
    (hops : AllowedRun fcn rounds (Hashes.start hh) (Contents.start ι hh) ops)
    (hsize : ops.length < 2 ^ 32) (hrounds : ops.length ≤ rounds)
    (hrun : ops.foldlM (Op.run fcn rounds) (Hashes.start hh) = .ok h) (i : ι) (key : List UInt8) :
    ∃ out, hashFind fcn rounds h.store (h.head i) key = .ok out ∧
      (∀ a, out = some a → a ∈ (contents (Contents.start ι hh) ops).order i ∧
        (contents (Contents.start ι hh) ops).key a = key) ∧
      (out = none → ∀ a ∈ (contents (Contents.start ι hh) ops).order i,
        (contents (Contents.start ι hh) ops).key a ≠ key) := by
  obtain ⟨tp, hR, hlen⟩ := represents_returned hops hsize hrounds hrun
  rw [hR.head i, ← hR.key]
  exact hashFind_spec (hR.holds i) key ((hlen i).trans hrounds)

theorem users_found : ∃ h, users.foldlM (Op.run hashJen 3) (Hashes.start blank) = .ok h ∧
    ∃ out, hashFind hashJen 3 h.store (h.head true) [98] = .ok out ∧
      (∀ a, out = some a → a ∈ (contents (Contents.start Bool blank) users).order true ∧
        (contents (Contents.start Bool blank) users).key a = [98]) ∧
      (out = none → ∀ a ∈ (contents (Contents.start Bool blank) users).order true,
        (contents (Contents.start Bool blank) users).key a ≠ [98]) := by
  obtain ⟨h, hrun⟩ := returned_users
  exact ⟨h, hrun, find_exact allowed_users (by decide) (by decide) hrun true [98]⟩

/-- The counter is exact, and the integrity check of a debug build never complains. -/
theorem integrity
    (hops : AllowedRun fcn rounds (Hashes.start hh) (Contents.start ι hh) ops)
    (hsize : ops.length < 2 ^ 32) (hrounds : ops.length ≤ rounds)
    (hrun : ops.foldlM (Op.run fcn rounds) (Hashes.start hh) = .ok h) (i : ι) :
    hashFsck rounds h.store (h.head i) = .ok () ∧
      hashCnt h.store (h.head i) =
        .ok ((contents (Contents.start ι hh) ops).order i).length := by
  obtain ⟨tp, hR, hlen⟩ := represents_returned hops hsize hrounds hrun
  rw [hR.head i]
  exact ⟨hashFsck_spec (hR.holds i) ((hlen i).trans_lt hsize) ((hlen i).trans hrounds),
    hashCnt_spec (hR.holds i)⟩

theorem users_integrity : ∃ h, users.foldlM (Op.run hashJen 3) (Hashes.start blank) = .ok h ∧
    hashFsck 3 h.store (h.head true) = .ok () ∧
      hashCnt h.store (h.head true) =
        .ok ((contents (Contents.start Bool blank) users).order true).length := by
  obtain ⟨h, hrun⟩ := returned_users
  exact ⟨h, hrun, integrity allowed_users (by decide) (by decide) hrun true⟩

/-! ## The length of the chains -/

/-- As long as a table may double, a search takes at most ten steps for each unit of the
    multiplier of its bucket, the multipliers are at most one for each bucket together, and
    the table has less than twenty elements for each bucket. -/
theorem chains_bounded
    (hops : AllowedRun fcn rounds (Hashes.start hh) (Contents.start ι hh) ops)
    (hsize : ops.length < 2 ^ 32) (hrounds : ops.length ≤ rounds)
    (hrun : ops.foldlM (Op.run fcn rounds) (Hashes.start hh) = .ok h) (i : ι) {t : τ} {T : Table α}
    (hT : h.store.tbl (h.head i) = .ok (t, T)) (hdoubles : T.noexpand = false) :
    T.numItems < 20 * T.numBuckets ∧
      (T.buckets.map Bucket.expandMult).sum ≤ T.numBuckets ∧
      ∀ key, ∃ b out, T.bucket (hashToBkt (fcn key) T.numBuckets) = .ok b ∧
        hashFind fcn (10 * (b.expandMult + 1)) h.store (h.head i) key = .ok out := by
  obtain ⟨tp, hR, hlen⟩ := represents_returned hops hsize hrounds hrun
  rw [hR.head i] at hT ⊢
  rcases hR.cases i with ⟨-, hnil⟩ | ⟨t', T', -, hne, hlive⟩
  · rw [hnil, List.head?_nil] at hT
    cases hT
  · have hread := tbl_eq (hlive.tbl _ (List.head_mem hne)) hlive.table
    rw [List.head?_eq_some_head hne, hread] at hT
    cases hT
    have hload := hlive.buckets.loaded hdoubles
    obtain ⟨cs, hfill, hperm⟩ := hlive.buckets.filled
    refine ⟨?_, ?_, fun key => ?_⟩
    · have hpos : 0 < T.buckets.length := by
        rw [hlive.buckets.length, hlive.buckets.num]
        exact Nat.two_pow_pos _
      have hlt := hload.items_lt (List.ne_nil_of_length_pos hpos)
      rwa [hfill.items_eq, hperm.length_eq, ← hlive.items, hlive.buckets.length] at hlt
    · rw [← hlive.buckets.length]
      exact hload.mult
    · obtain ⟨b, c, hb, hmem, hcount, -, -, -, hfind⟩ := hlive.find hne key
      exact ⟨b, _, hb, hfind _ (hcount ▸ hload.short b hmem)⟩

/-- The table has doubled, and the multiplier of the bucket is ten. -/
theorem crowd_bounded :
    ∃ h t T, crowd.foldlM (Op.run sameBucket 13) (Hashes.start blank) = .ok h ∧
      h.store.tbl (h.head true) = .ok (t, T) ∧ T.numBuckets = 64 ∧
        T.buckets.head?.map Bucket.expandMult = some 10 ∧ T.numItems < 20 * T.numBuckets ∧
          (T.buckets.map Bucket.expandMult).sum ≤ T.numBuckets ∧
            ∀ key, ∃ b out, T.bucket (hashToBkt (sameBucket key) T.numBuckets) = .ok b ∧
              hashFind sameBucket (10 * (b.expandMult + 1)) h.store (h.head true) key = .ok out := by
  have hchecks : (crowd.foldlM (Op.run sameBucket 13) (Hashes.start blank)).toOption.any (fun h =>
      (h.store.tbl (h.head true)).toOption.any fun v => !v.2.noexpand && v.2.numBuckets == 64 &&
        v.2.buckets.head?.map Bucket.expandMult == some 10) = true := by decide +kernel
  cases hrun : crowd.foldlM (Op.run sameBucket 13) (Hashes.start blank) with
  | error e =>
    rw [hrun] at hchecks
    cases hchecks
  | ok h =>
    rw [hrun] at hchecks
    cases htbl : h.store.tbl (h.head true) with
    | error e => simp [Except.toOption, htbl] at hchecks
    | ok v =>
      obtain ⟨t, T⟩ := v
      simp only [Except.toOption, Option.any_some, htbl, Bool.and_eq_true, Bool.not_eq_true',
        beq_iff_eq] at hchecks
      obtain ⟨⟨hdoubles, hnum⟩, hmult⟩ := hchecks
      exact ⟨h, t, T, rfl, htbl, hnum, hmult,
        chains_bounded allowed_crowd (by decide) (by decide) hrun true htbl hdoubles⟩

/-! ## Sorting -/

/-- A sort by a comparison that is total and transitive orders the elements, keeps every pair
    that may stay in its order, and links the result both ways. -/
theorem sort_orders
    (hops : AllowedRun fcn rounds (Hashes.start hh) (Contents.start ι hh) ops)
    (hsize : ops.length < 2 ^ 32) (hrounds : ops.length ≤ rounds)
    (hrun : ops.foldlM (Op.run fcn rounds) (Hashes.start hh) = .ok h) (i : ι)
    {cmp : α → α → Int} (htrans : ∀ a b c, cmp a b ≤ 0 → cmp b c ≤ 0 → cmp a c ≤ 0)
    (htotal : ∀ a b, cmp a b ≤ 0 ∨ cmp b a ≤ 0) :
    ∃ s' l, hashSrt cmp rounds (h.head i) h.store = .ok (l.head?, s') ∧
      DoublyLinked.Chain s'.hh.next s'.hh.prev none l ∧
      l.Perm ((contents (Contents.start ι hh) ops).order i) ∧
      l.Pairwise (fun a b => cmp a b ≤ 0) ∧
      ∀ a b, [a, b].Sublist ((contents (Contents.start ι hh) ops).order i) → cmp a b ≤ 0 →
        [a, b].Sublist l := by
  obtain ⟨tp, hR, hlen⟩ := represents_returned hops hsize hrounds hrun
  have hle : BottomUp.Preordered (le cmp) := by
    refine ⟨fun a b c hab hbc => ?_, fun a b => ?_⟩
    · exact decide_eq_true (htrans a b c (of_decide_eq_true hab) (of_decide_eq_true hbc))
    · rw [Bool.or_eq_true]
      exact (htotal a b).imp decide_eq_true decide_eq_true
  rw [hR.head i]
  rcases hR.cases i with ⟨-, hnil⟩ | ⟨t, T, -, hne, hlive⟩
  · rw [hnil]
    exact ⟨h.store, [], rfl, trivial, List.Perm.refl _, List.Pairwise.nil, fun _ _ hab _ => hab⟩
  · obtain ⟨s', T', hok, hlive', -, -⟩ :=
      hashSrt_spec cmp hlive hne ((hlen i).trans_lt hsize) ((hlen i).trans hrounds)
    refine ⟨s', _, hok, hlive'.order, BottomUp.sort_perm _ _, ?_, fun a b hpair hab =>
      BottomUp.sort_stable hle hpair (decide_eq_true hab)⟩
    exact (BottomUp.sort_sorted hle _).imp of_decide_eq_true

/-- A comparison of the users. -/
def ascending (a b : Nat) : Int := (a : Int) - b

theorem users_sorted : ∃ h, users.foldlM (Op.run hashJen 3) (Hashes.start blank) = .ok h ∧
    ∃ s' l, hashSrt ascending 3 (h.head true) h.store = .ok (l.head?, s') ∧
      DoublyLinked.Chain s'.hh.next s'.hh.prev none l ∧
      l.Perm ((contents (Contents.start Bool blank) users).order true) ∧
      l.Pairwise (fun a b => ascending a b ≤ 0) ∧
      ∀ a b, [a, b].Sublist ((contents (Contents.start Bool blank) users).order true) →
        ascending a b ≤ 0 → [a, b].Sublist l := by
  have htrans : ∀ a b c, ascending a b ≤ 0 → ascending b c ≤ 0 → ascending a c ≤ 0 := by
    unfold ascending
    omega
  have htotal : ∀ a b, ascending a b ≤ 0 ∨ ascending b a ≤ 0 := by
    unfold ascending
    omega
  obtain ⟨h, hrun⟩ := returned_users
  exact ⟨h, hrun, sort_orders allowed_users (by decide) (by decide) hrun true htrans htotal⟩

/-! ## Loops -/

/-- The operations of a run that ends in a loop over hash `i`. -/
def looped (c : Contents ι α) (ops : List (Op ι α τ)) (body : α → List (Op ι α τ)) (i : ι) :
    List (Op ι α τ) :=
  ops ++ ((contents c ops).order i).flatMap body

/-- A loop runs its body once for each element that the hash has at first, in app order, though
    the body deletes elements it is at or moves them to other hashes. -/
theorem iter_visits {body : α → List (Op ι α τ)} {i : ι}
    (hspares : ∀ el ∈ (contents (Contents.start ι hh) ops).order i, ∀ op ∈ body el,
      op.Spares i el)
    (hops : AllowedRun fcn rounds (Hashes.start hh) (Contents.start ι hh)
      (looped (Contents.start ι hh) ops body i))
    (hsize : (looped (Contents.start ι hh) ops body i).length < 2 ^ 32)
    (hrounds : (looped (Contents.start ι hh) ops body i).length ≤ rounds) :
    (ops.foldlM (Op.run fcn rounds) (Hashes.start hh) >>= Hashes.iter fcn rounds body i) =
      (looped (Contents.start ι hh) ops body i).foldlM (Op.run fcn rounds) (Hashes.start hh) := by
  obtain ⟨hfirst, hrest⟩ := hops.append
  have hfits := fits_start (ι := ι) hh hsize hrounds
  unfold looped at hsize hrounds hfits ⊢
  rw [List.length_append] at hsize hrounds hfits
  rw [List.foldlM_append]
  cases hrun : ops.foldlM (Op.run fcn rounds) (Hashes.start hh) with
  | error e => rfl
  | ok h =>
    obtain ⟨tp, hR, hlen⟩ := represents_returned hfirst (by omega) (by omega) hrun
    show Hashes.iter fcn rounds body i h = _
    unfold Hashes.iter
    rw [hR.head i]
    exact hashIter_eq hR (List.nil_append _).symm hspares (hrest h hrun) hfits.contents
      ((hlen i).trans (Nat.le_of_add_right_le hrounds))

/-- Two elements of one hash and one of the other, with tables of their own. -/
def parties : List (Op Bool Nat Nat) :=
  [.add true 1 [97] (room (some 0)), .add false 3 [99] (room (some 1)),
    .add true 2 [98] (room none)]

/-- An element goes to the other hash. -/
def move (el : Nat) : List (Op Bool Nat Nat) :=
  [.delete true el, .add false el [97] (room none)]

theorem allowed_parties : AllowedRun hashJen 7 (Hashes.start blank) (Contents.start Bool blank)
    (looped (Contents.start Bool blank) parties move true) := by
  refine allowed_of_proper (fun op hop => ?_) (by decide +kernel)
  rcases List.mem_append.1 hop with hop | hop
  · simp only [parties, List.mem_cons, List.not_mem_nil, or_false] at hop
    rcases hop with rfl | rfl | rfl <;> exact rfl
  · obtain ⟨el, -, hop⟩ := List.mem_flatMap.1 hop
    simp only [move, List.mem_cons, List.not_mem_nil, or_false] at hop
    rcases hop with rfl | rfl
    · trivial
    · exact rfl

/-- Both elements have moved, and the first hash has given up its table. -/
theorem parties_moved :
    (parties.foldlM (Op.run hashJen 7) (Hashes.start blank) >>= Hashes.iter hashJen 7 move true) =
      (looped (Contents.start Bool blank) parties move true).foldlM (Op.run hashJen 7)
        (Hashes.start blank) ∧
      ∃ h, (looped (Contents.start Bool blank) parties move true).foldlM (Op.run hashJen 7)
        (Hashes.start blank) = .ok h ∧ h.head true = none ∧ h.store.tables 0 = none := by
  have hspares : ∀ el ∈ (contents (Contents.start Bool blank) parties).order true,
      ∀ op ∈ move el, op.Spares true el := by
    intro el _ op hop
    rcases List.mem_cons.1 hop with rfl | hop
    · exact fun _ => rfl
    · obtain rfl := List.mem_singleton.1 hop
      exact Bool.false_ne_true
  exact ⟨iter_visits hspares allowed_parties (by decide) (by decide), _, rfl, rfl, rfl⟩

end GameServer.Uthash
