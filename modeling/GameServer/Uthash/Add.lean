/-
  `HASH_ADD_KEYPTR`: the element becomes the last of the app order and the first of its bucket,
  after which the table may double.
-/
import GameServer.Uthash.Live

namespace GameServer.Uthash

open DoublyLinked ListUpdate

variable {α τ : Type} [DecidableEq α] [DecidableEq τ] {s s₁ : Store α τ} {t : τ} {T : Table α}
  {l : List α} {x head : α} {key : List UInt8} {fcn : List UInt8 → UInt32} {mem : Malloc τ}
  {rounds : Nat}

/-- There is no room for an array of `2 ^ 31` buckets, which takes 32 GiB. -/
def Bounded (mem : Malloc τ) : Prop := ∀ n, 2 ^ 31 ≤ n → mem.buckets n = false

/-- A bucket reaches its threshold with one more handle, and there is no room for twice the
    buckets. -/
def Denied (mem : Malloc τ) (T : Table α) : Prop :=
  mem.buckets (2 * T.numBuckets) = false ∧
    ∃ b ∈ T.buckets, b.count + 1 ≥ u32 (u32 (b.expandMult + 1) * 10)

/-- `HASH_ADD_TO_BKT`, in the order of the source: the counters first, the doubling last. -/
theorem hashAddToBkt_spec (h : Bucketed s.hh T l) (hitems : T.numItems = l.length + 1)
    (hx : x ∉ l) (hlt : l.length + 1 < 2 ^ 32) (htbl : s.hh.tbl x = some t) (hmem : Bounded mem)
    (hrounds : l.length + 1 ≤ rounds) :
    (Denied mem T ∧
        hashAddToBkt mem rounds t T (home s.hh T.numBuckets x) x s = .error .exit) ∨
      ∃ T' hh', hashAddToBkt mem rounds t T (home s.hh T.numBuckets x) x s =
          .ok ⟨hh', Function.update s.tables t (some T')⟩ ∧
        Relinked s.hh hh' (x :: l) ∧ T'.tail = T.tail ∧ T'.numItems = T.numItems ∧
        Bucketed hh' T' (x :: l) := by
  obtain ⟨cs, hfill, hperm⟩ := h.filled
  have hi : home s.hh T.numBuckets x < T.buckets.length := h.bkt_lt _
  have hb := List.getElem?_eq_getElem hi
  generalize T.buckets[home s.hh T.numBuckets x] = b at hb
  obtain ⟨c, hc⟩ := hfill.exists_chain hb
  have hxcs : x ∉ cs.flatten := fun hmem => hx (hperm.mem_iff.1 hmem)
  have hle : b.count ≤ l.length := hperm.length_eq ▸ hfill.count_le hb
  have hcount : u32 (b.count + 1) = b.count + 1 := u32_eq (by omega)
  obtain ⟨hfill', hperm'⟩ := hfill.push hb hc hxcs rfl b.expandMult
  have hperm'' := hperm'.trans (hperm.cons x)
  have hlinks : Relinked s.hh (s.hh.linkHh b.hhHead x) (x :: l) := by
    refine Relinked.linkHh s.hh List.mem_cons_self fun a ha => ?_
    rw [(hfill.ok _ b c hb hc).head] at ha
    exact List.mem_cons_of_mem x
      (hperm.mem_iff.1 (mem_flatten_of_getElem? hc (List.mem_of_head? ha)))
  -- the handle is in its bucket; whether the table doubles is decided by the counter
  generalize hT₂ : T.setBucket (home s.hh T.numBuckets x) ⟨some x, b.count + 1, b.expandMult⟩ = T₂
  have htbl₂ : Store.tbl ⟨s.hh.linkHh b.hhHead x, Function.update s.tables t (some T₂)⟩ (some x) =
      .ok (t, T₂) := tbl_eq htbl (Function.update_self t _ _)
  have hrun : hashAddToBkt mem rounds t T (home s.hh T.numBuckets x) x s =
      if b.count + 1 ≥ u32 (u32 (b.expandMult + 1) * 10) ∧ T₂.noexpand = false then
        hashExpandBuckets mem rounds t T₂
          ⟨s.hh.linkHh b.hhHead x, Function.update s.tables t (some T₂)⟩
      else .ok ⟨s.hh.linkHh b.hhHead x, Function.update s.tables t (some T₂)⟩ := by
    simp only [hashAddToBkt, bucket_eq hb, bind, Except.bind, hcount, Store.setTable, hT₂, htbl₂]
  rw [hrun]
  subst hT₂
  have hlength : (T.buckets.set (home s.hh T.numBuckets x)
      ⟨some x, b.count + 1, b.expandMult⟩).length = T.numBuckets := by
    rw [List.length_set, h.length]
  split
  · next hexpand =>
    have hload : (x :: l).length ≤ 20 * T.numBuckets := by
      have hitems' := (h.loaded hexpand.2).items_lt (List.ne_nil_of_length_pos (by omega))
      rw [hfill.items_eq, hperm.length_eq, h.length] at hitems'
      exact hitems'
    rcases @hashExpandBuckets_spec α τ (T.setBucket _ _) _ _ mem rounds t ⟨_, _⟩ (x :: l) _
      h.log2 h.num hlength hfill' hperm'' hitems (List.cons_ne_nil x l) hlt hload hmem hrounds
      with ⟨hno, hexit⟩ | ⟨T', hh', hok, hlinks', htail, hnum, hB⟩
    · exact Or.inl ⟨⟨hno, b, List.mem_of_getElem? hb, hexpand.1⟩, hexit⟩
    · refine Or.inr ⟨T', hh', hok.trans ?_, hlinks.trans hlinks', htail, hnum, hB⟩
      rw [Function.update_idem]
  · next hstay =>
    refine Or.inr ⟨_, _, rfl, hlinks, rfl, rfl, h.log2, h.num, hlength, ⟨_, hfill', hperm''⟩,
      fun hno => (h.loaded hno).set hb ?_⟩
    -- the threshold was not reached, also if its computation wrapped
    have hlow : ¬ b.count + 1 ≥ u32 (u32 (b.expandMult + 1) * 10) := fun hge => hstay ⟨hge, hno⟩
    unfold u32 at hlow
    omega

/-- The second part of an addition: the element is last in app order already. -/
theorem addHashed_spec (fcn : List UInt8 → UInt32) (hT : s.tables t = some T)
    (hhead : s.hh.tbl head = some t) (hB : Bucketed s.hh T l) (hitems : T.numItems = l.length)
    (hx : x ∉ l) (hlt : l.length + 1 < 2 ^ 32) (htbl : ∀ a ∈ l, s.hh.tbl a = some t)
    (hhashv : ∀ a ∈ l, s.hh.hashv a = fcn (s.hh.key a)) (hkey : s.hh.key x = key)
    (horder : Chain s.hh.next s.hh.prev none (l ++ [x])) (htail : T.tail = some x)
    (hmem : Bounded mem) (hrounds : l.length + 1 ≤ rounds) :
    (Denied mem T ∧ addHashed fcn mem rounds head key x s = .error .exit) ∨
      ∃ s' T', addHashed fcn mem rounds head key x s = .ok s' ∧
        Live fcn s' t T' (l ++ [x]) ∧ Frame s s' (l ++ [x]) t ∧ s'.hh.key = s.hh.key := by
  have hne : ∀ a ∈ l, a ≠ x := fun a ha => ne_of_mem_of_not_mem ha hx
  -- the memory when the element goes to its bucket
  generalize hs₁ : ({ s.setTable t (some T.addItem) with
    hh := s.hh.setHash x t (fcn key) } : Store α τ) = s₁
  have hhh₁ : s₁.hh = s.hh.setHash x t (fcn key) := hs₁ ▸ rfl
  have htables₁ : s₁.tables = Function.update s.tables t (some T.addItem) := hs₁ ▸ rfl
  have htbl₁ : s₁.hh.tbl x = some t := by
    rw [hhh₁]
    exact Function.update_self x _ _
  have hhashv₁ : s₁.hh.hashv x = fcn key := by
    rw [hhh₁]
    exact Function.update_self x _ _
  have hitems₁ : T.addItem.numItems = l.length + 1 := by
    rw [← hitems]
    exact u32_eq (by omega)
  have hB₁ : Bucketed s₁.hh T.addItem l := by
    have h : Bucketed s₁.hh T l := by
      rw [hhh₁]
      exact hB.congr (fun _ _ => rfl) (fun _ _ => rfl)
        fun a ha => Function.update_of_ne (hne a ha) _ _
    exact ⟨h.log2, h.num, h.length, h.filled, h.loaded⟩
  have hrun : addHashed fcn mem rounds head key x s =
      hashAddToBkt mem rounds t T.addItem (home s₁.hh T.addItem.numBuckets x) x s₁ := by
    unfold addHashed home
    rw [tbl_eq hhead hT, hhashv₁, ← hs₁]
    rfl
  rw [hrun]
  rcases hashAddToBkt_spec hB₁ hitems₁ hx hlt htbl₁ hmem hrounds with
    ⟨hno, hexit⟩ | ⟨T', hh', hok, hlinks, htail', hnum, hB'⟩
  · exact Or.inl ⟨hno, hexit⟩
  · right
    have hperm : (x :: l).Perm (l ++ [x]) := (List.perm_append_singleton x l).symm
    have hsetHash : ∀ a ∉ l ++ [x], SameAt s.hh s₁.hh a := by
      intro a ha
      have hax : a ≠ x := fun heq => ha (heq ▸ List.mem_append_right l List.mem_cons_self)
      rw [hhh₁]
      exact ⟨Function.update_of_ne hax _ _, rfl, rfl, rfl, rfl, rfl, Function.update_of_ne hax _ _⟩
    have htbl' : hh'.tbl = Function.update s.hh.tbl x (some t) := by
      rw [hlinks.fields, hhh₁]
      rfl
    have hhashv' : hh'.hashv = Function.update s.hh.hashv x (fcn key) := by
      rw [hlinks.hashv, hhh₁]
      rfl
    have hkey' : hh'.key = s.hh.key := by
      rw [hlinks.fields, hhh₁]
      rfl
    refine ⟨⟨hh', Function.update s₁.tables t (some T')⟩, T', hok,
      ⟨Function.update_self t _ _, fun a ha => ?_, fun a ha => ?_, ?_, ?_, ?_, hB'.perm hperm⟩,
      ⟨fun a ha => (hsetHash a ha).trans (hlinks.sameAt fun hmem => ha (hperm.mem_iff.1 hmem)),
        fun t' ht' => ?_⟩, hkey'⟩
    · show hh'.tbl a = some t
      rw [htbl', Function.update_apply]
      split
      · rfl
      · next hax =>
        exact htbl a ((List.mem_append.1 ha).resolve_right fun h => hax (List.mem_singleton.1 h))
    · show hh'.hashv a = fcn (hh'.key a)
      rw [hhashv', hkey', Function.update_apply]
      split
      · next hax => rw [hax, hkey]
      · next hax =>
        exact hhashv a ((List.mem_append.1 ha).resolve_right fun h => hax (List.mem_singleton.1 h))
    · show Chain hh'.next hh'.prev none (l ++ [x])
      rw [hlinks.fields, hhh₁]
      exact horder
    · rw [htail', List.getLast?_concat]
      exact htail
    · rw [hnum, hitems₁, List.length_append, List.length_singleton]
    · show Function.update s₁.tables t _ t' = s.tables t'
      rw [Function.update_of_ne ht', htables₁, Function.update_of_ne ht']

/-! ## The whole macro -/

/-- What `malloc` refuses of what an addition asks for. -/
def Refused (mem : Malloc τ) (s : Store α τ) : Option τ → Prop
  | none => mem.table = none ∨ mem.buckets 32 = false
  | some t => ∃ T, s.tables t = some T ∧ Denied mem T

/-- The element, on its way into the app order. -/
theorem linkLast_spec (mem : Malloc τ) (key : List UInt8) (h : Live fcn s t T l) (hne : l ≠ [])
    (hx : x ∉ l) :
    ∃ s₁, linkLast mem l.head? x { s with hh := s.hh.setKey x key } = .ok (l.head hne, s₁) ∧
      s₁.tables = Function.update s.tables t (some { T with tail := some x }) ∧
      Chain s₁.hh.next s₁.hh.prev none (l ++ [x]) ∧
      s₁.hh.key = Function.update s.hh.key x key ∧
      s₁.hh = { s.hh with next := s₁.hh.next, prev := s₁.hh.prev, key := s₁.hh.key } ∧
      Frame s s₁ (l ++ [x]) t := by
  obtain ⟨tail, htail⟩ : ∃ tail, l.getLast? = some tail := ⟨_, List.getLast?_eq_some_getLast hne⟩
  have hmem := List.mem_of_getLast? htail
  have hxt : x ≠ tail := (ne_of_mem_of_not_mem hmem hx).symm
  have htail' : T.tail = some tail := h.tail.trans htail
  have hoff : ∀ a ∉ l ++ [x], a ≠ x ∧ a ≠ tail := by
    intro a ha
    exact ⟨fun heq => ha (heq ▸ List.mem_append_right l List.mem_cons_self),
      fun heq => ha (heq ▸ List.mem_append_left [x] hmem)⟩
  refine ⟨⟨{ s.hh with
      next := Function.update (Function.update s.hh.next x none) tail (some x)
      prev := Function.update s.hh.prev x (some tail)
      key := Function.update s.hh.key x key },
    Function.update s.tables t (some { T with tail := some x })⟩, ?_, rfl, ?_, rfl, rfl,
    fun a ha => ?_, fun t' ht' => Function.update_of_ne ht' _ _⟩
  · have hhead : Store.tbl { s with hh := s.hh.setKey x key } (some (l.head hne)) = .ok (t, T) :=
      tbl_eq (h.tbl _ (List.head_mem hne)) h.table
    rw [List.head?_eq_some_head hne]
    simp only [linkLast, hhead, htail', bind, Except.bind]
    rfl
  · show Chain (Function.update (Function.update s.hh.next x none) tail (some x))
      (Function.update s.hh.prev x (some tail)) none (l ++ [x])
    refine h.order.snoc h.buckets.nodup ?_ ?_ (fun b hb => ?_) fun b hb => ?_
    · rw [Function.update_of_ne hxt, Function.update_self]
    · rw [Function.update_self, Option.or_none, htail]
    · rw [htail, Function.update_apply, Function.update_of_ne (ne_of_mem_of_not_mem hb hx)]
      by_cases hbt : b = tail
      · rw [if_pos hbt, if_pos (congrArg some hbt.symm)]
      · rw [if_neg hbt, if_neg fun heq => hbt (Option.some.inj heq).symm]
    · exact Function.update_of_ne (ne_of_mem_of_not_mem hb hx) _ _
  · obtain ⟨hax, hat⟩ := hoff a ha
    refine ⟨rfl, Function.update_of_ne hax _ _, ?_, rfl, rfl, Function.update_of_ne hax _ _, rfl⟩
    show Function.update _ _ _ a = _
    rw [Function.update_of_ne hat, Function.update_of_ne hax]

omit [DecidableEq α] [DecidableEq τ] in
theorem bucketed_newTable (hh : Handles α τ) (x : α) : Bucketed hh (newTable x) [] := by
  refine ⟨Nat.le_add_right 5 25, rfl, List.length_replicate,
    ⟨_, Filled.empty hh 32 32, ?_⟩, fun _ => Loaded.empty 32⟩
  rw [List.flatten_replicate_nil]

omit [DecidableEq α] [DecidableEq τ] in
/-- One element does not fill a bucket. -/
theorem not_denied_newTable (mem : Malloc τ) (x : α) : ¬ Denied mem (newTable x) := by
  rintro ⟨-, b, hb, hfull⟩
  obtain rfl := List.eq_of_mem_replicate hb
  have hthreshold : ¬ 0 + 1 ≥ u32 (u32 (0 + 1) * 10) := by decide
  exact hthreshold hfull

/-- The first element gets a table of its own. -/
theorem linkLast_first (s : Store α τ) (x : α) (key : List UInt8) (hno : mem.table = some t)
    (hroom : ¬ mem.buckets 32 = false) :
    ∃ s₁, linkLast mem none x { s with hh := s.hh.setKey x key } = .ok (x, s₁) ∧
      s₁.tables = Function.update s.tables t (some (newTable x)) ∧
      Chain s₁.hh.next s₁.hh.prev none [x] ∧
      s₁.hh.key = Function.update s.hh.key x key ∧ s₁.hh.tbl x = some t ∧ Frame s s₁ [x] t := by
  refine ⟨⟨{ s.hh with
      tbl := Function.update s.hh.tbl x (some t)
      next := Function.update s.hh.next x none
      prev := Function.update s.hh.prev x none
      key := Function.update s.hh.key x key }, Function.update s.tables t (some (newTable x))⟩,
    ?_, rfl, ⟨Function.update_self x _ _, Function.update_self x _ _, trivial⟩, rfl,
    Function.update_self x _ _, fun a ha => ?_, fun t' ht' => Function.update_of_ne ht' _ _⟩
  · simp only [linkLast, hashMakeTable, hno, if_neg hroom, bind, Except.bind]
    rfl
  · have hax : a ≠ x := fun heq => ha (List.mem_singleton.2 heq)
    exact ⟨Function.update_of_ne hax _ _, Function.update_of_ne hax _ _,
      Function.update_of_ne hax _ _, rfl, rfl, Function.update_of_ne hax _ _, rfl⟩

/-- An addition ends the process because `malloc` refuses what it asks for, or the element is
    the last one of the hash. -/
theorem hashAddKeyptr_spec {tp : Option τ} (h : Holds fcn s tp l) (hx : x ∉ l)
    (hlt : l.length + 1 < 2 ^ 32) (hmem : Bounded mem)
    (hfresh : ∀ t, mem.table = some t → s.tables t = none) (hrounds : l.length + 1 ≤ rounds) :
    (Refused mem s tp ∧ hashAddKeyptr fcn mem rounds l.head? key x s = .error .exit) ∨
      ∃ s' t', hashAddKeyptr fcn mem rounds l.head? key x s = .ok ((l ++ [x]).head?, s') ∧
        Holds fcn s' (some t') (l ++ [x]) ∧ Frame s s' (l ++ [x]) t' ∧
        s'.hh.key = Function.update s.hh.key x key ∧
        (tp = some t' ∨ tp = none ∧ s.tables t' = none) := by
  have hne' : l ++ [x] ≠ [] := List.append_ne_nil_of_right_ne_nil l (List.cons_ne_nil x [])
  cases tp with
  | none =>
    obtain rfl : l = [] := h
    cases hno : mem.table with
    | none =>
      refine Or.inl ⟨Or.inl hno, ?_⟩
      simp only [hashAddKeyptr, linkLast, hashMakeTable, hno, List.head?_nil, bind, Except.bind]
    | some t =>
      by_cases hroom : mem.buckets 32 = false
      · refine Or.inl ⟨Or.inr hroom, ?_⟩
        simp only [hashAddKeyptr, linkLast, hashMakeTable, hno, if_pos hroom, List.head?_nil, bind,
          Except.bind]
      · obtain ⟨s₁, hlink, htables, horder, hkey, htbl, hframe⟩ := linkLast_first s x key hno hroom
        have htable : s₁.tables t = some (newTable x) := htables ▸ Function.update_self t _ _
        have hkeyx : s₁.hh.key x = key := hkey ▸ Function.update_self x _ _
        rcases addHashed_spec fcn htable htbl (bucketed_newTable s₁.hh x) rfl hx hlt
            (fun a ha => (List.not_mem_nil ha).elim) (fun a ha => (List.not_mem_nil ha).elim) hkeyx
            horder rfl hmem hrounds with
          ⟨hno, -⟩ | ⟨s', T', hok, hlive, hframe', hkey'⟩
        · exact absurd hno (not_denied_newTable mem x)
        · refine Or.inr ⟨s', t, ?_, ⟨hne', T', hlive⟩, hframe.trans hframe', hkey'.trans hkey,
            Or.inr ⟨rfl, hfresh t hno⟩⟩
          simp only [hashAddKeyptr, List.head?_nil, hlink, hok, bind, Except.bind]
          rfl
  | some t =>
    obtain ⟨hne, T, hlive⟩ := h
    obtain ⟨s₁, hlink, htables, horder, hkey, hhh, hframe⟩ := linkLast_spec mem key hlive hne hx
    have htable : s₁.tables t = some { T with tail := some x } :=
      htables ▸ Function.update_self t _ _
    have hkeyx : s₁.hh.key x = key := hkey ▸ Function.update_self x _ _
    have htbl : s₁.hh.tbl = s.hh.tbl := by rw [hhh]
    have hhashv : ∀ a ∈ l, s₁.hh.hashv a = fcn (s₁.hh.key a) := by
      intro a ha
      rw [hkey, Function.update_of_ne (ne_of_mem_of_not_mem ha hx), hhh]
      exact hlive.hashv a ha
    have hB : Bucketed s₁.hh T l := by
      rw [hhh]
      exact hlive.buckets.congr (fun _ _ => rfl) (fun _ _ => rfl) fun _ _ => rfl
    rcases addHashed_spec fcn htable (htbl ▸ hlive.tbl _ (List.head_mem hne))
        ⟨hB.log2, hB.num, hB.length, hB.filled, hB.loaded⟩ hlive.items hx hlt (htbl ▸ hlive.tbl)
        hhashv hkeyx horder rfl hmem hrounds with
      ⟨hno, hexit⟩ | ⟨s', T', hok, hlive', hframe', hkey'⟩
    · refine Or.inl ⟨⟨T, hlive.table, hno⟩, ?_⟩
      simp only [hashAddKeyptr, hlink, hexit, bind, Except.bind]
    · refine Or.inr ⟨s', t, ?_, ⟨hne', T', hlive'⟩, hframe.trans hframe', hkey'.trans hkey,
        Or.inl rfl⟩
      simp only [hashAddKeyptr, hlink, hok, bind, Except.bind]
      rw [List.head?_append_of_ne_nil l hne, List.head?_eq_some_head hne]

end GameServer.Uthash
