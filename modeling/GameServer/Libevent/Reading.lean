/-
  Between a buffer and a socket. `evbuffer_read` makes room at the end of the buffer
  (`_evbuffer_expand_fast`), lets readv store into the space of up to four chains and counts
  what was stored; `evbuffer_write_atmost` hands the first chains to writev and drains what
  was taken. On a sound buffer neither ends the process, the bytes read go to the end of the
  contents and the bytes written come off the front, in order.
-/
import GameServer.Libevent.Chains

namespace GameServer.Libevent

open Slice

variable {B : Build}

/-! ## Room for reading -/

/-- Up to `n` chains from the front on have space for `need` bytes, or all `n` are there. -/
def Serves : Nat → Nat → List EvbufferChain → Prop
  | 0, _, _ => True
  | n + 1, need, chains =>
    need = 0 ∨ ∃ c next, chains = c :: next ∧ 0 < c.spaceLen ∧ Serves n (need - c.spaceLen) next

theorem serves_zero (n : Nat) (chains : List EvbufferChain) : Serves n 0 chains := by
  cases n with
  | zero => exact trivial
  | succ n => exact Or.inl rfl

/-- An empty chain from its start on. -/
theorem spaceLen_realigned {c : EvbufferChain} (h0 : c.off = 0) :
    ({ c with misalign := 0 } : EvbufferChain).spaceLen = c.bufferLen := by
  show c.bufferLen - (0 + c.off) = c.bufferLen
  rw [h0]
  rfl

theorem EvbufferChain.Sound.realigned {c : EvbufferChain} (h : c.Sound B) (h0 : c.off = 0) :
    ({ c with misalign := 0 } : EvbufferChain).Sound B := by
  refine ⟨?_, h.bounded, h.roomy⟩
  show 0 + c.off ≤ c.bufferLen
  rw [h0]
  exact Nat.zero_le _

/-- A round of the loop at an empty chain. -/
theorem scanSpace_cons_empty {c : EvbufferChain} (h0 : c.off = 0) (datlen n : Nat) (atLast : Bool)
    (avail used : Nat) (next : List EvbufferChain) :
    scanSpace datlen n atLast avail used (c :: next) =
      if avail + c.bufferLen ≥ datlen then .ok (.enough, { c with misalign := 0 } :: next)
      else if used + 1 = n then .ok (.full, { c with misalign := 0 } :: next)
      else do
        let (scan, next) ← scanSpace datlen n false (avail + c.bufferLen) (used + 1) next
        return (scan, { c with misalign := 0 } :: next) := by
  simp [scanSpace, h0]

theorem serves_cons {c : EvbufferChain} (hpos : 0 < c.spaceLen) {n need : Nat}
    {next : List EvbufferChain} (h : Serves n (need - c.spaceLen) next) :
    Serves (n + 1) need (c :: next) := Or.inr ⟨c, next, rfl, hpos, h⟩

/-- The loop over empty chains: it finds the space, or says how much there is, or gives up. -/
theorem scanSpace_empty {chains : List EvbufferChain} (h : ∀ c ∈ chains, c.Sound B ∧ c.off = 0)
    {datlen : Nat} (n : Nat) {avail : Nat} (used : Nat) (havail : avail < datlen) :
    ∃ scan chains',
      scanSpace datlen (used + (n + 1)) false avail used chains = .ok (scan, chains') ∧
      (∀ c ∈ chains', c.Sound B ∧ c.off = 0) ∧
      (scan = .enough ∧ Serves (n + 1) (datlen - avail) chains' ∨
        (∃ found, scan = .ranOff found ∧ found < datlen ∧
          ∀ tmp : EvbufferChain, datlen - found ≤ tmp.spaceLen → 0 < tmp.spaceLen →
            Serves (n + 1) (datlen - avail) (chains' ++ [tmp])) ∨
        scan = .full) := by
  induction chains generalizing n avail used with
  | nil =>
    refine ⟨_, [], rfl, by simp, Or.inr (Or.inl ⟨avail, rfl, havail, fun tmp htmp hpos => ?_⟩)⟩
    apply serves_cons hpos
    rw [Nat.sub_eq_zero_of_le htmp]
    exact serves_zero _ _
  | cons c chains ih =>
    obtain ⟨⟨hc, h0⟩, hrest⟩ := List.forall_mem_cons.1 h
    have hspace := spaceLen_realigned h0
    have hpos := hc.roomy
    have hc' := hc.realigned h0
    rw [scanSpace_cons_empty h0]
    generalize hreal : ({ c with misalign := 0 } : EvbufferChain) = c' at hspace hc' ⊢
    have h0' : c'.off = 0 := by rw [← hreal, h0]
    rw [← hspace] at hpos ⊢
    by_cases henough : avail + c'.spaceLen ≥ datlen
    · rw [if_pos henough]
      refine ⟨_, _, rfl, List.forall_mem_cons.2 ⟨⟨hc', h0'⟩, hrest⟩, Or.inl ⟨rfl, ?_⟩⟩
      apply serves_cons hpos
      rw [Nat.sub_eq_zero_of_le (by omega)]
      exact serves_zero _ _
    rw [if_neg henough]
    cases n with
    | zero =>
      rw [if_pos rfl]
      exact ⟨_, _, rfl, List.forall_mem_cons.2 ⟨⟨hc', h0'⟩, hrest⟩, Or.inr (Or.inr rfl)⟩
    | succ n =>
      obtain ⟨scan, chains', hrun, hgood, hout⟩ :=
        ih hrest n (used + 1) (show avail + c'.spaceLen < datlen by omega)
      rw [if_neg (by omega), show used + (n + 1 + 1) = used + 1 + (n + 1) by omega, hrun]
      rw [← Nat.sub_sub] at hout
      refine ⟨scan, _, rfl, List.forall_mem_cons.2 ⟨⟨hc', h0'⟩, hgood⟩, ?_⟩
      rcases hout with ⟨rfl, hs⟩ | ⟨found, rfl, hlt, hs⟩ | rfl
      · exact Or.inl ⟨rfl, serves_cons hpos hs⟩
      · exact Or.inr (Or.inl ⟨found, rfl, hlt, fun tmp ht hp => serves_cons hpos (hs tmp ht hp)⟩)
      · exact Or.inr (Or.inr rfl)

/-- The loop at its first chain, which is either full of bytes up to its space or is used from
    its start. -/
theorem scanSpace_first {last : EvbufferChain} (h : last.Sound B) (datlen : Nat)
    (rest : List EvbufferChain) :
    ∃ c : EvbufferChain, c.Sound B ∧ c.off = last.off ∧ c.data = last.data ∧
      (c.spaceLen = 0 → c.off ≠ 0) ∧
      scanSpace datlen 4 true 0 0 (last :: rest) =
        if c.spaceLen ≥ datlen then .ok (.enough, c :: rest)
        else do
          let (scan, next) ← scanSpace datlen 4 false c.spaceLen
            (if c.spaceLen = 0 then 0 else 1) rest
          return (scan, c :: next) := by
  by_cases h0 : last.off = 0
  · have hspace := spaceLen_realigned h0
    have hpos := h.roomy
    refine ⟨{ last with misalign := 0 }, h.realigned h0, rfl, ?_, ?_, ?_⟩
    · show slice _ _ last.off = slice _ _ last.off
      rw [h0, slice_zero, slice_zero]
    · rw [hspace]
      omega
    · rw [scanSpace_cons_empty h0, hspace, Nat.zero_add, if_neg (show ¬ 0 + 1 = 4 by decide),
        if_neg (show ¬ last.bufferLen = 0 by omega)]
  · refine ⟨last, h, rfl, rfl, fun _ => h0, ?_⟩
    by_cases hs : last.spaceLen = 0 <;> simp [scanSpace, h0, hs]

namespace Evbuffer

variable {buf buf' : Evbuffer} {front rest : List EvbufferChain} {last : EvbufferChain}

/-- What a change that keeps the bytes keeps. -/
structure Same (buf buf' : Evbuffer) : Prop where
  contents : buf'.contents = buf.contents
  freezeStart : buf'.freezeStart = buf.freezeStart
  freezeEnd : buf'.freezeEnd = buf.freezeEnd
  nAddForCb : buf'.nAddForCb = buf.nAddForCb

/-- The chains behind `*last_with_datap` can be exchanged for other empty ones. -/
theorem Sound.replaceRest (h : buf.Sound B) (hl : Layout buf front last rest)
    (buf' : Evbuffer) {c : EvbufferChain} (hc : c.Sound B) (hoff : c.off = last.off)
    (hdata : c.data = last.data) {rest' : List EvbufferChain}
    (hrest : ∀ d ∈ rest', d.Sound B ∧ d.off = 0) (hchains : buf'.chains = front ++ c :: rest')
    (hslot : buf'.lastWithDatap = buf.lastWithDatap) (htotal : buf'.totalLen = buf.totalLen) :
    buf'.Sound B ∧ Layout buf' front c rest' ∧ buf'.contents = buf.contents := by
  have hempty : ∀ d ∈ rest', d.off = 0 := fun d hd => (hrest d hd).2
  have hlayout : Layout buf' front c rest' :=
    ⟨hchains, by rw [hslot, hl.slot], hempty, by rw [hoff]; exact hl.data, hl.head⟩
  refine ⟨⟨?_, ?_, Or.inr ⟨_, _, _, hlayout⟩⟩, hlayout, ?_⟩
  · intro d hd
    rw [hchains] at hd
    rcases List.mem_append.1 hd with hd | hd
    · exact h.chains d (by rw [hl.chains]; exact List.mem_append_left _ hd)
    · rcases List.mem_cons.1 hd with rfl | hd
      · exact hc
      · exact (hrest d hd).1
  · rw [htotal, h.total, hl.chains, hchains]
    simp only [List.map_append, List.map_cons, List.sum_append, List.sum_cons, hoff,
      sum_off_empty hempty, sum_off_empty hl.empty]
  · unfold contents
    rw [hchains, hl.chains]
    simp only [List.flatMap_append, List.flatMap_cons, hdata, flatMap_data_empty hempty,
      flatMap_data_empty hl.empty]

/-- There is space for `need` bytes from the first chain with space on. -/
def Ready (need : Nat) (buf : Evbuffer) : Prop :=
  ∃ front last rest, Layout buf front last rest ∧
    (last.spaceLen = 0 → last.off ≠ 0 ∧ Serves 4 need rest) ∧
    (last.spaceLen ≠ 0 → Serves 4 need (last :: rest))

/-- `_evbuffer_expand_fast` makes the room or reports that it cannot; either way the bytes
    stay. -/
inductive Expanded (B : Build) (buf : Evbuffer) (need : Nat) : Int × Evbuffer → Prop
  | ready {buf' : Evbuffer} (hs : buf'.Sound B) (hsame : buf.Same buf') (hready : buf'.Ready need) :
      Expanded B buf need (0, buf')
  | noMemory {buf' : Evbuffer} (hs : buf'.Sound B) (hsame : buf.Same buf') :
      Expanded B buf need (-1, buf')

theorem ready_of_serves {need : Nat} (hl : Layout buf front last rest)
    (hdata : last.spaceLen = 0 → last.off ≠ 0)
    (h : need ≤ last.spaceLen ∧ 0 < need ∨
      Serves (4 - if last.spaceLen = 0 then 0 else 1) (need - last.spaceLen) rest) :
    buf.Ready need := by
  refine ⟨front, last, rest, hl, fun hs => ⟨hdata hs, ?_⟩, fun hs => ?_⟩
  · rcases h with ⟨hle, hpos⟩ | h
    · omega
    · rwa [if_pos hs, hs] at h
  · apply serves_cons (Nat.pos_of_ne_zero hs)
    rcases h with ⟨hle, -⟩ | h
    · rw [Nat.sub_eq_zero_of_le hle]
      exact serves_zero _ _
    · rwa [if_neg hs] at h

/-- One new chain for all the empty ones. -/
theorem Sound.replaceEmpty (h : buf.Sound B) (hl : Layout buf front last rest) {need : Nat}
    (hdata : last.spaceLen = 0 → last.off ≠ 0) (hneed : last.spaceLen < need)
    (memory : Memory) :
    ∃ out, replaceEmpty B buf need memory = .ok out ∧ Expanded B buf need out := by
  have hdrop : buf.chains.drop buf.lastWithDatap = last :: rest := by
    rw [hl.chains, hl.slot, List.drop_left]
  have htake : buf.chains.take buf.lastWithDatap = front := by
    rw [hl.chains, hl.slot, List.take_left]
  have hlast : last.Sound B := h.chains last (by rw [hl.chains]; simp)
  have hall : rest.all holdsNothing = true :=
    List.all_eq_true.2 fun c hc => by simpa [holdsNothing] using hl.empty c hc
  unfold Libevent.replaceEmpty
  rw [hdrop]
  dsimp only
  by_cases h0 : last.off = 0
  · have hnil : front = [] := by
      by_contra hne
      exact hl.data hne h0
    subst hnil
    have hslot : buf.lastWithDatap = 0 := hl.slot
    have hempty : holdsNothing last = true := by simpa [holdsNothing] using h0
    have hcontents : buf.contents = [] := by
      apply flatMap_data_empty
      intro c hc
      rw [hl.chains] at hc
      rcases List.mem_cons.1 hc with rfl | hc
      · exact h0
      · exact hl.empty c hc
    rw [if_neg (by rw [hslot]; simp), hempty]
    simp only [if_true, hall, not_true_eq_false, if_false, Nat.not_lt_zero, Nat.sub_zero]
    cases hnew : evbufferChainNew B need memory with
    | none => exact ⟨_, rfl, .noMemory (sound_zeroChain buf) ⟨hcontents.symm, rfl, rfl, rfl⟩⟩
    | some tmp =>
      obtain ⟨htmp, hoff, hmis, hlen⟩ := chainNew_sound hnew
      have hspace : tmp.spaceLen = tmp.bufferLen := by
        unfold EvbufferChain.spaceLen
        omega
      have htdata : tmp.data = last.data := by
        rw [EvbufferChain.data, EvbufferChain.data, hoff, h0, slice_zero, slice_zero]
      obtain ⟨hs, hlay, hc⟩ := h.replaceRest hl { buf with chains := [tmp], lastWithDatap := 0 }
        htmp (by rw [hoff, h0]) htdata (List.forall_mem_nil _) rfl hslot.symm rfl
      refine ⟨_, rfl, .ready hs ⟨hc, rfl, rfl, rfl⟩ (ready_of_serves hlay ?_ (Or.inl ?_))⟩
      · have := htmp.roomy
        omega
      · omega
  · have hfull : holdsNothing last = false := by simpa [holdsNothing] using h0
    rw [hfull, htake]
    simp only [Bool.false_eq_true, false_and, if_false, hall, not_true_eq_false,
      if_neg (show ¬ need < last.spaceLen by omega)]
    cases hnew : evbufferChainNew B (need - last.spaceLen) memory with
    | none =>
      obtain ⟨hs, -, hc⟩ := h.replaceRest hl { buf with chains := front ++ [last] } hlast rfl rfl
        (List.forall_mem_nil _) rfl rfl rfl
      exact ⟨_, rfl, .noMemory hs ⟨hc, rfl, rfl, rfl⟩⟩
    | some tmp =>
      obtain ⟨htmp, hoff, hmis, hlen⟩ := chainNew_sound hnew
      have hspace : tmp.spaceLen = tmp.bufferLen := by
        unfold EvbufferChain.spaceLen
        omega
      obtain ⟨hs, hlay, hc⟩ := h.replaceRest hl { buf with chains := front ++ [last] ++ [tmp] }
        hlast rfl rfl (List.forall_mem_singleton.2 ⟨htmp, hoff⟩) (List.append_assoc _ _ _) rfl rfl
      refine ⟨_, rfl, .ready hs ⟨hc, rfl, rfl, rfl⟩ (ready_of_serves hlay hdata (Or.inr ?_))⟩
      have hdone : need - last.spaceLen - tmp.spaceLen = 0 := by omega
      obtain ⟨k, hk⟩ : ∃ k, (4 - if last.spaceLen = 0 then 0 else 1) = k + 1 := by
        split
        · exact ⟨3, rfl⟩
        · exact ⟨2, rfl⟩
      rw [hk]
      refine serves_cons (by rw [hspace]; exact htmp.roomy) ?_
      rw [hdone]
      exact serves_zero _ _

/-- `_evbuffer_expand_fast` with four chains. -/
theorem Sound.expandFast (h : buf.Sound B) {need : Nat} (hneed : 0 < need) (memory : Memory) :
    ∃ out, evbufferExpandFast B buf need 4 memory = .ok out ∧ Expanded B buf need out := by
  unfold evbufferExpandFast
  rcases h.layout with ⟨hnil, hslot⟩ | ⟨front, last, rest, hl⟩
  · rw [if_pos hnil]
    cases hnew : evbufferChainNew B need memory with
    | none => exact ⟨_, rfl, .noMemory h ⟨rfl, rfl, rfl, rfl⟩⟩
    | some chain =>
      obtain ⟨hchain, hoff, hmis, hlen⟩ := chainNew_sound hnew
      have hspace : chain.spaceLen = chain.bufferLen := by
        unfold EvbufferChain.spaceLen
        omega
      have hinsert : evbufferChainInsert buf chain =
          .ok { buf with totalLen := buf.totalLen + chain.off, chains := [chain] } := by
        unfold evbufferChainInsert
        rw [hnil, hslot]
        rfl
      dsimp only
      rw [hinsert]
      have hlayout : Layout { buf with totalLen := buf.totalLen + chain.off, chains := [chain] } []
          chain [] := ⟨rfl, hslot, List.forall_mem_nil _, fun hne => absurd rfl hne, by simp⟩
      have hdata : chain.data = [] := by rw [EvbufferChain.data, hoff, slice_zero]
      refine ⟨_, rfl, .ready ⟨?_, ?_, Or.inr ⟨_, _, _, hlayout⟩⟩ ⟨?_, rfl, rfl, rfl⟩
        (ready_of_serves hlayout ?_ (Or.inl ⟨by omega, hneed⟩))⟩
      · exact List.forall_mem_singleton.2 hchain
      · show buf.totalLen + chain.off = chain.off + 0
        rw [h.total, hnil, Nat.add_comm]
        rfl
      · show chain.data ++ [] = buf.chains.flatMap _
        rw [hdata, hnil]
        rfl
      · have := hchain.roomy
        omega
  rw [if_neg (by rw [hl.chains]; simp)]
  have hdrop : buf.chains.drop buf.lastWithDatap = last :: rest := by
    rw [hl.chains, hl.slot, List.drop_left]
  have htake : buf.chains.take buf.lastWithDatap = front := by
    rw [hl.chains, hl.slot, List.take_left]
  have hlast : last.Sound B := h.chains last (by rw [hl.chains]; simp)
  have hrest : ∀ c ∈ rest, c.Sound B ∧ c.off = 0 := fun c hc =>
    ⟨h.chains c (by rw [hl.chains]; simp [hc]), hl.empty c hc⟩
  obtain ⟨c, hc, hoff, hdata, hfull, hscan⟩ := scanSpace_first hlast need rest
  rw [hdrop, htake, hscan]
  by_cases henough : c.spaceLen ≥ need
  · rw [if_pos henough, ok_bind]
    obtain ⟨hs, hlay, hcont⟩ := h.replaceRest hl { buf with chains := front ++ c :: rest } hc hoff
      hdata hrest rfl rfl rfl
    exact ⟨_, rfl, .ready hs ⟨hcont, rfl, rfl, rfl⟩
      (ready_of_serves hlay hfull (Or.inl ⟨henough, hneed⟩))⟩
  rw [if_neg henough]
  obtain ⟨k, hk⟩ : ∃ k, 4 = (if c.spaceLen = 0 then 0 else 1) + (k + 1) := by
    split
    · exact ⟨3, rfl⟩
    · exact ⟨2, rfl⟩
  have hk' : (4 - if c.spaceLen = 0 then 0 else 1) = k + 1 := by omega
  obtain ⟨scan, next, hrun, hnext, hout⟩ :=
    scanSpace_empty hrest k (if c.spaceLen = 0 then 0 else 1) (Nat.lt_of_not_le henough)
  rw [← hk] at hrun
  rw [hrun, ok_bind, pure_bind]
  dsimp only
  rw [← hk'] at hout
  obtain ⟨hs, hlay, hcont⟩ := h.replaceRest hl { buf with chains := front ++ c :: next } hc hoff
    hdata hnext rfl rfl rfl
  rcases hout with ⟨rfl, hserves⟩ | ⟨found, rfl, hlt, hserves⟩ | rfl
  · exact ⟨_, rfl, .ready hs ⟨hcont, rfl, rfl, rfl⟩
      (ready_of_serves hlay hfull (Or.inr hserves))⟩
  · dsimp only
    cases hnew : evbufferChainNew B (need - found) memory with
    | none => exact ⟨_, rfl, .noMemory hs ⟨hcont, rfl, rfl, rfl⟩⟩
    | some tmp =>
      obtain ⟨htmp, htoff, htmis, htlen⟩ := chainNew_sound hnew
      have hspace : tmp.spaceLen = tmp.bufferLen := by
        unfold EvbufferChain.spaceLen
        omega
      have hroomy := htmp.roomy
      obtain ⟨hs', hlay', hcont'⟩ := h.replaceRest hl
        { buf with chains := front ++ c :: next ++ [tmp] } hc hoff hdata
        (List.forall_mem_append.2 ⟨hnext, List.forall_mem_singleton.2 ⟨htmp, htoff⟩⟩)
        (List.append_assoc _ _ _) rfl rfl
      exact ⟨_, rfl, .ready hs' ⟨hcont', rfl, rfl, rfl⟩
        (ready_of_serves hlay' hfull (Or.inr (hserves tmp (by omega) (by omega))))⟩
  · obtain ⟨out, hrep, hexp⟩ := hs.replaceEmpty hlay hfull (Nat.lt_of_not_le henough) memory
    refine ⟨out, hrep, ?_⟩
    cases hexp with
    | ready hs' hsame hready =>
      exact .ready hs' ⟨hsame.contents.trans hcont, hsame.freezeStart, hsame.freezeEnd,
        hsame.nAddForCb⟩ hready
    | noMemory hs' hsame =>
      exact .noMemory hs' ⟨hsame.contents.trans hcont, hsame.freezeStart, hsame.freezeEnd,
        hsame.nAddForCb⟩

end Evbuffer

/-! ## Storing what was read -/

/-- The vectors for the chains from the front on: each is all the space of its chain, except
    that the last one may be shorter. -/
inductive Vectors : List Nat → List EvbufferChain → Prop
  | none {chains : List EvbufferChain} : Vectors [] chains
  | last {v : Nat} {c : EvbufferChain} {next : List EvbufferChain} (hv : v ≤ c.spaceLen) :
      Vectors [v] (c :: next)
  | more {vecs : List Nat} {c : EvbufferChain} {next : List EvbufferChain} (hpos : 0 < c.spaceLen)
      (h : Vectors vecs next) : Vectors (c.spaceLen :: vecs) (c :: next)

/-- The vectors never run off the chains, and there is something in them. -/
theorem setupVecs_ok {howmuch : Nat} (n : Nat) {soFar : Nat} {chains : List EvbufferChain}
    (h : Serves n (howmuch - soFar) chains) :
    ∃ vecs, setupVecs howmuch n soFar chains = .ok vecs ∧ Vectors vecs chains ∧
      (0 < n → soFar < howmuch → 0 < vecs.sum) := by
  induction n generalizing soFar chains with
  | zero => exact ⟨[], rfl, .none, fun hn => absurd hn (Nat.lt_irrefl 0)⟩
  | succ n ih =>
    unfold setupVecs
    by_cases hlt : soFar < howmuch
    · rcases h with h0 | ⟨c, next, rfl, hpos, hnext⟩
      · omega
      rw [if_pos hlt]
      dsimp only
      by_cases hcut : c.spaceLen > howmuch - soFar
      · rw [if_pos hcut]
        -- the last vector, cut to what is wanted
        have hstop : setupVecs howmuch n (soFar + (howmuch - soFar)) next = .ok [] := by
          cases n with
          | zero => rfl
          | succ n =>
            unfold setupVecs
            exact if_neg (by omega)
        rw [hstop]
        exact ⟨_, rfl, .last (Nat.le_of_lt hcut), fun _ _ => by
          show 0 < howmuch - soFar + 0
          omega⟩
      · rw [if_neg hcut]
        rw [Nat.sub_sub] at hnext
        obtain ⟨vecs, hrun, hvecs, -⟩ := ih hnext
        rw [hrun]
        refine ⟨_, rfl, .more hpos hvecs, fun _ _ => ?_⟩
        rw [List.sum_cons]
        omega
    · rw [if_neg hlt]
      exact ⟨[], rfl, .none, fun _ hlt' => absurd hlt' hlt⟩

theorem write_nil {c : EvbufferChain} (h : c.Sound B) :
    c.write (c.misalign + c.off) [] = .ok c := by
  have hin := h.inside
  unfold EvbufferChain.write overwrite
  rw [if_pos (by simpa using hin)]
  simp

theorem storeVecs_nil {vecs : List Nat} {chains : List EvbufferChain}
    (h : ∀ c ∈ chains, c.Sound B) : storeVecs vecs [] chains = .ok chains := by
  induction chains generalizing vecs with
  | nil => cases vecs <;> rfl
  | cons c chains ih =>
    obtain ⟨hc, hrest⟩ := List.forall_mem_cons.1 h
    cases vecs with
    | nil => rfl
    | cons v vecs =>
      unfold storeVecs
      rw [List.take_nil, List.drop_nil, write_nil hc, ok_bind, ih hrest]
      rfl

/-- Stored bytes are held once they are counted. -/
theorem store_ok {c : EvbufferChain} (h : c.Sound B) {bytes : List UInt8}
    (hroom : bytes.length ≤ c.spaceLen) :
    ∃ c', c.write (c.misalign + c.off) bytes = .ok c' ∧ c'.spaceLen = c.spaceLen ∧
      c'.off = c.off ∧
      ∀ n, n = bytes.length → ({ c' with off := c'.off + n } : EvbufferChain).Sound B ∧
        ({ c' with off := c'.off + n } : EvbufferChain).data = c.data ++ bytes := by
  have hin := h.inside
  unfold EvbufferChain.spaceLen at hroom
  obtain ⟨d, hrun, hs, hd, ho⟩ := h.append_ok bytes (by omega)
  unfold EvbufferChain.append at hrun
  unfold EvbufferChain.write at hrun ⊢
  rw [if_pos (by omega)] at hrun ⊢
  obtain rfl := Except.ok.inj hrun
  refine ⟨_, rfl, ?_, rfl, ?_⟩
  · show List.length (overwrite _ _ _) - _ = _
    rw [length_overwrite (by show _ ≤ c.bufferLen; omega)]
    rfl
  · rintro n rfl
    exact ⟨hs, hd⟩

theorem spaceLen_le {c : EvbufferChain} (h : c.Sound B) : c.spaceLen ≤ B.chainMax :=
  Nat.le_trans (Nat.sub_le _ _) h.bounded

theorem commitVecs_stop {c : EvbufferChain} (hmax : c.spaceLen ≤ B.chainMax) {remaining : Nat}
    (h : remaining ≤ c.spaceLen) (n slot lwd : Nat) (next : List EvbufferChain) :
    commitVecs B (n + 1) remaining slot lwd (c :: next) =
      .ok (slot, { c with off := c.off + remaining } :: next) := by
  simp only [commitVecs, if_neg (Nat.not_lt.2 hmax), if_neg (Nat.not_lt.2 h)]

theorem commitVecs_more {c : EvbufferChain} (hmax : c.spaceLen ≤ B.chainMax) {remaining : Nat}
    (h : c.spaceLen < remaining) (n slot lwd : Nat) (next : List EvbufferChain) :
    commitVecs B (n + 1) remaining slot lwd (c :: next) = do
      let (lwd, next) ← commitVecs B n (remaining - c.spaceLen) (slot + 1) lwd next
      return (lwd, { c with off := c.off + c.spaceLen } :: next) := by
  simp only [commitVecs, if_neg (Nat.not_lt.2 hmax), if_pos h]

/-- Where the bytes that were read are after `evbuffer_read` has counted them: behind those of
    the chains that it began with. -/
structure Filled (B : Build) (chains front : List EvbufferChain) (last : EvbufferChain)
    (rest : List EvbufferChain) (bytes : List UInt8) : Prop where
  sound : ∀ c ∈ front ++ last :: rest, c.Sound B
  last_data : last.off ≠ 0
  empty : ∀ c ∈ rest, c.off = 0
  head : ∀ c ∈ front.head?, c.off ≠ 0
  contents : (front ++ last :: rest).flatMap EvbufferChain.data =
    chains.flatMap EvbufferChain.data ++ bytes

/-- All of it goes into the first chain. -/
theorem fill_here {c : EvbufferChain} {next : List EvbufferChain} (hc : c.Sound B)
    (hnext : ∀ d ∈ next, d.Sound B) (hempty : ∀ d ∈ next, d.off = 0) {bytes : List UInt8}
    (hne : bytes ≠ []) {v : Nat} (hv : bytes.length ≤ v) (hroom : bytes.length ≤ c.spaceLen)
    (vecs : List Nat) (n slot lwd : Nat) :
    ∃ stored last, storeVecs (v :: vecs) bytes (c :: next) = .ok stored ∧
      commitVecs B (n + 1) bytes.length slot lwd stored = .ok (slot, last :: next) ∧
      Filled B (c :: next) [] last next bytes := by
  have hpos : 0 < bytes.length := List.length_pos_iff.2 hne
  obtain ⟨c', hwrite, hspace, hoff, hheld⟩ := store_ok hc hroom
  obtain ⟨hs', hd'⟩ := hheld _ rfl
  have hmax := spaceLen_le hc
  refine ⟨c' :: next, { c' with off := c'.off + bytes.length }, ?_,
    commitVecs_stop (by omega) (by omega) n slot lwd next,
    List.forall_mem_cons.2 ⟨hs', hnext⟩, ?_, hempty, by simp, ?_⟩
  · unfold storeVecs
    rw [List.take_of_length_le hv, List.drop_eq_nil_of_le hv, hwrite, ok_bind, storeVecs_nil hnext]
    rfl
  · show c'.off + bytes.length ≠ 0
    omega
  · rw [List.nil_append, List.flatMap_cons, List.flatMap_cons, hd', flatMap_data_empty hempty]
    simp

/-- What readv stores and the loop of `evbuffer_read` counts; `slot + front.length` is the
    last chain that got any. -/
theorem fill_ok {chains : List EvbufferChain} {vecs : List Nat} (hv : Vectors vecs chains)
    (h : ∀ c ∈ chains, c.Sound B) (hempty : ∀ c ∈ chains.tail, c.off = 0) {bytes : List UInt8}
    (hne : bytes ≠ []) (hsum : bytes.length ≤ vecs.sum) (slot lwd : Nat) :
    ∃ stored front last rest, storeVecs vecs bytes chains = .ok stored ∧
      commitVecs B vecs.length bytes.length slot lwd stored =
        .ok (slot + front.length, front ++ last :: rest) ∧
      Filled B chains front last rest bytes := by
  induction hv generalizing bytes slot with
  | none => exact absurd (List.length_eq_zero_iff.1 (Nat.le_zero.1 hsum)) hne
  | @last v c next hv =>
    obtain ⟨hc, hrest⟩ := List.forall_mem_cons.1 h
    have hle : bytes.length ≤ v := hsum
    obtain ⟨stored, last, hstore, hcommit, hfilled⟩ :=
      fill_here hc hrest hempty hne hle (Nat.le_trans hle hv) [] 0 slot lwd
    exact ⟨stored, [], last, next, hstore, hcommit, hfilled⟩
  | @more vecs c next hcpos hvecs ih =>
    obtain ⟨hc, hrest⟩ := List.forall_mem_cons.1 h
    rw [List.sum_cons] at hsum
    by_cases hfits : bytes.length ≤ c.spaceLen
    · obtain ⟨stored, last, hstore, hcommit, hfilled⟩ :=
        fill_here hc hrest hempty hne hfits hfits vecs vecs.length slot lwd
      exact ⟨stored, [], last, next, hstore, hcommit, hfilled⟩
    · have htake : (bytes.take c.spaceLen).length = c.spaceLen := by
        rw [List.length_take]
        omega
      have hdrop : (bytes.drop c.spaceLen).length = bytes.length - c.spaceLen := List.length_drop
      have hmore : 0 < (bytes.drop c.spaceLen).length := by omega
      obtain ⟨c', hwrite, hspace, hoff, hheld⟩ := store_ok hc (Nat.le_of_eq htake)
      obtain ⟨hs', hd'⟩ := hheld c'.spaceLen (by rw [hspace, htake])
      have hmax := spaceLen_le hc
      obtain ⟨stored, front, last, rest, hstore, hcommit, hfilled⟩ :=
        ih hrest (fun d hd => hempty d (List.mem_of_mem_tail hd)) (List.ne_nil_of_length_pos hmore)
          (by omega) (slot + 1)
      refine ⟨c' :: stored, { c' with off := c'.off + c'.spaceLen } :: front, last, rest, ?_, ?_,
        List.forall_mem_cons.2 ⟨hs', hfilled.sound⟩, hfilled.last_data, hfilled.empty, ?_, ?_⟩
      · unfold storeVecs
        rw [hwrite, ok_bind, hstore]
        rfl
      · rw [List.length_cons, commitVecs_more (by omega) (by omega), hspace, ← hdrop, hcommit,
          ok_bind, List.length_cons]
        show Except.ok (slot + 1 + front.length, _) = _
        rw [Nat.add_assoc, Nat.add_comm 1]
        rfl
      · intro d hd
        obtain rfl := Option.some.inj hd
        show c'.off + c'.spaceLen ≠ 0
        omega
      · have hnext : next.flatMap EvbufferChain.data = [] := flatMap_data_empty hempty
        rw [List.cons_append, List.flatMap_cons, hfilled.contents, hd', List.flatMap_cons, hnext,
          List.nil_append, List.append_nil, List.append_assoc, List.take_append_drop]

/-! ## `evbuffer_read` -/

namespace Evbuffer

variable {buf : Evbuffer}

/-- What `evbuffer_read` can do: nothing to the bytes in the buffer when it fails or the
    stream has ended, else the first of the pending bytes come behind them. -/
inductive ReadOutcome (B : Build) (buf : Evbuffer) : Arrived → Int × Evbuffer × List UInt8 → Prop
  | failed {arrived : Arrived} {buf' : Evbuffer} (hs : buf'.Sound B) (hsame : buf.Same buf') :
      ReadOutcome B buf arrived (-1, buf', [])
  | ended {buf' : Evbuffer} (hs : buf'.Sound B) (hsame : buf.Same buf') :
      ReadOutcome B buf .eof (0, buf', [])
  | took {pending bytes : List UInt8} {hne : pending ≠ []} {buf' : Evbuffer} (hs : buf'.Sound B)
      (hpos : bytes ≠ []) (hpre : bytes <+: pending)
      (hc : buf'.contents = buf.contents ++ bytes) (hfs : buf'.freezeStart = buf.freezeStart)
      (hfe : buf'.freezeEnd = buf.freezeEnd) :
      ReadOutcome B buf (.bytes pending hne) (bytes.length, buf', bytes)

/-- The chains from the first one with space on. -/
theorem Ready.space {need : Nat} (h : buf.Ready need) (hs : buf.Sound B) :
    ∃ front tail, firstSpace buf = .ok front.length ∧ buf.chains = front ++ tail ∧
      Serves 4 need tail ∧ (∀ c ∈ tail, c.Sound B) ∧ (∀ c ∈ tail.tail, c.off = 0) ∧
      (∀ c ∈ front.head?, c.off ≠ 0) := by
  obtain ⟨front, last, rest, hl, hfull, hroom⟩ := h
  have hget : buf.chains[buf.lastWithDatap]? = some last := by
    rw [hl.chains, hl.slot]
    simp
  have hmem : ∀ c ∈ last :: rest, c.Sound B := fun c hc =>
    hs.chains c (by rw [hl.chains]; exact List.mem_append_right _ hc)
  unfold firstSpace
  rw [hget]
  dsimp only
  by_cases h0 : last.spaceLen = 0
  · obtain ⟨hdata, hserves⟩ := hfull h0
    rw [if_pos h0, hl.slot]
    refine ⟨front ++ [last], rest, by rw [List.length_append]; rfl, by simp [hl.chains], hserves,
      fun c hc => hmem c (List.mem_cons_of_mem _ hc),
      fun c hc => hl.empty c (List.mem_of_mem_tail hc), ?_⟩
    intro c hc
    cases front with
    | nil =>
      obtain rfl := Option.some.inj hc
      exact hdata
    | cons d front => exact hl.head c hc
  · rw [if_neg h0, hl.slot]
    exact ⟨front, last :: rest, rfl, hl.chains, hroom h0, hmem, hl.empty, hl.head⟩

theorem Sound.read (h : buf.Sound B) (hfe : buf.freezeEnd = false) (readable : Int) {howmuch : Int}
    (hwant : howmuch ≠ 0) (arrived : Arrived) (memory : Memory) :
    ∃ out, evbufferRead B buf readable howmuch arrived memory = .ok out ∧
      ReadOutcome B buf arrived out := by
  unfold evbufferRead
  rw [if_neg (by rw [hfe]; exact Bool.false_ne_true)]
  dsimp only
  generalize hn : (if readable ≤ 0 ∨ readable > 4096 then 4096 else readable) = n
  generalize hm : (if howmuch < 0 ∨ howmuch > n then n else howmuch) = m
  have hpos : 0 < m.toNat := by
    have : 0 < n := by
      rw [← hn]
      split <;> omega
    have : 0 < m := by
      rw [← hm]
      split <;> omega
    omega
  obtain ⟨out, hexpand, hexp⟩ := h.expandFast hpos memory
  rw [hexpand, ok_bind]
  cases hexp with
  | noMemory hs hsame => exact ⟨_, rfl, .failed hs hsame⟩
  | @ready buf1 hs hsame hready =>
    obtain ⟨front, tail, hfirst, hchains, hserves, hsound, hempty, hhead⟩ := hready.space hs
    have htake : buf1.chains.take front.length = front := by rw [hchains, List.take_left]
    have hdrop : buf1.chains.drop front.length = tail := by rw [hchains, List.drop_left]
    obtain ⟨vecs, hsetup, hvecs, hsum⟩ :=
      setupVecs_ok 4 (show Serves 4 (m.toNat - 0) tail from hserves)
    have hvpos := hsum (by decide) hpos
    dsimp only
    rw [if_neg (show ¬ (0 : Int) = -1 by decide), hfirst, ok_bind, hdrop, hsetup, ok_bind, htake]
    cases arrived with
    | error => exact ⟨_, rfl, .failed hs hsame⟩
    | eof => exact ⟨_, rfl, .ended hs hsame⟩
    | bytes pending hne =>
      have hplen : 0 < pending.length := List.length_pos_iff.2 hne
      have hbytes : pending.take vecs.sum ≠ [] := by
        apply List.ne_nil_of_length_pos
        rw [List.length_take]
        omega
      have hle : (pending.take vecs.sum).length ≤ vecs.sum := List.length_take_le _ _
      obtain ⟨stored, front', last, rest, hstore, hcommit, hfilled⟩ :=
        fill_ok hvecs hsound hempty hbytes hle front.length buf1.lastWithDatap
      dsimp only
      rw [hstore, ok_bind, hcommit]
      have hcontents : (front ++ (front' ++ last :: rest)).flatMap EvbufferChain.data =
          buf.contents ++ pending.take vecs.sum := by
        rw [List.flatMap_append, hfilled.contents, ← List.append_assoc, ← List.flatMap_append,
          ← hchains, ← hsame.contents]
        rfl
      have hall : ∀ c ∈ front ++ (front' ++ last :: rest), c.Sound B := by
        intro c hc
        rcases List.mem_append.1 hc with hc | hc
        · exact hs.chains c (by rw [hchains]; exact List.mem_append_left _ hc)
        · exact hfilled.sound c hc
      refine ⟨_, rfl, .took ⟨hall, ?_, Or.inr ⟨front ++ front', last, rest, ?_, ?_, hfilled.empty,
        fun _ => hfilled.last_data, ?_⟩⟩ hbytes (List.take_prefix _ _) hcontents hsame.freezeStart
        hsame.freezeEnd⟩
      · show buf1.totalLen + _ = _
        rw [← length_flatMap_data hall, hcontents, List.length_append, ← hs.length_contents,
          hsame.contents]
      · exact (List.append_assoc _ _ _).symm
      · show front.length + front'.length = _
        rw [List.length_append]
      · intro c hc
        cases front with
        | nil => exact hfilled.head c hc
        | cons d front => exact hhead c hc

end Evbuffer

/-! ## `evbuffer_write_atmost` -/

/-- The vectors hold the first bytes of the chains, some of them if there are any. -/
theorem writeVecs_ok {chains : List EvbufferChain} (h : ∀ c ∈ chains, c.Sound B) (n howmuch : Nat) :
    ∃ vecs, writeVecs n howmuch chains = .ok vecs ∧
      vecs.flatten <+: chains.flatMap EvbufferChain.data ∧
      (0 < n → 0 < howmuch → ∀ c ∈ chains.head?, c.off ≠ 0 → vecs.flatten ≠ []) := by
  induction chains generalizing n howmuch with
  | nil =>
    refine ⟨[], by cases n <;> rfl, List.nil_prefix, fun _ _ c hc => absurd hc (by simp)⟩
  | cons c chains ih =>
    obtain ⟨hc, hrest⟩ := List.forall_mem_cons.1 h
    have hne : ∀ {bytes : List UInt8} {m : Nat}, bytes.length = m → 0 < m → bytes ≠ [] :=
      fun hlen hm => List.ne_nil_of_length_pos (by omega)
    cases n with
    | zero => exact ⟨[], rfl, List.nil_prefix, fun h0 => absurd h0 (Nat.lt_irrefl 0)⟩
    | succ n =>
      unfold writeVecs
      by_cases h0 : howmuch = 0
      · exact ⟨[], if_pos h0, List.nil_prefix, fun _ hpos => absurd hpos (by omega)⟩
      rw [if_neg h0]
      by_cases hoff : howmuch ≥ c.off
      · rw [if_pos hoff, hc.read_all, ok_bind]
        obtain ⟨vecs, hrun, hpre, -⟩ := ih hrest n (howmuch - c.off)
        rw [hrun]
        refine ⟨_, rfl, ?_, fun _ _ d hd hdata hnil => ?_⟩
        · rw [List.flatten_cons, List.flatMap_cons]
          exact (List.prefix_append_right_inj _).2 hpre
        · obtain rfl : c = d := Option.some.inj hd
          rw [List.flatten_cons, List.append_eq_nil_iff] at hnil
          exact hne hc.length_data (Nat.pos_of_ne_zero hdata) hnil.1
      · have hle : howmuch ≤ c.off := by omega
        rw [if_neg hoff, hc.read_ok hle]
        refine ⟨_, rfl, ?_, fun _ hpos d hd hdata hnil => ?_⟩
        · rw [List.flatMap_cons, List.flatten_singleton]
          exact (List.take_prefix _ _).trans (List.prefix_append _ _)
        · rw [List.flatten_singleton] at hnil
          refine hne ?_ hpos hnil
          rw [List.length_take, hc.length_data]
          omega

namespace Evbuffer

variable {buf : Evbuffer}

/-- What `evbuffer_write_atmost` can do to a buffer with bytes: writev fails or takes
    nothing, else what it took has come off the front. -/
inductive WriteOutcome (B : Build) (buf : Evbuffer) : Accepted → Int × Evbuffer × List UInt8 → Prop
  | failed : WriteOutcome B buf .error (-1, buf, [])
  | nothing : WriteOutcome B buf (.upTo 0) (0, buf, [])
  | took {n : Nat} {sent : List UInt8} {buf' : Evbuffer} (hs : buf'.Sound B) (hpos : sent ≠ [])
      (hle : sent.length ≤ n) (hc : buf.contents = sent ++ buf'.contents)
      (ht : buf.Tight → buf'.Tight) (hfs : buf'.freezeStart = buf.freezeStart)
      (hfe : buf'.freezeEnd = buf.freezeEnd) (hn : buf'.nAddForCb = buf.nAddForCb) :
      WriteOutcome B buf (.upTo n) (sent.length, buf', sent)

theorem Sound.write (h : buf.Sound B) (hfs : buf.freezeStart = false) (hne : buf.contents ≠ [])
    {howmuch : Int} (hwant : howmuch ≠ 0) (accepted : Accepted) :
    ∃ out, evbufferWriteAtmost buf howmuch accepted = .ok out ∧
      WriteOutcome B buf accepted out := by
  have htotal : buf.totalLen ≠ 0 := fun h0 => hne (h.contents_eq_nil h0)
  unfold evbufferWriteAtmost
  rw [if_neg (by rw [hfs]; exact Bool.false_ne_true)]
  dsimp only
  generalize hm :
    (if howmuch < 0 ∨ howmuch > buf.totalLen then (buf.totalLen : Int) else howmuch) = m
  have hpos : 0 < m := by
    rw [← hm]
    split <;> omega
  obtain ⟨vecs, hrun, hpre, hsome⟩ := writeVecs_ok h.chains 128 m.toNat
  obtain ⟨c, next, hchains, hoff⟩ := h.head htotal
  have hflat : vecs.flatten ≠ [] :=
    hsome (by decide) (by omega) c (by rw [hchains]; rfl) hoff
  have hvecs : vecs ≠ [] := fun hnil => hflat (by rw [hnil]; rfl)
  rw [if_pos hpos, hrun, ok_bind, if_neg hvecs]
  cases accepted with
  | error => exact ⟨_, rfl, .failed⟩
  | upTo n =>
    have hsent : vecs.flatten.take n <+: buf.contents := (List.take_prefix _ _).trans hpre
    have hflen : 0 < vecs.flatten.length := List.length_pos_iff.2 hflat
    dsimp only
    by_cases h0 : (vecs.flatten.take n).length > 0
    · rw [if_pos h0]
      obtain ⟨buf', hdrain, hs, hc, ht, hfs', hfe', hn⟩ := h.drain hfs (vecs.flatten.take n).length
      rw [hdrain]
      refine ⟨_, rfl, .took hs (List.ne_nil_of_length_pos h0) (List.length_take_le _ _) ?_ ht hfs'
        hfe' hn⟩
      obtain ⟨tail, htail⟩ := hsent
      rw [hc, ← htail, List.drop_left]
    · rw [if_neg h0]
      rw [List.length_take] at h0
      obtain rfl : n = 0 := by omega
      exact ⟨_, rfl, .nothing⟩

end Evbuffer

end GameServer.Libevent
