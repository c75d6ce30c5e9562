/-
  Appending to a buffer: `evbuffer_add` for a buffer that is tight, and `evbuffer_add_buffer`,
  which moves the chains of one buffer behind those of another and leaves the first one
  without a chain.
-/
import GameServer.Libevent.Chains

namespace GameServer.Libevent

open Slice

variable {B : Build}

namespace Evbuffer

variable {buf : Evbuffer}

/-! ## A buffer without trailing empty chains -/

/-- A tight buffer ends with the chain `*last_with_datap`. -/
theorem Sound.tight_layout (h : buf.Sound B) (ht : buf.Tight) (hne : buf.chains ≠ []) :
    ∃ front last, Layout buf front last [] := by
  rcases h.layout with ⟨hnil, -⟩ | ⟨front, last, rest, hl⟩
  · exact absurd hnil hne
  · have hlen : buf.chains.length ≤ buf.lastWithDatap + 1 := ht
    rw [hl.chains, hl.slot, List.length_append, List.length_cons] at hlen
    obtain rfl : rest = [] := List.length_eq_zero_iff.1 (by omega)
    exact ⟨front, last, hl⟩

/-- More bytes in the last chain. -/
theorem Sound.setLast {front : List EvbufferChain} {last last' : EvbufferChain} {bytes : List UInt8}
    (h : buf.Sound B) (hl : Layout buf front last []) (hlast : last'.Sound B)
    (hdata : last'.data = last.data ++ bytes) (hoff : last'.off = last.off + bytes.length) :
    ((buf.setLast last').grow bytes.length).Sound B ∧
      Layout ((buf.setLast last').grow bytes.length) front last' [] ∧
      ((buf.setLast last').grow bytes.length).contents = buf.contents ++ bytes := by
  have hchains : ((buf.setLast last').grow bytes.length).chains = front ++ [last'] := by
    show buf.chains.dropLast ++ [last'] = _
    rw [hl.chains, List.dropLast_concat]
  have hlayout : Layout ((buf.setLast last').grow bytes.length) front last' [] := by
    refine ⟨hchains, hl.slot, hl.empty, fun hne => ?_, hl.head⟩
    have := hl.data hne
    omega
  refine ⟨⟨?_, ?_, Or.inr ⟨front, last', [], hlayout⟩⟩, hlayout, ?_⟩
  · intro c hc
    rw [hchains] at hc
    rcases List.mem_append.1 hc with hc | hc
    · exact h.chains c (by rw [hl.chains]; exact List.mem_append_left _ hc)
    · rw [List.mem_singleton.1 hc]
      exact hlast
  · show buf.totalLen + bytes.length = _
    rw [hchains, h.total, hl.chains]
    simp only [List.map_append, List.map_cons, List.map_nil, List.sum_append, List.sum_cons,
      List.sum_nil]
    omega
  · unfold contents
    rw [hchains, hl.chains]
    simp only [List.flatMap_append, List.flatMap_cons, List.flatMap_nil, List.append_nil, hdata,
      List.append_assoc]

theorem tight_of_layout {front : List EvbufferChain} {last : EvbufferChain}
    (hl : Layout buf front last []) : buf.Tight := by
  unfold Tight
  rw [hl.chains, hl.slot, List.length_append]
  exact Nat.le_refl _

/-- A chain with bytes goes behind the last one, or replaces it when it is empty. -/
theorem Sound.insert {front : List EvbufferChain} {last tmp : EvbufferChain} (h : buf.Sound B)
    (hl : Layout buf front last []) (htmp : tmp.Sound B) (hoff : tmp.off ≠ 0) :
    ∃ buf', evbufferChainInsert buf tmp = .ok buf' ∧ buf'.Sound B ∧ buf'.Tight ∧
      buf'.contents = buf.contents ++ tmp.data ∧
      buf'.freezeStart = buf.freezeStart ∧ buf'.freezeEnd = buf.freezeEnd ∧
      buf'.nAddForCb = buf.nAddForCb := by
  have htail : buf.chains.drop buf.lastWithDatap = [last] := by
    rw [hl.chains, hl.slot, List.drop_left]
  have hfront : buf.chains.take buf.lastWithDatap = front := by
    rw [hl.chains, hl.slot, List.take_left]
  unfold evbufferChainInsert
  rw [htail, hfront]
  dsimp only
  rw [if_neg (List.cons_ne_nil _ _)]
  by_cases hlast : last.off = 0
  · -- only a first chain can be without bytes
    have hnil : front = [] := by
      by_contra hne
      exact hl.data hne hlast
    subst hnil
    have hempty : holdsNothing last = true := by simpa [holdsNothing] using hlast
    simp only [List.takeWhile_cons, List.dropWhile_cons, hempty, Bool.not_true,
      Bool.false_eq_true, if_false, List.cons_ne_nil, List.all_cons, List.all_nil, Bool.and_self,
      if_true, List.nil_append]
    have hlayout : Layout { buf with totalLen := buf.totalLen + tmp.off, chains := [tmp] } [] tmp
        [] := ⟨rfl, hl.slot, hl.empty, fun hne => absurd rfl hne, by simp⟩
    refine ⟨_, rfl, ⟨?_, ?_, Or.inr ⟨[], tmp, [], hlayout⟩⟩, tight_of_layout hlayout, ?_, rfl, rfl,
      rfl⟩
    · intro c hc
      rw [List.mem_singleton.1 hc]
      exact htmp
    · show buf.totalLen + tmp.off = _
      rw [h.total, hl.chains]
      simp [hlast]
    · have hnone : last.data = [] := by rw [EvbufferChain.data, hlast, slice_zero]
      unfold contents
      rw [hl.chains]
      simp [hnone]
  · have hfull : holdsNothing last = false := by simpa [holdsNothing] using hlast
    simp only [List.dropWhile_cons, hfull, Bool.not_false, if_true, List.dropWhile_nil, if_pos hoff]
    have hlayout : Layout { buf with
        totalLen := buf.totalLen + tmp.off
        chains := buf.chains ++ [tmp]
        lastWithDatap := buf.chains.length } (front ++ [last]) tmp [] := by
      refine ⟨by simp [hl.chains], by simp [hl.chains], hl.empty, fun _ => hoff, ?_⟩
      intro c hc
      cases front with
      | nil =>
        obtain rfl : last = c := by simpa using hc
        exact hlast
      | cons d front => exact hl.head c (by simpa using hc)
    refine ⟨_, rfl, ⟨?_, ?_, Or.inr ⟨_, _, _, hlayout⟩⟩, tight_of_layout hlayout, ?_, rfl, rfl, rfl⟩
    · intro c hc
      rcases List.mem_append.1 hc with hc | hc
      · exact h.chains c hc
      · rw [List.mem_singleton.1 hc]
        exact htmp
    · show buf.totalLen + tmp.off = ((buf.chains ++ [tmp]).map _).sum
      rw [h.total]
      simp
    · unfold contents
      simp

/-- The first chain of a buffer. -/
theorem insert_first (hnil : buf.chains = []) (hslot : buf.lastWithDatap = 0)
    (chain : EvbufferChain) :
    evbufferChainInsert buf chain =
      .ok { buf with totalLen := buf.totalLen + chain.off, chains := [chain] } := by
  unfold evbufferChainInsert
  rw [hnil, hslot]
  rfl

/-! ## `evbuffer_add` -/

/-- What `evbuffer_add` can do to a buffer: all the bytes go to the end, or nothing changes. -/
inductive Added (B : Build) (buf : Evbuffer) (bytes : List UInt8) : Int × Evbuffer → Prop
  | appended {buf' : Evbuffer} (hs : buf'.Sound B) (ht : buf'.Tight)
      (hc : buf'.contents = buf.contents ++ bytes) (hfs : buf'.freezeStart = buf.freezeStart)
      (hfe : buf'.freezeEnd = buf.freezeEnd)
      (hn : buf'.nAddForCb = buf.nAddForCb + bytes.length) : Added B buf bytes (0, buf')
  | refused : Added B buf bytes (-1, buf)

theorem Sound.addToLast {front : List EvbufferChain} {last : EvbufferChain} (h : buf.Sound B)
    (hl : Layout buf front last []) (bytes : List UInt8) (memory : Memory) :
    ∃ out, addToLast B buf bytes memory = .ok out ∧
      (out = (-1, buf) ∧ last.bufferLen - last.misalign - last.off < bytes.length ∨
        out ≠ (-1, buf) ∧ Added B buf bytes out) := by
  have hlast : last.Sound B := h.chains last (by rw [hl.chains]; simp)
  have hin := hlast.inside
  have hmax := hlast.bounded
  have hget : buf.chains.getLast? = some last := by rw [hl.chains, List.getLast?_concat]
  have done : ∀ {last' : EvbufferChain}, last'.Sound B → last'.data = last.data ++ bytes →
      last'.off = last.off + bytes.length →
      Added B buf bytes (0, (buf.setLast last').grow bytes.length) := by
    intro last' hs' hd' ho'
    obtain ⟨hsound, hlayout, hcontents⟩ := h.setLast hl hs' hd' ho'
    exact .appended hsound (tight_of_layout hlayout) hcontents rfl rfl rfl
  unfold Libevent.addToLast
  rw [hget]
  dsimp only
  rw [if_neg (by omega)]
  by_cases hfits : last.bufferLen - last.misalign - last.off ≥ bytes.length
  · rw [if_pos hfits]
    obtain ⟨last', hrun, hs', hd', ho'⟩ := hlast.append_ok bytes (by omega)
    exact ⟨_, by rw [hrun]; rfl, Or.inr ⟨by simp, done hs' hd' ho'⟩⟩
  rw [if_neg hfits]
  by_cases hre : evbufferChainShouldRealign last bytes.length = true
  · rw [if_pos hre]
    obtain ⟨last1, halign, hs1, hd1, ho1, hm1, hb1⟩ := EvbufferChain.align_ok hlast
    have hroom : last.bufferLen - last.off ≥ bytes.length := by
      unfold evbufferChainShouldRealign at hre
      exact (of_decide_eq_true hre).1
    obtain ⟨last', hrun, hs', hd', ho'⟩ := hs1.append_ok bytes (by omega)
    rw [halign, ok_bind, hrun]
    exact ⟨_, rfl, Or.inr ⟨by simp, done hs' (by rw [hd', hd1]) (by rw [ho', ho1])⟩⟩
  rw [if_neg hre]
  generalize (if last.bufferLen ≤ 4096 / 2 then 2 * last.bufferLen else last.bufferLen) = doubled
  generalize hwant : (if bytes.length > doubled then bytes.length else doubled) = wanted
  have hbig : bytes.length ≤ wanted := by
    rw [← hwant]
    split <;> omega
  cases hnew : evbufferChainNew B wanted memory with
  | none => exact ⟨_, rfl, Or.inl ⟨rfl, Nat.lt_of_not_le hfits⟩⟩
  | some tmp =>
    -- the last chain is filled up, the rest goes into a new chain
    obtain ⟨htmp, htoff, htmis, htlen⟩ := chainNew_sound hnew
    generalize hrem : last.bufferLen - last.misalign - last.off = remain at hfits ⊢
    have hremlen : (bytes.take remain).length = remain := by
      rw [List.length_take]
      omega
    obtain ⟨last', hrun, hs', hd', ho'⟩ :=
      hlast.append_ok (bytes.take remain) (by omega)
    obtain ⟨tmp', hrunt, hst, hdt, hot⟩ := htmp.append_ok (bytes.drop remain) (by
      rw [List.length_drop]
      omega)
    obtain ⟨hsound, hlayout, hcontents⟩ := h.setLast hl hs' hd' ho'
    rw [hremlen] at hsound hlayout hcontents
    have htmp0 : tmp'.off ≠ 0 := by
      rw [hot, htoff, List.length_drop]
      omega
    obtain ⟨buf', hins, hsound', htight', hcontents', hfs, hfe, hn⟩ :=
      hsound.insert hlayout hst htmp0
    dsimp only
    rw [hrun, ok_bind, hrunt, ok_bind, hins]
    refine ⟨_, rfl, Or.inr ⟨by simp, .appended (hsound'.congr rfl rfl rfl) htight' ?_ hfs hfe ?_⟩⟩
    · show buf'.contents = _
      have hdata0 : tmp.data = [] := by rw [EvbufferChain.data, htoff, slice_zero]
      rw [hcontents', hcontents, hdt, hdata0, List.nil_append, List.append_assoc,
        List.take_append_drop]
    · show buf'.nAddForCb + tmp'.off = _
      rw [hn, hot, htoff, List.length_drop]
      show buf.nAddForCb + remain + _ = _
      omega

/-- `evbuffer_add` appends the bytes or leaves the buffer as it is. -/
theorem Sound.add (h : buf.Sound B) (ht : buf.Tight) (bytes : List UInt8) (memory : Memory) :
    ∃ out, evbufferAdd B buf bytes memory = .ok out ∧ Added B buf bytes out := by
  unfold evbufferAdd
  by_cases hfe : buf.freezeEnd = true
  · exact ⟨_, if_pos hfe, .refused⟩
  rw [if_neg hfe]
  by_cases hmax : bytes.length > B.sizeMax - buf.totalLen
  · exact ⟨_, if_pos hmax, .refused⟩
  rw [if_neg hmax]
  by_cases hnil : buf.chains = []
  · rw [if_pos hnil]
    cases hnew : evbufferChainNew B bytes.length memory with
    | none => exact ⟨_, rfl, .refused⟩
    | some chain =>
      obtain ⟨hchain, hoff, hmis, hlen⟩ := chainNew_sound hnew
      have hslot : buf.lastWithDatap = 0 := by
        rcases h.layout with ⟨-, h0⟩ | ⟨front, last, rest, hl⟩
        · exact h0
        · rw [hl.chains] at hnil
          exact absurd hnil (by simp)
      have hdata0 : chain.data = [] := by rw [EvbufferChain.data, hoff, slice_zero]
      dsimp only
      rw [insert_first hnil hslot, ok_bind]
      generalize hbuf : { buf with totalLen := buf.totalLen + chain.off, chains := [chain] } = buf1
      have hlayout : Layout buf1 [] chain [] := by
        rw [← hbuf]
        exact ⟨rfl, hslot, by simp, fun hne => absurd rfl hne, by simp⟩
      have hsound : buf1.Sound B := by
        refine ⟨fun c hc => ?_, ?_, Or.inr ⟨_, _, _, hlayout⟩⟩
        · rw [hlayout.chains] at hc
          rw [List.mem_singleton.1 hc]
          exact hchain
        · rw [hlayout.chains, ← hbuf, h.total, hnil]
          simp
      have hcontents : buf1.contents = buf.contents := by
        unfold contents
        rw [hlayout.chains, hnil]
        simp [hdata0]
      -- a chain made for the bytes has the space for them
      obtain ⟨out, hrun, ⟨-, hlt⟩ | ⟨hne, hadd⟩⟩ := hsound.addToLast hlayout bytes memory
      · omega
      · refine ⟨out, hrun, ?_⟩
        cases hadd with
        | refused => exact absurd rfl hne
        | appended hs ht hc hfs hfe hn =>
          subst hbuf
          exact .appended hs ht (hc.trans (by rw [hcontents])) hfs hfe hn
  · rw [if_neg hnil]
    obtain ⟨front, last, hl⟩ := h.tight_layout ht hnil
    obtain ⟨out, hrun, ⟨rfl, -⟩ | ⟨-, hadd⟩⟩ := h.addToLast hl bytes memory
    · exact ⟨_, hrun, .refused⟩
    · exact ⟨out, hrun, hadd⟩

/-! ## `evbuffer_add_buffer` -/

/-- Everything moves to the end of the other buffer. -/
theorem Sound.addBuffer {outbuf inbuf : Evbuffer} (hout : outbuf.Sound B) (hin : inbuf.Sound B)
    (hfe : outbuf.freezeEnd = false) (hfs : inbuf.freezeStart = false) :
    ∃ outbuf' inbuf', evbufferAddBuffer outbuf inbuf = .ok (0, outbuf', inbuf') ∧
      outbuf'.Sound B ∧ inbuf'.Sound B ∧ outbuf'.contents = outbuf.contents ++ inbuf.contents ∧
      inbuf'.contents = [] ∧
      outbuf'.freezeStart = outbuf.freezeStart ∧ outbuf'.freezeEnd = outbuf.freezeEnd ∧
      inbuf'.freezeStart = inbuf.freezeStart ∧ inbuf'.freezeEnd = inbuf.freezeEnd ∧
      outbuf'.nAddForCb = outbuf.nAddForCb + inbuf.totalLen := by
  unfold evbufferAddBuffer
  by_cases h0 : inbuf.totalLen = 0
  · rw [if_pos h0]
    have hnil := hin.contents_eq_nil h0
    exact ⟨_, _, rfl, hout, hin, by rw [hnil, List.append_nil], hnil, rfl, rfl, rfl, rfl,
      by rw [h0, Nat.add_zero]⟩
  rw [if_neg h0, if_neg (by simp [hfe, hfs])]
  have hchains : ¬ (outbuf.totalLen ≠ 0 ∧ outbuf.chains = []) := by
    intro ⟨hne, hnil⟩
    exact hne (by rw [hout.total, hnil]; rfl)
  rw [if_neg hchains]
  by_cases hempty : outbuf.totalLen = 0
  · rw [if_pos hempty]
    refine ⟨_, _, rfl, hin.congr rfl rfl rfl, (sound_zeroChain inbuf).congr rfl rfl rfl, ?_, rfl,
      rfl, rfl, rfl, rfl, rfl⟩
    rw [hout.contents_eq_nil hempty, List.nil_append]
    rfl
  · rw [if_neg hempty]
    refine ⟨_, _, rfl, ⟨?_, ?_, ?_⟩, (sound_zeroChain inbuf).congr rfl rfl rfl, ?_, rfl, rfl, rfl,
      rfl, rfl, rfl⟩
    · intro c hc
      rcases List.mem_append.1 hc with hc | hc
      · exact hout.chains c hc
      · exact hin.chains c hc
    · show outbuf.totalLen + inbuf.totalLen = ((outbuf.chains ++ inbuf.chains).map _).sum
      rw [hout.total, hin.total, List.map_append, List.sum_append]
    · right
      obtain ⟨c, next, hcons, hoff⟩ := hout.head hempty
      rcases hin.layout with ⟨hnil, -⟩ | ⟨front, last, rest, hl⟩
      · exact absurd (by rw [hin.total, hnil]; rfl) h0
      · refine ⟨outbuf.chains ++ front, last, rest, ?_, ?_, hl.empty, fun _ => ?_, ?_⟩
        · show outbuf.chains ++ inbuf.chains = _
          rw [hl.chains, List.append_assoc]
        · show outbuf.chains.length + inbuf.lastWithDatap = _
          rw [hl.slot, List.length_append]
        · -- the chain is the only one with bytes, or behind one
          intro hlast
          cases front with
          | nil =>
            apply h0
            rw [hin.total, hl.chains, List.nil_append, List.map_cons, List.sum_cons, hlast,
              sum_off_empty hl.empty]
          | cons d front => exact hl.data (List.cons_ne_nil _ _) hlast
        · intro d hd
          rw [hcons] at hd
          obtain rfl : c = d := by simpa using hd
          exact hoff
    · show (outbuf.chains ++ inbuf.chains).flatMap _ = _
      rw [List.flatMap_append]
      rfl

end Evbuffer

end GameServer.Libevent
