/-
  What the buffer operations do to the bytes in a buffer, as long as it is `Sound`: the
  memory of each chain holds its bytes, `total_len` counts them, and no chain behind
  `*last_with_datap` has any. `evbuffer_drain` and `evbuffer_copyout` are `drop` and `take`
  on the contents, and none of the operations here ends the process.

  `evbuffer_add` writes to `buf->last`, which keeps a buffer sound only if that is also the
  chain `*last_with_datap`: the buffer is `Tight`.
-/
import GameServer.Libevent.Basic

namespace GameServer.Libevent

open Slice

theorem ok_bind {α β : Type} (a : α) (f : α → Except Fault β) : (Except.ok a >>= f) = f a := rfl

variable {B : Build}

/-! ## Chains -/

namespace EvbufferChain

variable {chain : EvbufferChain}

structure Sound (B : Build) (chain : EvbufferChain) : Prop where
  inside : chain.misalign + chain.off ≤ chain.bufferLen
  bounded : chain.bufferLen ≤ B.chainMax
  roomy : 0 < chain.bufferLen

theorem Sound.length_data (h : chain.Sound B) : chain.data.length = chain.off :=
  length_slice h.inside

theorem Sound.read_ok (h : chain.Sound B) {n : Nat} (hn : n ≤ chain.off) :
    chain.read n = .ok (chain.data.take n) := by
  have hin := h.inside
  unfold read data
  rw [if_pos (by omega), take_slice hn]

theorem Sound.read_all (h : chain.Sound B) : chain.read chain.off = .ok chain.data := by
  rw [h.read_ok (Nat.le_refl _), ← h.length_data, List.take_length]

/-- A copy behind the bytes of a chain that has the space. -/
theorem Sound.append_ok (h : chain.Sound B) (bytes : List UInt8)
    (hroom : chain.misalign + chain.off + bytes.length ≤ chain.bufferLen) :
    ∃ chain', chain.append bytes = .ok chain' ∧ chain'.Sound B ∧
      chain'.data = chain.data ++ bytes ∧ chain'.off = chain.off + bytes.length := by
  have hlen : (overwrite chain.buffer (chain.misalign + chain.off) bytes).length =
      chain.buffer.length := length_overwrite hroom
  refine ⟨⟨overwrite chain.buffer (chain.misalign + chain.off) bytes, chain.misalign,
    chain.off + bytes.length⟩, by rw [append, write, if_pos hroom]; rfl, ?_, ?_, rfl⟩
  · refine ⟨?_, ?_, ?_⟩
    · show chain.misalign + (chain.off + bytes.length) ≤ List.length _
      rw [hlen, ← Nat.add_assoc]
      exact hroom
    · show List.length _ ≤ _
      rw [hlen]
      exact h.bounded
    · show 0 < List.length _
      rw [hlen]
      exact h.roomy
  · exact slice_overwrite_append h.inside

theorem Sound.advance (h : chain.Sound B) {n : Nat} (hn : n ≤ chain.off) :
    let chain' : EvbufferChain :=
      { chain with misalign := chain.misalign + n, off := chain.off - n }
    chain'.Sound B ∧ chain'.data = chain.data.drop n := by
  have hin := h.inside
  refine ⟨⟨?_, h.bounded, h.roomy⟩, (drop_slice _ _ _ _).symm⟩
  show chain.misalign + n + (chain.off - n) ≤ chain.bufferLen
  omega

theorem align_ok (h : chain.Sound B) :
    ∃ chain', evbufferChainAlign chain = .ok chain' ∧ chain'.Sound B ∧
      chain'.data = chain.data ∧ chain'.off = chain.off ∧ chain'.misalign = 0 ∧
      chain'.bufferLen = chain.bufferLen := by
  have hin := h.inside
  have hroom : 0 + chain.data.length ≤ chain.bufferLen := by
    rw [h.length_data]
    omega
  have hlen : (overwrite chain.buffer 0 chain.data).length = chain.buffer.length :=
    length_overwrite hroom
  refine ⟨⟨overwrite chain.buffer 0 chain.data, 0, chain.off⟩,
    by rw [evbufferChainAlign, h.read_all, ok_bind, write, if_pos hroom]; rfl, ?_, ?_, rfl, rfl,
    hlen⟩
  · refine ⟨?_, ?_, ?_⟩
    · show 0 + chain.off ≤ List.length _
      rw [hlen, Nat.zero_add]
      exact Nat.le_trans (Nat.le_add_left _ _) hin
    · show List.length _ ≤ _
      rw [hlen]
      exact h.bounded
    · show 0 < List.length _
      rw [hlen]
      exact h.roomy
  · show slice (overwrite chain.buffer 0 chain.data) 0 chain.off = chain.data
    rw [← h.length_data]
    exact slice_overwrite (Nat.zero_le _)

end EvbufferChain

/-! ## New chains -/

theorem le_doubleUpTo (size fuel start : Nat) : start ≤ doubleUpTo size fuel start := by
  induction fuel generalizing start with
  | zero => exact Nat.le_refl _
  | succ fuel ih =>
    unfold doubleUpTo
    split
    · exact Nat.le_trans (by omega) (ih (2 * start))
    · exact Nat.le_refl _

theorem size_le_doubleUpTo {size fuel start : Nat} (h : size ≤ 2 ^ fuel * start) :
    size ≤ doubleUpTo size fuel start := by
  induction fuel generalizing start with
  | zero => simpa [doubleUpTo] using h
  | succ fuel ih =>
    unfold doubleUpTo
    split
    · apply ih
      rw [← Nat.mul_assoc, ← Nat.pow_succ]
      exact h
    · omega

theorem doubleUpTo_lt {size bound : Nat} (hsize : size < bound) (fuel : Nat) {start : Nat}
    (hstart : start < 2 * bound) : doubleUpTo size fuel start < 2 * bound := by
  induction fuel generalizing start with
  | zero => exact hstart
  | succ fuel ih =>
    unfold doubleUpTo
    split
    · exact ih (by omega)
    · exact hstart

/-- A chain has the space asked for, and no more than a chain may have. -/
theorem toAlloc_bounds {size : Nat} (h : size ≤ B.chainMax - B.chainSize) :
    size + B.chainSize ≤ toAlloc B (size + B.chainSize) ∧
      B.chainSize < toAlloc B (size + B.chainSize) ∧
      toAlloc B (size + B.chainSize) ≤ B.chainMax := by
  have hlt := B.chainSize_lt
  have hmin := B.minBufferSize_le
  have hmax := B.chainMax_le
  have h64 := B.sizeMax_lt
  unfold toAlloc
  split
  · next hsmall =>
    have hfuel : size + B.chainSize ≤ 2 ^ 64 * B.minBufferSize :=
      calc size + B.chainSize ≤ 2 ^ 64 := by omega
        _ ≤ 2 ^ 64 * B.minBufferSize := Nat.le_mul_of_pos_right _ (by omega)
    have hlow := le_doubleUpTo (size + B.chainSize) 64 B.minBufferSize
    have hstart : B.minBufferSize < 2 * (B.chainMax / 2) := by omega
    have hhigh := doubleUpTo_lt hsmall 64 hstart
    exact ⟨size_le_doubleUpTo hfuel, by omega, by omega⟩
  · next hlarge => exact ⟨Nat.le_refl _, by omega, by omega⟩

theorem chainNew_sound {size : Nat} {memory : Memory} {chain : EvbufferChain}
    (h : evbufferChainNew B size memory = some chain) :
    chain.Sound B ∧ chain.off = 0 ∧ chain.misalign = 0 ∧ size ≤ chain.bufferLen := by
  unfold evbufferChainNew at h
  split at h
  · exact absurd h (by simp)
  · next hsize =>
    obtain ⟨contents, -, rfl⟩ := Option.map_eq_some_iff.1 h
    obtain ⟨hfits, hpos, hmax⟩ := toAlloc_bounds (B := B) (Nat.le_of_not_lt hsize)
    have hlen : ((List.range (toAlloc B (size + B.chainSize) - B.chainSize)).map contents).length =
        toAlloc B (size + B.chainSize) - B.chainSize := by rw [List.length_map, List.length_range]
    refine ⟨⟨Nat.zero_le _, ?_, ?_⟩, rfl, rfl, ?_⟩
    · show List.length _ ≤ _
      rw [hlen]
      omega
    · show 0 < List.length _
      rw [hlen]
      omega
    · show _ ≤ List.length _
      rw [hlen]
      omega

/-! ## Buffers -/

/-- Where `last_with_datap` points: to the chain `last` behind `front`. The chains behind it
    are empty. -/
structure Layout (buf : Evbuffer) (front : List EvbufferChain) (last : EvbufferChain)
    (rest : List EvbufferChain) : Prop where
  chains : buf.chains = front ++ last :: rest
  slot : buf.lastWithDatap = front.length
  empty : ∀ c ∈ rest, c.off = 0
  data : front ≠ [] → last.off ≠ 0
  head : ∀ c ∈ front.head?, c.off ≠ 0

namespace Evbuffer

structure Sound (B : Build) (buf : Evbuffer) : Prop where
  chains : ∀ c ∈ buf.chains, c.Sound B
  total : buf.totalLen = (buf.chains.map EvbufferChain.off).sum
  layout : buf.chains = [] ∧ buf.lastWithDatap = 0 ∨
    ∃ front last rest, Layout buf front last rest

/-- No empty chain behind `*last_with_datap`. -/
def Tight (buf : Evbuffer) : Prop := buf.chains.length ≤ buf.lastWithDatap + 1

end Evbuffer

theorem length_flatMap_data {chains : List EvbufferChain} (h : ∀ c ∈ chains, c.Sound B) :
    (chains.flatMap EvbufferChain.data).length = (chains.map EvbufferChain.off).sum := by
  induction chains with
  | nil => rfl
  | cons c chains ih =>
    obtain ⟨hc, hrest⟩ := List.forall_mem_cons.1 h
    rw [List.flatMap_cons, List.length_append, List.map_cons, List.sum_cons, hc.length_data,
      ih hrest]

theorem sum_off_empty {chains : List EvbufferChain} (h : ∀ c ∈ chains, c.off = 0) :
    (chains.map EvbufferChain.off).sum = 0 := by
  induction chains with
  | nil => rfl
  | cons c chains ih =>
    obtain ⟨hc, hrest⟩ := List.forall_mem_cons.1 h
    rw [List.map_cons, List.sum_cons, hc, ih hrest]

theorem flatMap_data_empty {chains : List EvbufferChain} (h : ∀ c ∈ chains, c.off = 0) :
    chains.flatMap EvbufferChain.data = [] := by
  apply List.flatMap_eq_nil_iff.2
  intro c hc
  rw [EvbufferChain.data, h c hc, slice_zero]

namespace Evbuffer

variable {buf : Evbuffer}

theorem Sound.length_contents (h : buf.Sound B) : buf.contents.length = buf.totalLen := by
  rw [contents, length_flatMap_data h.chains, h.total]

theorem Sound.contents_eq_nil (h : buf.Sound B) (h0 : buf.totalLen = 0) : buf.contents = [] := by
  apply List.length_eq_zero_iff.1
  rw [h.length_contents, h0]

/-- A buffer that holds bytes has some in its first chain. -/
theorem Sound.head (h : buf.Sound B) (h0 : buf.totalLen ≠ 0) :
    ∃ c next, buf.chains = c :: next ∧ c.off ≠ 0 := by
  rcases h.layout with ⟨hnil, -⟩ | ⟨front, last, rest, hl⟩
  · exact absurd (by rw [h.total, hnil]; rfl) h0
  · cases front with
    | nil =>
      refine ⟨last, rest, hl.chains, fun hlast => h0 ?_⟩
      rw [h.total, hl.chains, List.nil_append, List.map_cons, List.sum_cons, hlast,
        sum_off_empty hl.empty]
    | cons c front =>
      exact ⟨c, front ++ last :: rest, hl.chains, hl.head c rfl⟩

theorem sound_zeroChain (buf : Evbuffer) : buf.zeroChain.Sound B :=
  ⟨fun _ hc => absurd hc List.not_mem_nil, rfl, Or.inl ⟨rfl, rfl⟩⟩

theorem sound_new : new.Sound B :=
  ⟨fun _ hc => absurd hc List.not_mem_nil, rfl, Or.inl ⟨rfl, rfl⟩⟩

/-- Soundness is about the chains, their count and `last_with_datap` only. -/
theorem Sound.congr (h : buf.Sound B) {buf' : Evbuffer} (hc : buf'.chains = buf.chains)
    (hs : buf'.lastWithDatap = buf.lastWithDatap) (ht : buf'.totalLen = buf.totalLen) :
    buf'.Sound B := by
  refine ⟨by rw [hc]; exact h.chains, by rw [ht, hc]; exact h.total, ?_⟩
  rcases h.layout with ⟨hnil, h0⟩ | ⟨front, last, rest, hl⟩
  · exact Or.inl ⟨by rw [hc, hnil], by rw [hs, h0]⟩
  · exact Or.inr ⟨front, last, rest, by rw [hc, hl.chains], by rw [hs, hl.slot], hl.empty,
      hl.data, hl.head⟩

end Evbuffer

/-! ## Draining -/

/-- The loop frees the chains that are drained as a whole. -/
theorem drainLoop_ok {chains : List EvbufferChain} {remaining : Nat} (i : Nat) {lwd : Nat}
    (hsum : remaining < (chains.map EvbufferChain.off).sum) (hlwd : lwd = 0 ∨ i ≤ lwd) :
    ∃ r freed chain next,
      drainLoop remaining i lwd chains = .ok (r, lwd - (i + freed.length), chain, next) ∧
      chains = freed ++ chain :: next ∧ r < chain.off ∧
      (freed.map EvbufferChain.off).sum + r = remaining := by
  induction chains generalizing remaining i lwd with
  | nil => exact absurd hsum (Nat.not_lt_zero _)
  | cons c chains ih =>
    unfold drainLoop
    by_cases hc : remaining ≥ c.off
    · rw [if_pos hc]
      dsimp only
      have hsum' : remaining - c.off < (chains.map EvbufferChain.off).sum := by
        rw [List.map_cons, List.sum_cons] at hsum
        omega
      -- after the two tests the slot is 0 or behind the freed chain
      generalize hlwd' : (if i + 1 = (if i = lwd then 0 else lwd) then 0
        else if i = lwd then 0 else lwd) = lwd'
      have hval : lwd' = 0 ∧ lwd ≤ i + 1 ∨ lwd' = lwd ∧ i + 1 ≤ lwd := by
        by_cases hi : i = lwd
        · rw [if_pos hi] at hlwd'
          split at hlwd' <;> omega
        · rw [if_neg hi] at hlwd'
          split at hlwd' <;> omega
      obtain ⟨r, freed, chain, next, hrun, hchains, hr, hfreed⟩ :=
        ih (i + 1) hsum' (show lwd' = 0 ∨ i + 1 ≤ lwd' by omega)
      refine ⟨r, c :: freed, chain, next, ?_, by rw [hchains]; rfl, hr, ?_⟩
      · rw [hrun, List.length_cons]
        congr 3
        omega
      · rw [List.map_cons, List.sum_cons]
        omega
    · rw [if_neg hc]
      exact ⟨remaining, [], c, chains, rfl, rfl, Nat.lt_of_not_le hc, Nat.zero_add _⟩

/-- Freeing chains from the front moves `last_with_datap` along with its chain. -/
theorem Layout.free {buf : Evbuffer} {front rest freed next : List EvbufferChain}
    {last chain : EvbufferChain} (h : Layout buf front last rest)
    (hchains : buf.chains = freed ++ chain :: next) (hdata : chain.off ≠ 0)
    {chain' : EvbufferChain} (hdata' : chain'.off ≠ 0) {buf' : Evbuffer}
    (hc : buf'.chains = chain' :: next)
    (hs : buf'.lastWithDatap = buf.lastWithDatap - freed.length) :
    ∃ front' last', Layout buf' front' last' rest := by
  rw [h.chains] at hchains
  rcases List.append_eq_append_iff.1 hchains with ⟨mid, hfreed, hmid⟩ | ⟨mid, hfront, hmid⟩
  · cases mid with
    | nil =>
      obtain ⟨rfl, rfl⟩ := List.cons.inj hmid
      refine ⟨[], chain', hc, ?_, h.empty, fun hne => absurd rfl hne, by simp⟩
      rw [hs, h.slot, hfreed, List.append_nil]
      exact Nat.sub_self _
    | cons c mid =>
      -- the chain holds bytes, so it is not behind `*last_with_datap`
      obtain ⟨-, hrest⟩ := List.cons.inj hmid
      exact absurd (h.empty chain (by rw [hrest]; simp)) hdata
  · cases mid with
    | nil =>
      obtain ⟨rfl, rfl⟩ := List.cons.inj hmid
      refine ⟨[], chain', hc, ?_, h.empty, fun hne => absurd rfl hne, by simp⟩
      rw [hs, h.slot, hfront, List.append_nil]
      exact Nat.sub_self _
    | cons c mid =>
      obtain ⟨rfl, hnext⟩ := List.cons.inj hmid
      refine ⟨chain' :: mid, last, by rw [hc, hnext]; rfl, ?_, h.empty,
        fun _ => h.data (by rw [hfront]; simp), by simpa using hdata'⟩
      rw [hs, h.slot, hfront, List.length_append]
      exact Nat.add_sub_cancel_left _ _

namespace Evbuffer

variable {buf : Evbuffer}

/-- `evbuffer_drain` takes so many bytes away from the front, or all of them. -/
theorem Sound.drain (h : buf.Sound B) (hstart : buf.freezeStart = false) (len : Nat) :
    ∃ buf', evbufferDrain buf len = .ok (0, buf') ∧ buf'.Sound B ∧
      buf'.contents = buf.contents.drop len ∧ (buf.Tight → buf'.Tight) ∧
      buf'.freezeStart = buf.freezeStart ∧ buf'.freezeEnd = buf.freezeEnd ∧
      buf'.nAddForCb = buf.nAddForCb := by
  unfold evbufferDrain
  by_cases h0 : buf.totalLen = 0
  · rw [if_pos h0]
    exact ⟨buf, rfl, h, by rw [h.contents_eq_nil h0, List.drop_nil], id, rfl, rfl, rfl⟩
  rw [if_neg h0, if_neg (by rw [hstart]; exact Bool.false_ne_true)]
  by_cases hall : len ≥ buf.totalLen
  · rw [if_pos hall]
    refine ⟨_, rfl, (sound_zeroChain buf).congr rfl rfl rfl, ?_, fun _ => Nat.zero_le _,
      rfl, rfl, rfl⟩
    rw [List.drop_eq_nil_of_le (by rw [h.length_contents]; exact hall)]
    rfl
  rw [if_neg hall]
  obtain ⟨r, freed, chain, next, hrun, hchains, hr, hfreed⟩ :=
    drainLoop_ok 0 (by rw [← h.total]; exact Nat.lt_of_not_le hall)
      (Or.inr (Nat.zero_le buf.lastWithDatap))
  have hmem : chain ∈ buf.chains := by rw [hchains]; simp
  obtain ⟨hsound, hdata⟩ := (h.chains chain hmem).advance (Nat.le_of_lt hr)
  rw [hrun, ok_bind]
  dsimp only
  rw [if_pos (Nat.le_of_lt hr)]
  have hlen : (freed.flatMap EvbufferChain.data).length = (freed.map EvbufferChain.off).sum :=
    length_flatMap_data fun c hc => h.chains c (by rw [hchains]; exact List.mem_append_left _ hc)
  let buf' : Evbuffer :=
    { buf with
      chains := { chain with misalign := chain.misalign + r, off := chain.off - r } :: next
      lastWithDatap := buf.lastWithDatap - (0 + freed.length)
      totalLen := buf.totalLen - len
      nDelForCb := buf.nDelForCb + len }
  refine ⟨buf', rfl, ⟨?_, ?_, ?_⟩, ?_, ?_, rfl, rfl, rfl⟩
  · intro c hc
    rcases List.mem_cons.1 hc with rfl | hc
    · exact hsound
    · exact h.chains c (by rw [hchains]; simp [hc])
  · show buf.totalLen - len = _ + (next.map EvbufferChain.off).sum
    rw [h.total, hchains]
    simp only [List.map_append, List.map_cons, List.sum_append, List.sum_cons]
    omega
  · right
    rcases h.layout with ⟨hnil, -⟩ | ⟨front, last, rest, hl⟩
    · rw [hnil] at hmem
      exact absurd hmem List.not_mem_nil
    · have hpos : chain.off - r ≠ 0 := by omega
      have hfree : ∃ front' last', Layout buf' front' last' rest :=
        hl.free hchains (by omega) hpos rfl (congrArg (buf.lastWithDatap - ·) (Nat.zero_add _))
      obtain ⟨front', last', hl'⟩ := hfree
      exact ⟨front', last', rest, hl'⟩
  · show (_ :: next).flatMap EvbufferChain.data = (buf.chains.flatMap EvbufferChain.data).drop len
    rw [hchains, List.flatMap_append, List.flatMap_cons, List.flatMap_cons, hdata, ← hfreed, ← hlen,
      List.drop_append, List.drop_eq_nil_of_le (Nat.le_add_right _ _), Nat.add_sub_cancel_left,
      List.nil_append, List.drop_append_of_le_length]
    rw [(h.chains chain hmem).length_data]
    exact Nat.le_of_lt hr
  · intro ht
    have hlength : buf.chains.length ≤ buf.lastWithDatap + 1 := ht
    rw [hchains, List.length_append, List.length_cons] at hlength
    show next.length + 1 ≤ buf.lastWithDatap - (0 + freed.length) + 1
    omega

end Evbuffer

/-! ## Copying out -/

theorem copyoutLoop_ok {chains : List EvbufferChain} (h : ∀ c ∈ chains, c.Sound B) {datlen : Nat}
    (hsum : datlen ≤ (chains.map EvbufferChain.off).sum) :
    copyoutLoop datlen chains = .ok ((chains.flatMap EvbufferChain.data).take datlen) := by
  induction chains generalizing datlen with
  | nil =>
    obtain rfl : datlen = 0 := Nat.le_zero.1 hsum
    rfl
  | cons c chains ih =>
    obtain ⟨hc, hrest⟩ := List.forall_mem_cons.1 h
    rw [List.map_cons, List.sum_cons] at hsum
    unfold copyoutLoop
    by_cases h0 : datlen = 0
    · rw [if_pos h0, h0, List.take_zero]
    rw [if_neg h0, List.flatMap_cons]
    by_cases hoff : datlen ≥ c.off
    · rw [if_pos hoff, hc.read_all, ok_bind]
      have hlast : ¬ (chains = [] ∧ datlen - c.off ≠ 0) := by
        intro ⟨hnil, hne⟩
        rw [hnil, List.map_nil, List.sum_nil] at hsum
        omega
      have htake : c.data.take datlen = c.data :=
        List.take_of_length_le (by rw [hc.length_data]; exact hoff)
      rw [if_neg hlast, ih hrest (by omega), List.take_append, htake, hc.length_data]
      rfl
    · have hle : datlen ≤ c.off := by omega
      rw [if_neg hoff, hc.read_ok hle,
        List.take_append_of_le_length (by rw [hc.length_data]; exact hle)]

namespace Evbuffer

variable {buf : Evbuffer}

theorem Sound.copyout (h : buf.Sound B) (hstart : buf.freezeStart = false) (datlen : Nat) :
    evbufferCopyout buf datlen =
      .ok ((buf.contents.take datlen).length, buf.contents.take datlen) := by
  have hmin : (if datlen ≥ buf.totalLen then buf.totalLen else datlen) =
      min datlen buf.contents.length := by
    rw [h.length_contents]
    split <;> omega
  unfold evbufferCopyout
  rw [hmin]
  dsimp only
  by_cases h0 : min datlen buf.contents.length = 0
  · have hnil : buf.contents.take datlen = [] := by
      rw [← List.length_eq_zero_iff, List.length_take, h0]
    rw [if_pos h0, hnil]
    rfl
  · have hle : min datlen buf.contents.length ≤ (buf.chains.map EvbufferChain.off).sum := by
      rw [← h.total, ← h.length_contents]
      exact Nat.min_le_right _ _
    rw [if_neg h0, if_neg (by rw [hstart]; exact Bool.false_ne_true),
      copyoutLoop_ok h.chains hle, ok_bind, List.length_take]
    show Except.ok (_, buf.contents.take _) = _
    rw [← List.take_eq_take_min]

/-- `evbuffer_remove` hands over the first bytes and drains them. -/
theorem Sound.remove (h : buf.Sound B) (hstart : buf.freezeStart = false) (datlen : Nat) :
    ∃ buf', evbufferRemove buf datlen =
        .ok ((buf.contents.take datlen).length, buf.contents.take datlen, buf') ∧
      buf'.Sound B ∧ buf'.contents = buf.contents.drop datlen ∧
      buf'.freezeStart = buf.freezeStart ∧ buf'.freezeEnd = buf.freezeEnd := by
  unfold evbufferRemove
  rw [h.copyout hstart, ok_bind]
  dsimp only
  by_cases h0 : ((buf.contents.take datlen).length : Int) > 0
  · rw [if_pos h0, Int.toNat_natCast]
    obtain ⟨buf', hdrain, hsound, hcontents, -, hfs, hfe, -⟩ :=
      h.drain hstart (buf.contents.take datlen).length
    refine ⟨buf', by rw [hdrain]; rfl, hsound, ?_, hfs, hfe⟩
    rw [hcontents, List.length_take]
    -- draining beyond the end is draining to the end
    rcases Nat.le_total datlen buf.contents.length with hle | hle
    · rw [Nat.min_eq_left hle]
    · rw [Nat.min_eq_right hle, List.drop_length, List.drop_eq_nil_of_le hle]
  · rw [if_neg h0]
    refine ⟨buf, rfl, h, ?_, rfl, rfl⟩
    rw [List.length_take] at h0
    rcases Nat.eq_zero_or_pos datlen with hz | hpos
    · rw [hz, List.drop_zero]
    · have hnil : buf.contents = [] := List.length_eq_zero_iff.1 (by omega)
      rw [hnil, List.drop_nil]

end Evbuffer

end GameServer.Libevent
