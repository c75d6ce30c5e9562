/-
  Bufferevents on a socket: `src/3rd/libevent/bufferevent_sock.c`, with what `bufferevent.c`
  adds to it. The callback of the program is not part of the functions here: `Next` says
  which one `bufferevent_readcb` or `bufferevent_writecb` makes.

  The daemons set no watermark, no timeout, no rate limit and no write callback, and do not
  use `bufferevent_socket_connect`; the branches for these are left out. The size of one read
  or write is then bounded by 16384 only. `adds` says whether `event_add` succeeds.

  `Sound`: both buffers are, and neither the program nor the library can touch the end of
  the input or the front of the output at the wrong time. `Flowing`: as long as there is
  something to write and writing is enabled, the event loop knows.
-/
import GameServer.Libevent.Appending
import GameServer.Libevent.Reading

namespace GameServer.Libevent

/-- `struct bufferevent` with its two events: `enabled` and which events are pending. -/
structure Bufferevent where
  input : Evbuffer
  output : Evbuffer
  readEnabled : Bool
  writeEnabled : Bool
  readPending : Bool
  writePending : Bool
  deriving DecidableEq, Repr

/-- `BEV_EVENT_READING`, `_WRITING`, `_EOF` and `_ERROR` -/
def bevEventReading : BitVec 16 := 0x01
def bevEventWriting : BitVec 16 := 0x02
def bevEventEof : BitVec 16 := 0x10
def bevEventError : BitVec 16 := 0x20

/-- The callback of the program that is made, and the bytes that a read brought. -/
inductive Next where
  | nothing
  | readcb (bytes : List UInt8)
  | eventcb (what : BitVec 16)
  deriving DecidableEq, Repr

/-- The bytes waiting at a socket. -/
def Arrived.pending : Arrived → List UInt8
  | .bytes pending _ => pending
  | _ => []

/-- The bytes that a read has brought. -/
def Next.bytes : Next → List UInt8
  | .readcb bytes => bytes
  | _ => []

namespace Bufferevent

/-- `bufferevent_socket_new` -/
def socketNew : Bufferevent :=
  ⟨evbufferFreeze .new false, evbufferFreeze .new true, false, true, false, false⟩

/-- `bufferevent_enable(bev, EV_READ|EV_WRITE)` -/
def enable (bev : Bufferevent) (adds : Bool) : Bufferevent :=
  { bev with
    readEnabled := true
    writeEnabled := true
    readPending := bev.readPending || adds
    writePending := bev.writePending || adds }

/-- `bufferevent_disable(bev, EV_READ)` -/
def disableRead (bev : Bufferevent) : Bufferevent :=
  { bev with readEnabled := false, readPending := false }

/-- `bufferevent_disable(bev, EV_WRITE)` -/
def disableWrite (bev : Bufferevent) : Bufferevent :=
  { bev with writeEnabled := false, writePending := false }

/-- `evbuffer_invoke_callbacks` for the input, which has none. -/
def inputChanged (bev : Bufferevent) : Bufferevent :=
  { bev with input := { bev.input with nAddForCb := 0, nDelForCb := 0 } }

/-- `evbuffer_invoke_callbacks` for the output: `bufferevent_socket_outbuf_cb`. -/
def outputChanged (bev : Bufferevent) (adds : Bool) : Bufferevent :=
  if bev.output.nAddForCb = 0 ∧ bev.output.nDelForCb = 0 then bev
  else
    let nAdded := bev.output.nAddForCb
    let bev := { bev with output := { bev.output with nAddForCb := 0, nDelForCb := 0 } }
    if nAdded ≠ 0 ∧ bev.writeEnabled ∧ ¬ bev.writePending then { bev with writePending := adds }
    else bev

end Bufferevent

/-- `bufferevent_readcb` for `EV_READ`, up to the callback of the program. `retriable` says
    what errno is after a read that failed. -/
def bufferevent_readcb (B : Build) (bev : Bufferevent) (readable : Int) (arrived : Arrived)
    (memory : Memory) (retriable : Bool) : Except Fault (Next × Bufferevent) := do
  let input := evbufferUnfreeze bev.input false
  let (res, input, bytes) ← evbufferRead B input readable 16384 arrived memory
  let input := evbufferFreeze input false
  let bev := { bev with input := input }.inputChanged
  if res = -1 then
    if retriable then return (.nothing, bev)
    else return (.eventcb (bevEventReading ||| bevEventError), bev.disableRead)
  else if res = 0 then return (.eventcb (bevEventReading ||| bevEventEof), bev.disableRead)
  else return (.readcb bytes, bev)

/-- `bufferevent_writecb` for `EV_WRITE`; also the bytes that were sent. -/
def bufferevent_writecb (bev : Bufferevent) (accepted : Accepted) (retriable : Bool) :
    Except Fault (Next × Bufferevent × List UInt8) := do
  if evbufferGetLength bev.output ≠ 0 then
    let output := evbufferUnfreeze bev.output true
    let (res, output, sent) ← evbufferWriteAtmost output 16384 accepted
    let output := evbufferFreeze output true
    let bev := { bev with output := output }.outputChanged false
    if res = -1 then
      if retriable then
        if evbufferGetLength bev.output = 0 then
          return (.nothing, { bev with writePending := false }, sent)
        else return (.nothing, bev, sent)
      else return (.eventcb (bevEventWriting ||| bevEventError), bev.disableWrite, sent)
    else if res = 0 then
      return (.eventcb (bevEventWriting ||| bevEventEof), bev.disableWrite, sent)
    else if evbufferGetLength bev.output = 0 then
      return (.nothing, { bev with writePending := false }, sent)
    else return (.nothing, bev, sent)
  else return (.nothing, { bev with writePending := false }, [])

/-- `bufferevent_write` -/
def bufferevent_write (B : Build) (bev : Bufferevent) (data : List UInt8) (memory : Memory)
    (adds : Bool) : Except Fault (Int × Bufferevent) := do
  let (result, output) ← evbufferAdd B bev.output data memory
  let bev := { bev with output := output }
  if result = -1 then return (-1, bev) else return (0, bev.outputChanged adds)

/-- `evbuffer_add_buffer(bufferevent_get_output(bev), bufferevent_get_input(bev))` -/
def addInputToOutput (bev : Bufferevent) (adds : Bool) : Except Fault (Int × Bufferevent) := do
  let (result, output, input) ← evbufferAddBuffer bev.output bev.input
  let changed := result = 0 ∧ bev.input.totalLen ≠ 0
  let bev := { bev with output := output, input := input }
  return (result, if changed then bev.inputChanged.outputChanged adds else bev)

/-- `evbuffer_remove(bufferevent_get_input(bev), data, datlen)` -/
def removeFromInput (bev : Bufferevent) (datlen : Nat) :
    Except Fault (Int × List UInt8 × Bufferevent) := do
  let (n, bytes, input) ← evbufferRemove bev.input datlen
  return (n, bytes, { bev with input := input }.inputChanged)

/-! ## Soundness -/

namespace Bufferevent

variable {B : Build} {bev : Bufferevent}

structure Closed (B : Build) (bev : Bufferevent) : Prop where
  input : bev.input.Sound B
  output : bev.output.Sound B
  inputStart : bev.input.freezeStart = false
  inputEnd : bev.input.freezeEnd = true
  outputStart : bev.output.freezeStart = true
  outputEnd : bev.output.freezeEnd = false

/-- `Closed`, and what was added to the output has been reported. -/
structure Sound (B : Build) (bev : Bufferevent) : Prop extends Closed B bev where
  reported : bev.output.nAddForCb = 0

/-- Something to write and writing enabled: the event for it is pending. -/
def Flowing (bev : Bufferevent) : Prop :=
  bev.output.contents ≠ [] → bev.writeEnabled = true → bev.writePending = true

/-- The event for writing is only ever pending while writing is enabled. -/
def Live (bev : Bufferevent) : Prop := bev.writePending = true → bev.writeEnabled = true

theorem sound_socketNew : socketNew.Sound B :=
  ⟨⟨Evbuffer.sound_new.congr rfl rfl rfl, Evbuffer.sound_new.congr rfl rfl rfl, rfl, rfl, rfl,
    rfl⟩, rfl⟩

/-- The events have no part in soundness. -/
theorem Sound.congr {bev' : Bufferevent} (h : bev.Sound B) (hi : bev'.input = bev.input)
    (ho : bev'.output = bev.output) : bev'.Sound B :=
  ⟨⟨hi ▸ h.input, ho ▸ h.output, hi ▸ h.inputStart, hi ▸ h.inputEnd, ho ▸ h.outputStart,
    ho ▸ h.outputEnd⟩, ho ▸ h.reported⟩

@[simp] theorem outputChanged_contents (bev : Bufferevent) (adds : Bool) :
    (bev.outputChanged adds).output.contents = bev.output.contents := by
  unfold outputChanged
  split
  · rfl
  · dsimp only
    split <;> rfl

@[simp] theorem outputChanged_input (bev : Bufferevent) (adds : Bool) :
    (bev.outputChanged adds).input = bev.input := by
  unfold outputChanged
  split
  · rfl
  · dsimp only
    split <;> rfl

@[simp] theorem outputChanged_readPending (bev : Bufferevent) (adds : Bool) :
    (bev.outputChanged adds).readPending = bev.readPending := by
  unfold outputChanged
  split
  · rfl
  · dsimp only
    split <;> rfl

@[simp] theorem outputChanged_writeEnabled (bev : Bufferevent) (adds : Bool) :
    (bev.outputChanged adds).writeEnabled = bev.writeEnabled := by
  unfold outputChanged
  split
  · rfl
  · dsimp only
    split <;> rfl

theorem outputChanged_live {adds : Bool} (h : bev.Live) : (bev.outputChanged adds).Live := by
  unfold outputChanged
  split
  · exact h
  · dsimp only
    split
    · next hc => exact fun _ => hc.2.1
    · exact h

theorem outputChanged_tight {adds : Bool} (h : bev.output.Tight) :
    (bev.outputChanged adds).output.Tight := by
  unfold outputChanged
  split
  · exact h
  · dsimp only
    split <;> exact h

/-- Reporting a change of the output keeps the buffers as they are. -/
theorem Closed.outputChanged (h : bev.Closed B) (adds : Bool) :
    (bev.outputChanged adds).Sound B := by
  unfold Bufferevent.outputChanged
  split
  · next h0 => exact ⟨h, h0.1⟩
  · have h' : ({ bev with output := { bev.output with nAddForCb := 0, nDelForCb := 0 } } :
        Bufferevent).Sound B :=
      ⟨⟨h.input, h.output.congr rfl rfl rfl, h.inputStart, h.inputEnd, h.outputStart,
        h.outputEnd⟩, rfl⟩
    dsimp only
    split
    · exact h'.congr rfl rfl
    · exact h'

/-- Added bytes make the event for writing pending. -/
theorem outputChanged_pending {adds : Bool} (hadds : adds = true)
    (hadded : bev.output.nAddForCb ≠ 0) (hen : bev.writeEnabled = true) :
    (bev.outputChanged adds).writePending = true := by
  unfold outputChanged
  rw [if_neg (fun h0 => hadded h0.1)]
  dsimp only
  split
  · exact hadds
  · next h => simpa [hadded, hen] using h

theorem outputChanged_of_none (hadded : bev.output.nAddForCb = 0) (adds : Bool) :
    (bev.outputChanged adds).writePending = bev.writePending := by
  unfold outputChanged
  split
  · rfl
  · dsimp only
    rw [if_neg (fun h => h.1 hadded)]

end Bufferevent

/-! ## What the callbacks of the library do -/

open Bufferevent

/-- `bufferevent_readcb`: new bytes at the end of the input and a call of the program, or no
    change of the bytes. The output is not touched. -/
structure ReadEvent (B : Build) (bev : Bufferevent) (next : Next) (bev' : Bufferevent) : Prop where
  sound : bev'.Sound B
  input : bev'.input.contents = bev.input.contents ++ next.bytes
  nonempty : ∀ bytes, next = .readcb bytes → bytes ≠ []
  output : bev'.output = bev.output
  readPending : bev'.readPending = true → bev.readPending = true
  writeEnabled : bev'.writeEnabled = bev.writeEnabled
  writePending : bev'.writePending = bev.writePending

theorem readcb_ok {bev : Bufferevent} (h : bev.Sound B) (readable : Int) (arrived : Arrived)
    (memory : Memory) (retriable : Bool) :
    ∃ next bev', bufferevent_readcb B bev readable arrived memory retriable = .ok (next, bev') ∧
      ReadEvent B bev next bev' ∧ next.bytes <+: arrived.pending := by
  have hin : (evbufferUnfreeze bev.input false).Sound B := h.input.congr rfl rfl rfl
  obtain ⟨out, hrun, hout⟩ :=
    hin.read rfl readable (show (16384 : Int) ≠ 0 by decide) arrived memory
  unfold bufferevent_readcb
  dsimp only
  rw [hrun, ok_bind]
  -- the input is frozen again, with the bytes that `hs` and `hc` say
  have done : ∀ {input : Evbuffer} {next : Next} {bev' : Bufferevent}, input.Sound B →
      input.freezeStart = false → input.contents = bev.input.contents ++ next.bytes →
      (∀ bytes, next = .readcb bytes → bytes ≠ []) →
      bev'.input = { evbufferFreeze input false with nAddForCb := 0, nDelForCb := 0 } →
      bev'.output = bev.output → (bev'.readPending = true → bev.readPending = true) →
      bev'.writeEnabled = bev.writeEnabled → bev'.writePending = bev.writePending →
      ReadEvent B bev next bev' := by
    intro input next bev' hs hfs hc hne hi ho hr he hp
    have hin : bev'.input.Sound B := by
      rw [hi]
      exact hs.congr rfl rfl rfl
    refine ⟨⟨⟨hin, ho ▸ h.output, by rw [hi]; exact hfs, by rw [hi]; rfl, ho ▸ h.outputStart,
      ho ▸ h.outputEnd⟩, ho ▸ h.reported⟩, by rw [hi]; exact hc, hne, ho, hr, he, hp⟩
  cases hout with
  | failed hs hsame =>
    have hfs := hsame.freezeStart.trans h.inputStart
    have hc := hsame.contents.trans (List.append_nil bev.input.contents).symm
    cases retriable with
    | true => exact ⟨_, _, rfl, done hs hfs hc (by simp) rfl rfl id rfl rfl, List.nil_prefix⟩
    | false =>
      exact ⟨_, _, rfl, done hs hfs hc (by simp) rfl rfl Bool.noConfusion rfl rfl,
        List.nil_prefix⟩
  | ended hs hsame =>
    have hfs := hsame.freezeStart.trans h.inputStart
    have hc := hsame.contents.trans (List.append_nil bev.input.contents).symm
    exact ⟨_, _, rfl, done hs hfs hc (by simp) rfl rfl Bool.noConfusion rfl rfl,
      List.nil_prefix⟩
  | @took pending bytes hne buf' hs hpos hpre hc hfs hfe =>
    have hlen := List.length_pos_iff.2 hpos
    dsimp only
    rw [if_neg (show ¬ (bytes.length : Int) = -1 by omega),
      if_neg (show ¬ (bytes.length : Int) = 0 by omega)]
    exact ⟨_, _, rfl, done hs (hfs.trans h.inputStart) hc
      (fun b hb => by injection hb with hb; exact hb ▸ hpos) rfl rfl id rfl rfl, hpre⟩

/-- `bufferevent_writecb`: what was sent comes off the front of the output. The input is not
    touched. -/
structure WriteEvent (B : Build) (bev bev' : Bufferevent) (sent : List UInt8) : Prop where
  sound : bev'.Sound B
  output : bev.output.contents = sent ++ bev'.output.contents
  input : bev'.input = bev.input
  readPending : bev'.readPending = bev.readPending
  flowing : bev.Flowing → bev'.Flowing
  live : bev.Live → bev'.Live
  disabled : bev.writeEnabled = false → bev'.writeEnabled = false

namespace WriteEvent

variable {bev bev' : Bufferevent} {sent : List UInt8}

/-- Without anything left to write its event can go. -/
theorem idle (h : WriteEvent B bev bev' sent) (h0 : bev'.output.totalLen = 0) :
    WriteEvent B bev { bev' with writePending := false } sent := by
  refine ⟨h.sound.congr rfl rfl, h.output, h.input, h.readPending, fun _ hne => ?_,
    fun _ => Bool.noConfusion, h.disabled⟩
  exact absurd (h.sound.output.contents_eq_nil h0) hne

theorem disable (h : WriteEvent B bev bev' sent) : WriteEvent B bev bev'.disableWrite sent := by
  refine ⟨h.sound.congr rfl rfl, h.output, h.input, h.readPending, fun _ _ hen => ?_,
    fun _ => Bool.noConfusion, fun _ => rfl⟩
  exact absurd hen Bool.false_ne_true

end WriteEvent

/-- A socket that takes something gets something. -/
structure Progress (bev : Bufferevent) (next : Next) (bev' : Bufferevent) (sent : List UInt8) :
    Prop where
  next : next = .nothing
  sent : sent ≠ []
  writeEnabled : bev'.writeEnabled = bev.writeEnabled

theorem writecb_ok {bev : Bufferevent} (h : bev.Sound B) (accepted : Accepted) (retriable : Bool) :
    ∃ next bev' sent, bufferevent_writecb bev accepted retriable = .ok (next, bev', sent) ∧
      WriteEvent B bev bev' sent ∧
      (∀ n, accepted = .upTo (n + 1) → bev.output.contents ≠ [] →
        Progress bev next bev' sent) := by
  unfold bufferevent_writecb
  by_cases h0 : evbufferGetLength bev.output ≠ 0
  · have hout : (evbufferUnfreeze bev.output true).Sound B := h.output.congr rfl rfl rfl
    have hne : (evbufferUnfreeze bev.output true).contents ≠ [] := by
      intro hnil
      apply h0
      rw [evbufferGetLength, ← h.output.length_contents]
      exact List.length_eq_zero_iff.2 hnil
    obtain ⟨out, hrun, hwrite⟩ := hout.write rfl hne (show (16384 : Int) ≠ 0 by decide) accepted
    rw [if_pos h0]
    dsimp only
    rw [hrun, ok_bind]
    -- the output is frozen again, and nothing was added to it
    have done : ∀ {output : Evbuffer} {sent : List UInt8}, output.Sound B →
        output.freezeEnd = false → output.nAddForCb = 0 →
        bev.output.contents = sent ++ output.contents →
        WriteEvent B bev (({ bev with output := evbufferFreeze output true } :
          Bufferevent).outputChanged false) sent := by
      intro output sent hs hfe hn hc
      have hclosed : ({ bev with output := evbufferFreeze output true } : Bufferevent).Closed B :=
        ⟨h.input, hs.congr rfl rfl rfl, h.inputStart, h.inputEnd, rfl, hfe⟩
      refine ⟨hclosed.outputChanged false, by rw [outputChanged_contents]; exact hc, by simp,
        by simp, ?_, fun hlive => outputChanged_live hlive, by simp⟩
      intro hflow hnil hen
      rw [outputChanged_contents] at hnil
      rw [outputChanged_writeEnabled] at hen
      rw [outputChanged_of_none hn]
      refine hflow ?_ hen
      rw [hc]
      intro happ
      exact hnil (List.append_eq_nil_iff.1 happ).2
    cases hwrite with
    | failed =>
      have hd := done hout h.outputEnd h.reported (List.nil_append _).symm
      have hno : ∀ {P : Prop} (n : Nat), Accepted.error = .upTo (n + 1) → P :=
        fun _ hn => Accepted.noConfusion hn
      dsimp only
      cases retriable with
      | true =>
        rw [if_pos rfl, if_pos rfl]
        split
        · next hz => exact ⟨_, _, _, rfl, hd.idle hz, fun n hn => hno n hn⟩
        · exact ⟨_, _, _, rfl, hd, fun n hn => hno n hn⟩
      | false => exact ⟨_, _, _, rfl, hd.disable, fun n hn => hno n hn⟩
    | nothing =>
      have hd := done hout h.outputEnd h.reported (List.nil_append _).symm
      refine ⟨_, _, _, rfl, hd.disable, fun n hn => ?_⟩
      injection hn with hn
      omega
    | @took n sent buf' hs hpos hle hc ht hfs hfe hn =>
      have hlen := List.length_pos_iff.2 hpos
      have hd := done hs (hfe.trans h.outputEnd) (hn.trans h.reported) hc
      dsimp only
      rw [if_neg (show ¬ (sent.length : Int) = -1 by omega),
        if_neg (show ¬ (sent.length : Int) = 0 by omega)]
      split
      · next hz => exact ⟨_, _, _, rfl, hd.idle hz, fun _ _ _ => ⟨rfl, hpos, by simp⟩⟩
      · exact ⟨_, _, _, rfl, hd, fun _ _ _ => ⟨rfl, hpos, by simp⟩⟩
  · rw [if_neg h0]
    have hz : bev.output.totalLen = 0 := Decidable.not_not.1 h0
    have hd : WriteEvent B bev bev [] := ⟨h, rfl, rfl, rfl, id, id, id⟩
    exact ⟨_, _, _, rfl, hd.idle hz, fun _ _ hne => absurd (h.output.contents_eq_nil hz) hne⟩

/-! ## What the calls of the program do -/

/-- The echo: everything in the input goes to the end of the output. -/
structure EchoEvent (B : Build) (adds : Bool) (bev bev' : Bufferevent) : Prop where
  sound : bev'.Sound B
  output : bev'.output.contents = bev.output.contents ++ bev.input.contents
  input : bev'.input.contents = []
  readPending : bev'.readPending = bev.readPending
  writeEnabled : bev'.writeEnabled = bev.writeEnabled
  flowing : adds = true → bev.Flowing → bev'.Flowing
  live : bev.Live → bev'.Live

theorem addInputToOutput_ok {bev : Bufferevent} (h : bev.Sound B) (adds : Bool) :
    ∃ bev', addInputToOutput bev adds = .ok (0, bev') ∧ EchoEvent B adds bev bev' := by
  obtain ⟨out, inp, hrun, hso, hsi, hout, hin, hofs, hofe, hifs, hife, hn⟩ :=
    h.output.addBuffer h.input h.outputEnd h.inputStart
  unfold addInputToOutput
  rw [hrun, ok_bind]
  dsimp only
  by_cases h0 : bev.input.totalLen = 0
  · have hnil := h.input.contents_eq_nil h0
    rw [if_neg (fun hc => hc.2 h0)]
    refine ⟨_, rfl, ⟨⟨hsi, hso, hifs.trans h.inputStart, hife.trans h.inputEnd,
      hofs.trans h.outputStart, hofe.trans h.outputEnd⟩, ?_⟩, hout, hin, rfl, rfl, ?_, id⟩
    · show out.nAddForCb = 0
      rw [hn, h.reported, h0]
    · intro _ hflow hne hen
      refine hflow (fun hb => hne ?_) hen
      show out.contents = []
      rw [hout, hb, hnil]
      rfl
  · rw [if_pos ⟨rfl, h0⟩]
    have hclosed : ({ bev with output := out, input := inp } : Bufferevent).inputChanged.Closed B :=
      ⟨hsi.congr rfl rfl rfl, hso, hifs.trans h.inputStart, hife.trans h.inputEnd,
        hofs.trans h.outputStart, hofe.trans h.outputEnd⟩
    refine ⟨_, rfl, hclosed.outputChanged adds, by rw [outputChanged_contents]; exact hout,
      by rw [outputChanged_input]; exact hin, by simp [inputChanged], by simp [inputChanged], ?_,
      fun hlive => outputChanged_live hlive⟩
    intro hadds _ _ hen
    rw [outputChanged_writeEnabled] at hen
    refine outputChanged_pending hadds ?_ hen
    show out.nAddForCb ≠ 0
    rw [hn]
    omega

theorem removeFromInput_ok {bev : Bufferevent} (h : bev.Sound B) (datlen : Nat) :
    ∃ bev', removeFromInput bev datlen =
        .ok ((bev.input.contents.take datlen).length, bev.input.contents.take datlen, bev') ∧
      bev'.Sound B ∧ bev'.input.contents = bev.input.contents.drop datlen ∧
      bev' = { bev with input := bev'.input } := by
  obtain ⟨inp, hrun, hs, hc, hfs, hfe⟩ := h.input.remove h.inputStart datlen
  unfold removeFromInput
  rw [hrun, ok_bind]
  exact ⟨_, rfl, ⟨⟨hs.congr rfl rfl rfl, h.output, hfs.trans h.inputStart, hfe.trans h.inputEnd,
    h.outputStart, h.outputEnd⟩, h.reported⟩, hc, rfl⟩

/-- `bufferevent_write` on an output that nothing was moved to. -/
theorem bufferevent_write_ok {bev : Bufferevent} (h : bev.Sound B) (ht : bev.output.Tight)
    (data : List UInt8) (memory : Memory) (adds : Bool) :
    ∃ result bev', bufferevent_write B bev data memory adds = .ok (result, bev') ∧ bev'.Sound B ∧
      bev'.input = bev.input ∧
      (result = -1 ∧ bev' = bev ∨
        result = 0 ∧ bev'.output.contents = bev.output.contents ++ data ∧ bev'.output.Tight ∧
          (adds = true → bev.Flowing → bev'.Flowing)) := by
  obtain ⟨out, hrun, hadd⟩ := h.output.add ht data memory
  unfold bufferevent_write
  rw [hrun, ok_bind]
  cases hadd with
  | refused => exact ⟨-1, bev, rfl, h, rfl, Or.inl ⟨rfl, rfl⟩⟩
  | @appended buf' hs htight hc hfs hfe hn =>
    have hclosed : ({ bev with output := buf' } : Bufferevent).Closed B :=
      ⟨h.input, hs, h.inputStart, h.inputEnd, hfs.trans h.outputStart, hfe.trans h.outputEnd⟩
    refine ⟨0, _, rfl, hclosed.outputChanged adds, by simp,
      Or.inr ⟨rfl, by rw [outputChanged_contents]; exact hc, ?_, ?_⟩⟩
    · exact outputChanged_tight htight
    · intro hadds hflow hne hen
      rw [outputChanged_contents] at hne
      rw [outputChanged_writeEnabled] at hen
      by_cases hnil : data = []
      · have hn0 : buf'.nAddForCb = 0 := by rw [hn, h.reported, hnil]; rfl
        rw [outputChanged_of_none hn0]
        refine hflow ?_ hen
        rwa [hc, hnil, List.append_nil] at hne
      · refine outputChanged_pending hadds ?_ hen
        show buf'.nAddForCb ≠ 0
        have := List.length_pos_iff.2 hnil
        rw [hn]
        omega

end GameServer.Libevent
