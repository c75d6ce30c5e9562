/-
  gamed logs in at gated: both processes and the connection between them.

  gamed connects, its `socket_init` writes one packet to the output of a bufferevent, and the
  event loop of gamed sends it in pieces. Whatever waits for gated at the other end is the
  next part of what was sent. Around this, clients come and go and send what they like.

  gated looks at what the first read brings and aborts on a second one. `login_safe`: what
  gated receives on that connection is a front part of the packet, and if it comes in one
  piece then nothing ends gated any more, in any interleaving: clients are let in only after
  it, and nothing follows it.
-/
import GameServer.Gated.Delivery

namespace GameServer.Gamed

open Runs Libevent Gated

/-- gamed's end of the connection: its bufferevent and what was sent on it. -/
structure Link where
  bev : Libevent.Bufferevent
  sent : List UInt8

/-- Both processes. gamed is `connected` once `net_connect` has returned; it has no `link`
    before that, and none when it died in `socket_init`. -/
structure System where
  gate : Gate
  link : Option Link
  connected : Bool

/-- `socket_init` from `net_new_connection` on: the result of `net_send_packet` and the link.
    A connection that could not be made is NULL, and `net_send_packet` reads `conn->bev`. -/
def socketInit (B : Build) (allocated adds : Bool) (memory : Memory) (adds' : Bool) :
    Except Fault (Int × Link) :=
  if allocated then do
    let (ret, bev) ← bufferevent_write B (Libevent.Bufferevent.socketNew.enable adds) gamedHello
      memory adds'
    return (ret, ⟨bev, []⟩)
  else .error .null

inductive Move where
  | socketInit (allocated adds : Bool) (memory : Memory) (adds' : Bool)
  | writable (accepted : Accepted) (retriable : Bool)
  | gate (o : Occurrence)

namespace System

def init : System := ⟨.init, none, false⟩

/-- What gamed has sent. -/
def sent (sys : System) : List UInt8 :=
  match sys.link with
  | none => []
  | some link => link.sent

/-- What the connection allows: gated accepts it once, and what waits there is part of what
    was sent. -/
def Allows (sys : System) : Occurrence → Prop
  | .accept .gamed _ _ _ =>
    sys.connected = true ∧ ∀ d ∈ sys.gate.descriptors, d.listener ≠ .gamed
  | .readable i r =>
    sys.gate.view.callbacksOf i = some .gamed →
      received sys.gate.history i ++ r.arrived.pending <+: sys.sent
  | _ => True

instance (sys : System) : (o : Occurrence) → Decidable (sys.Allows o)
  | .accept .gamed _ _ _ => inferInstanceAs (Decidable (_ ∧ _))
  | .accept .client _ _ _ => inferInstanceAs (Decidable True)
  | .acceptError _ => inferInstanceAs (Decidable True)
  | .readable _ _ => inferInstanceAs (Decidable (_ → _))
  | .writable _ _ _ => inferInstanceAs (Decidable True)

/-- A fault of gamed ends gamed, one of gated ends the run. -/
def step (B : Build) (sys : System) : Move → Except Fault System
  | .socketInit allocated adds memory adds' =>
    if sys.connected then .ok sys
    else
      match socketInit B allocated adds memory adds' with
      | .ok (_, link) => .ok { sys with link := some link, connected := true }
      | .error _ => .ok { sys with connected := true }
  | .writable accepted retriable =>
    match sys.link with
    | none => .ok sys
    | some link =>
      if link.bev.writePending then
        match bufferevent_writecb link.bev accepted retriable with
        | .ok (_, bev, sent) => .ok { sys with link := some ⟨bev, link.sent ++ sent⟩ }
        | .error _ => .ok { sys with link := none }
      else .ok sys
  | .gate o =>
    if sys.Allows o then do
      let gate ← sys.gate.step B o
      return { sys with gate := gate }
    else .ok sys

def run (B : Build) (sys : System) (moves : List Move) : Except Fault System :=
  moves.foldlM (step B) sys

end System

/-- What has arrived at gated, and at which bufferevent. -/
def arrivals (s : Daemon) : List (Nat × Arrival) :=
  s.history.filterMap fun e =>
    match e with
    | .data i a => some (i, a)
    | _ => none

/-- The packet of gamed arrives in one piece. -/
def Whole (s : Daemon) : Prop :=
  ∀ x ∈ arrivals s, s.callbacksOf x.1 = some .gamed → x.2.bytes = gamedHello

/-- Where gated tries to open the port for clients, the port can be bound. -/
def PortFree (s : Daemon) : Prop :=
  ∀ x ∈ arrivals s, s.callbacksOf x.1 = some .gamed → x.2.binds = true

instance (s : Daemon) : Decidable (Whole s) := inferInstanceAs (Decidable (∀ x ∈ _, _ → _))

instance (s : Daemon) : Decidable (PortFree s) := inferInstanceAs (Decidable (∀ x ∈ _, _ → _))

theorem mem_arrivals {s : Daemon} {i : Nat} {a : Arrival} :
    (i, a) ∈ arrivals s ↔ .data i a ∈ s.history := by
  unfold arrivals
  rw [List.mem_filterMap]
  constructor
  · rintro ⟨e, he, hx⟩
    cases e with
    | data j b =>
      obtain ⟨rfl, rfl⟩ := Prod.mk.inj (Option.some.inj hx)
      exact he
    | accept listener fd resources => cases hx
    | acceptError listener => cases hx
    | event bev what => cases hx
  · intro h
    exact ⟨_, h, rfl⟩

/-! ## gated before and after the login -/

/-- Nothing has arrived, and there is at most the connection from gamed. -/
structure Before (s : Daemon) : Prop where
  stopped : s.stopped = none
  opened : s.opened = 0
  alone : ∀ d ∈ s.descriptors, d.listener = .gamed
  unauthenticated : ∀ conn ∈ s.conns, conn.auth = authNone
  quiet : ∀ i, received s.history i = []
  linked : ∀ i, i < s.bevs.length → ∃ conn, s.gamedConn = some conn ∧ conn.bev = i

/-- The packet has arrived. -/
structure After (s : Daemon) : Prop where
  stopped : s.stopped = none
  opened : s.opened = 1
  descriptor : ∃ d ∈ s.descriptors, d.listener = .gamed
  hello : ∀ i, s.callbacksOf i = some .gamed → received s.history i = gamedHello
  authenticated : ∀ conn ∈ s.conns, conn.auth = authGamed → s.callbacksOf conn.bev = some .gamed

/-- What the connection allows, for the events of the daemon. -/
def Orderly (s : Daemon) : Event → Prop
  | .accept .gamed _ _ => ∀ d ∈ s.descriptors, d.listener ≠ .gamed
  | .data i a => s.callbacksOf i = some .gamed →
      received s.history i ++ a.bytes <+: gamedHello ∧ a.bytes = gamedHello ∧ a.binds = true
  | _ => True

theorem callback_descriptors (s : Daemon) (l : Listener) (fd : Int) (r : Resources) :
    (s.callback (.accept l fd r)).descriptors = ⟨fd, l⟩ :: s.descriptors := by
  have h := congrArg Wiring.descriptors (wiring_accept s l fd r)
  cases r <;> exact h

/-- The overlay of the whole packet: command and length are those of gamed. -/
theorem overlay_hello (old : List UInt8) :
    overlay (gamedHello.take sizeofAuthPacket) old = ⟨authGamed, sizeofAuthPacket⟩ := by
  have hlen : (gamedHello.take sizeofAuthPacket).length = sizeofAuthPacket := by decide
  rw [overlay_full hlen]
  decide

section Stage

variable {s : Daemon} {e : Event}

/-- A bufferevent is on an open descriptor of the same listener. -/
theorem descriptor_of_bev (hw : Wired s) {i : Nat} {l : Listener} (h : s.callbacksOf i = some l) :
    ∃ d ∈ s.descriptors, d.listener = l := by
  rw [callbacksOf_wiring] at h
  obtain ⟨b, hb, rfl⟩ := Option.map_eq_some_iff.1 h
  exact ⟨_, hw.bevs_open b (List.mem_of_getElem? hb), rfl⟩

theorem callbacksOf_step_iff (he : ∀ l fd r, e ≠ .accept l fd r) (i : Nat) :
    (s.step e).callbacksOf i = s.callbacksOf i := by
  by_cases hen : Enabled s e
  · rw [callbacksOf_wiring, callbacksOf_wiring, step_wiring hen]
    cases e with
    | accept l fd r => exact absurd rfl (he l fd r)
    | acceptError l => rfl
    | data j a => rfl
    | event j what => rfl
  · rw [step_disabled hen]

/-- A callback that leaves the connections, the service and the process as they are. -/
theorem Before.idle (h : Before s) (hen : Enabled s e) (hcall : s.callback e = s ∨
    s.callback e = s.loopExit) (hdata : ∀ i, received (e :: s.history) i = received s.history i) :
    Before (s.step e) := by
  have hquiet : ∀ i, received (e :: s.history) i = [] := fun i => (hdata i).trans (h.quiet i)
  rw [step_enabled hen]
  rcases hcall with hcall | hcall <;> rw [hcall] <;>
    exact ⟨h.stopped, h.opened, h.alone, h.unauthenticated, hquiet, h.linked⟩

theorem After.idle (h : After s) (hen : Enabled s e) (hcall : s.callback e = s ∨
    s.callback e = s.loopExit) (hdata : ∀ i, received (e :: s.history) i = received s.history i) :
    After (s.step e) := by
  have hhello : ∀ i, s.callbacksOf i = some .gamed → received (e :: s.history) i = gamedHello :=
    fun i hi => (hdata i).trans (h.hello i hi)
  rw [step_enabled hen]
  rcases hcall with hcall | hcall <;> rw [hcall] <;>
    exact ⟨h.stopped, h.opened, h.descriptor, hhello, h.authenticated⟩

theorem callback_acceptError (s : Daemon) (l : Listener) :
    s.callback (.acceptError l) = s ∨ s.callback (.acceptError l) = s.loopExit := by
  cases l
  · exact Or.inr rfl
  · exact Or.inl rfl

theorem callback_event (s : Daemon) (i : Nat) (what : BitVec 16) :
    s.callback (.event i what) = s ∨ s.callback (.event i what) = s.loopExit := by
  simp only [Daemon.callback]
  split
  · exact Or.inr rfl
  · exact Or.inl rfl
  · exact Or.inl rfl

/-- The first connection from gamed. -/
theorem Before.accept (hw : Wired s) (h : Before s) {fd : Int} {r : Resources}
    (hen : Enabled s (.accept .gamed fd r)) (hok : ∀ d ∈ s.descriptors, d.listener ≠ .gamed) :
    Before (s.step (.accept .gamed fd r)) := by
  have hnone : s.descriptors = [] :=
    List.eq_nil_iff_forall_not_mem.2 fun d hd => hok d hd (h.alone d hd)
  have hbevs : s.bevs.length = 0 := by
    rw [bevs_length, List.length_eq_zero_iff]
    refine List.eq_nil_iff_forall_not_mem.2 fun b hb => ?_
    have hd : _ ∈ s.descriptors := hw.bevs_open b hb
    rw [hnone] at hd
    exact List.not_mem_nil hd
  have hdesc := callback_descriptors s .gamed fd r
  rw [step_enabled hen]
  refine ⟨?_, ?_, ?_, ?_, fun i => h.quiet i, ?_⟩
  · cases r <;> exact h.stopped
  · cases r <;> exact h.opened
  · intro d hd
    have hd : d ∈ (s.callback (.accept .gamed fd r)).descriptors := hd
    rw [hdesc, hnone] at hd
    rw [List.mem_singleton.1 hd]
  · intro conn hconn
    cases r with
    | both =>
      rcases List.mem_append.1 hconn with hold | hnew
      · exact h.unauthenticated conn hold
      · rw [List.mem_singleton.1 hnew]
    | noMemory => exact h.unauthenticated conn hconn
    | noBufferevent => exact h.unauthenticated conn hconn
  · intro i hi
    cases r with
    | both =>
      -- the new connection is the only one, and the link is set to it
      have hi : i < (s.bevs ++ [(⟨fd, .gamed, [], []⟩ : Gated.Bufferevent)]).length := hi
      rw [List.length_append, hbevs, List.length_singleton] at hi
      refine ⟨⟨fd, authNone, s.bevs.length⟩, ?_, show s.bevs.length = i by omega⟩
      show (some s.conns.length).bind ((s.conns ++ [_])[·]?) = _
      rw [Option.bind_some, List.getElem?_concat_length]
    | noMemory =>
      have hi : i < s.bevs.length := hi
      omega
    | noBufferevent =>
      have hi : i < s.bevs.length := hi
      omega

/-- The packet arrives: gated takes it, and opens the port for clients. -/
theorem Before.data (hw : Wired s) (hm : Mirrored s) (h : Before s) {i : Nat} {a : Arrival}
    (hen : Enabled s (.data i a)) (hok : Orderly s (.data i a)) :
    After (s.step (.data i a)) := by
  have hlt : i < s.bevs.length := hen.2
  obtain ⟨conn, hconn, rfl⟩ := h.linked i hlt
  obtain ⟨g, -, hc⟩ := Option.bind_eq_some_iff.1 hconn
  have hauth := h.unauthenticated conn (List.mem_of_getElem? hc)
  -- there is no other connection
  have honly : ∀ j, j < s.bevs.length → j = conn.bev := by
    intro j hj
    obtain ⟨conn', hconn', rfl⟩ := h.linked j hj
    rw [Option.some.inj (hconn.symm.trans hconn')]
  have hl : s.callbacksOf conn.bev = some .gamed := by
    rcases callbacksOf_cases hlt with hl | hl
    · exact hl
    · obtain ⟨d, hd, hclient⟩ := descriptor_of_bev hw hl
      rw [h.alone d hd] at hclient
      cases hclient
  obtain ⟨-, hbytes, hbinds⟩ := hok hl
  obtain ⟨b, hb⟩ : ∃ b, s.bevs[conn.bev]? = some b := ⟨_, List.getElem?_eq_getElem hlt⟩
  have hempty : b.input = [] := by
    have hmirror := hm conn.bev b hb
    have hlb : b.callbacks = .gamed := Option.some.inj ((callbacksOf_eq hb).symm.trans hl)
    unfold Bufferevent.Mirrors at hmirror
    rw [hlb, h.quiet] at hmirror
    exact List.suffix_nil.1 hmirror.1
  have hcmd : (overlay ((s.receive conn.bev a.bytes).removable conn.bev) a.residue).cmd =
      authGamed := by
    have hfound : (s.receive conn.bev a.bytes).removable conn.bev =
        gamedHello.take sizeofAuthPacket := by
      unfold Daemon.removable
      rw [receive_getElem?, hb, Option.map_some, hempty, if_pos rfl, hbytes]
      rfl
    rw [hfound, overlay_hello]
  have hcall : s.callback (.data conn.bev a) = openClientService
      (((s.receive conn.bev a.bytes).removeInput conn.bev).setAuth authGamed) a.binds := by
    have hconn' : (s.receive conn.bev a.bytes).gamedConn = some conn := hconn
    rw [callback_gamedData a hl, gamedReadCb_admits hconn' hauth conn.bev hcmd]
  have hw' := wired_step s (.data conn.bev a) hw
  have hsame : ∀ j, (s.step (.data conn.bev a)).callbacksOf j = s.callbacksOf j :=
    callbacksOf_step_iff (fun _ _ _ => Event.noConfusion)
  have hlen : (s.step (.data conn.bev a)).bevs.length = s.bevs.length := by
    rw [bevs_length, bevs_length, step_wiring hen]
  have hat : ∀ j, (s.step (.data conn.bev a)).callbacksOf j = some .gamed →
      j = conn.bev := by
    intro j hj
    obtain ⟨b', hb', -⟩ := Option.map_eq_some_iff.1 hj
    exact honly j (hlen ▸ (List.getElem?_eq_some_iff.1 hb').1)
  refine ⟨?_, ?_, ?_, ?_, ?_⟩
  · rw [step_enabled hen]
    show (s.callback (.data conn.bev a)).stopped = none
    rw [hcall, openClientService_stopped, hbinds, if_pos rfl, setAuth_stopped]
    exact h.stopped
  · rw [step_enabled hen]
    show (s.callback (.data conn.bev a)).opened = 1
    rw [hcall, openClientService_opened, setAuth_opened]
    exact congrArg (· + 1) h.opened
  · exact descriptor_of_bev hw' ((hsame conn.bev).trans hl)
  · intro j hj
    rw [step_history hen, received_data, hat j hj, h.quiet, if_pos rfl, List.nil_append, hbytes]
  · intro conn' hconn' _
    obtain ⟨j, hj⟩ := List.getElem?_of_mem hconn'
    obtain ⟨rfl, b', hb', -⟩ := hw'.bev_of_conn hj
    rw [hsame, honly conn'.bev (hlen ▸ (List.getElem?_eq_some_iff.1 hb').1)]
    exact hl

theorem Before.step (hw : Wired s) (hm : Mirrored s) (h : Before s) (hen : Enabled s e)
    (hok : Orderly s e) : Before (s.step e) ∨ After (s.step e) := by
  cases e with
  | accept l fd r =>
    cases l with
    | gamed => exact Or.inl (h.accept hw hen hok)
    | client =>
      have hpos := hen.2.2 rfl
      rw [h.opened] at hpos
      exact absurd hpos (Nat.lt_irrefl 0)
  | acceptError l => exact Or.inl (h.idle hen (callback_acceptError s l) fun _ => rfl)
  | data i a => exact Or.inr (h.data hw hm hen hok)
  | event i what => exact Or.inl (h.idle hen (callback_event s i what) fun _ => rfl)

/-- After the login there is no more data from gamed, and clients cannot end the process. -/
theorem After.step (h : After s) (hen : Enabled s e) (hok : Orderly s e) : After (s.step e) := by
  cases e with
  | accept l fd r =>
    cases l with
    | gamed =>
      obtain ⟨d, hd, hl⟩ := h.descriptor
      exact absurd hl (hok d hd)
    | client =>
      obtain ⟨d, hd, hl⟩ := h.descriptor
      have hgamed : ∀ i, (s.step (.accept .client fd r)).callbacksOf i = some .gamed →
          s.callbacksOf i = some .gamed := by
        intro i hi
        rw [callbacksOf_wiring, step_wiring hen] at hi
        rw [callbacksOf_wiring]
        cases r with
        | both =>
          have hi : ((s.wiring.bevs ++ [(fd, .client)])[i]?).map Prod.snd = some .gamed := hi
          by_cases hlt : i < s.wiring.bevs.length
          · rwa [List.getElem?_append_left hlt] at hi
          · rw [List.getElem?_append_right (Nat.le_of_not_lt hlt)] at hi
            obtain ⟨b, hb, hsnd⟩ := Option.map_eq_some_iff.1 hi
            rw [(ListUpdate.singleton_cases hb).2] at hsnd
            cases hsnd
        | noMemory => exact hi
        | noBufferevent => exact hi
      have hauth : ∀ conn ∈ (s.callback (.accept .client fd r)).conns, conn.auth = authGamed →
          (s.step (.accept .client fd r)).callbacksOf conn.bev = some .gamed := by
        intro conn hconn ha
        have hold : conn ∈ s.conns := by
          cases r with
          | both =>
            rcases List.mem_append.1 hconn with hold | hnew
            · exact hold
            · rw [List.mem_singleton.1 hnew] at ha
              have ha : authNone = authGamed := ha
              exact absurd ha (by decide)
          | noMemory => exact hconn
          | noBufferevent => exact hconn
        exact callbacksOf_step (h.authenticated conn hold ha) _
      rw [step_enabled hen] at hgamed hauth ⊢
      refine ⟨?_, ?_, ⟨d, ?_, hl⟩, fun i hi => h.hello i (hgamed i hi), hauth⟩
      · cases r <;> exact h.stopped
      · cases r <;> exact h.opened
      · show d ∈ (s.callback (.accept .client fd r)).descriptors
        rw [callback_descriptors]
        exact List.mem_cons_of_mem _ hd
  | acceptError l => exact h.idle hen (callback_acceptError s l) fun _ => rfl
  | data i a =>
    rcases callbacksOf_cases (show i < s.bevs.length from hen.2) with hl | hl
    · -- gamed has nothing more to say
      have hpre := (hok hl).1
      rw [h.hello i hl] at hpre
      have hlen := hpre.length_le
      rw [List.length_append] at hlen
      exact absurd (List.length_eq_zero_iff.1 (by omega)) a.nonempty
    · have hsame : ∀ j, (s.step (.data i a)).callbacksOf j = s.callbacksOf j :=
        callbacksOf_step_iff (fun _ _ _ => Event.noConfusion)
      have hcall := callback_clientData a hl
      have hhello : ∀ j, (s.step (.data i a)).callbacksOf j = some .gamed →
          received (.data i a :: s.history) j = gamedHello := by
        intro j hj
        rw [hsame] at hj
        have hij : i ≠ j := by
          rintro rfl
          rw [hl] at hj
          cases hj
        rw [received_data, if_neg hij, List.append_nil, h.hello j hj]
      have hauth : ∀ conn ∈ s.conns, conn.auth = authGamed →
          (s.step (.data i a)).callbacksOf conn.bev = some .gamed :=
        fun conn hconn ha => (hsame _).trans (h.authenticated conn hconn ha)
      rw [step_enabled hen] at hhello hauth ⊢
      rw [hcall] at hhello hauth ⊢
      exact ⟨h.stopped, h.opened, h.descriptor, hhello, hauth⟩
  | event i what => exact h.idle hen (callback_event s i what) fun _ => rfl

end Stage

/-! ## Both processes -/

/-- What every interleaving keeps. -/
structure Inv (B : Build) (sys : System) : Prop where
  faithful : Faithful B sys.gate
  link : ∀ link, sys.link = some link →
    link.bev.Sound B ∧ link.sent ++ link.bev.output.contents <+: gamedHello
  fresh : sys.connected = false → sys.link = none
  arrived : ∀ i, sys.gate.view.callbacksOf i = some .gamed →
    received sys.gate.history i <+: sys.sent
  stage : Whole sys.gate.view → PortFree sys.gate.view → Before sys.gate.view ∨ After sys.gate.view

section System

variable {B : Build} {sys : System}

theorem Inv.sent_prefix (h : Inv B sys) : sys.sent <+: gamedHello := by
  unfold System.sent
  cases hl : sys.link with
  | none => exact List.nil_prefix
  | some link => exact (List.prefix_append _ _).trans (h.link link hl).2

theorem Inv.socketInit (h : Inv B sys) (allocated adds : Bool) (memory : Memory) (adds' : Bool) :
    ∃ sys', sys.step B (.socketInit allocated adds memory adds') = .ok sys' ∧ Inv B sys' := by
  unfold System.step
  dsimp only
  by_cases hc : sys.connected = true
  · rw [if_pos hc]
    exact ⟨sys, rfl, h⟩
  · rw [if_neg hc]
    have hnone := h.fresh (Bool.of_not_eq_true hc)
    have hnothing : sys.sent = [] := by
      unfold System.sent
      rw [hnone]
    have harrived : ∀ i, sys.gate.view.callbacksOf i = some .gamed →
        received sys.gate.history i <+: [] := by
      intro i hi
      have := h.arrived i hi
      rwa [hnothing] at this
    unfold Gamed.socketInit
    cases allocated with
    | false =>
      refine ⟨_, rfl, h.faithful, fun link hl => ?_, fun h => Bool.noConfusion h, h.arrived,
        h.stage⟩
      have hl : sys.link = some link := hl
      rw [hnone] at hl
      cases hl
    | true =>
      -- a bufferevent just made has nothing in its output
      have hnew : (Libevent.Bufferevent.socketNew.enable adds).Sound B :=
        Libevent.Bufferevent.sound_socketNew.congr rfl rfl
      obtain ⟨ret, bev, hrun, hsound, -, hwrote⟩ :=
        bufferevent_write_ok hnew (Nat.zero_le _) gamedHello memory adds'
      rw [if_pos rfl, hrun, ok_bind]
      refine ⟨_, rfl, h.faithful, fun link hl => ?_, fun h => Bool.noConfusion h, harrived,
        h.stage⟩
      obtain rfl := Option.some.inj hl
      refine ⟨hsound, ?_⟩
      rcases hwrote with ⟨-, rfl⟩ | ⟨-, hout, -⟩
      · exact List.nil_prefix
      · show [] ++ bev.output.contents <+: gamedHello
        rw [hout]
        exact List.prefix_refl _

theorem Inv.writable (h : Inv B sys) (accepted : Accepted) (retriable : Bool) :
    ∃ sys', sys.step B (.writable accepted retriable) = .ok sys' ∧ Inv B sys' := by
  unfold System.step
  dsimp only
  cases hl : sys.link with
  | none => exact ⟨sys, rfl, h⟩
  | some link =>
    obtain ⟨hsound, hpre⟩ := h.link link hl
    dsimp only
    by_cases hp : link.bev.writePending = true
    · obtain ⟨next, bev, sent, hrun, hwrite, -⟩ := writecb_ok hsound accepted retriable
      rw [if_pos hp, hrun]
      have hgrows : sys.sent <+: link.sent ++ sent := by
        unfold System.sent
        rw [hl]
        exact List.prefix_append _ _
      refine ⟨_, rfl, h.faithful, fun link' hl' => ?_, fun hc => ?_,
        fun i hi => (h.arrived i hi).trans hgrows, h.stage⟩
      · obtain rfl := Option.some.inj hl'
        refine ⟨hwrite.sound, ?_⟩
        show (link.sent ++ sent) ++ bev.output.contents <+: gamedHello
        rwa [List.append_assoc, ← hwrite.output]
      · rw [h.fresh hc] at hl
        cases hl
    · rw [if_neg hp]
      exact ⟨sys, rfl, h⟩

theorem quiet_of_faithful {g : Gate} (h : Faithful B g) : Quiet g.view := by
  have hinit : Quiet .init := fun _ _ => rfl
  have hstep : ∀ s e, Quiet s → Quiet (s.step e) := fun _ e hq => quiet_step hq e
  rw [← h.run]
  exact exec_inv_all hstep hinit _

theorem mirrored_of_faithful {g : Gate} (h : Faithful B g) : Mirrored g.view :=
  h.run ▸ mirrored_exec _

theorem arrivals_of_step {s : Daemon} (e : Event) {x : Nat × Arrival} (hx : x ∈ arrivals s) :
    x ∈ arrivals (s.step e) := by
  have ha := mem_arrivals.1 hx
  refine mem_arrivals.2 ?_
  by_cases hen : Enabled s e
  · rw [step_history hen]
    exact List.mem_cons_of_mem e ha
  · rwa [step_disabled hen]

theorem Whole.of_step {s : Daemon} {e : Event} (h : Whole (s.step e)) : Whole s :=
  fun x hx hl => h x (arrivals_of_step e hx) (callbacksOf_step hl e)

theorem PortFree.of_step {s : Daemon} {e : Event} (h : PortFree (s.step e)) : PortFree s :=
  fun x hx hl => h x (arrivals_of_step e hx) (callbacksOf_step hl e)

/-- What arrives in a step that the connection allows is part of what was sent. -/
theorem Inv.arrived_step (h : Inv B sys) {o : Occurrence} (hallows : sys.Allows o) {e : Event}
    (hy : o.Yields e) (hen : Enabled sys.gate.view e) {i : Nat}
    (hi : (sys.gate.view.step e).callbacksOf i = some .gamed) :
    received (sys.gate.view.step e).history i <+: sys.sent := by
  have hold : received sys.gate.history i <+: sys.sent := by
    by_cases hlt : i < sys.gate.view.bevs.length
    · refine h.arrived i ?_
      rcases callbacksOf_cases hlt with hl | hl
      · exact hl
      · have hclient := callbacksOf_step hl e
        rw [hi] at hclient
        cases hclient
    · have hnone : received sys.gate.history i = [] :=
        quiet_of_faithful h.faithful i (Nat.le_of_not_lt hlt)
      rw [hnone]
      exact List.nil_prefix
  rw [step_history hen]
  cases hy with
  | @data j r bytes hne hpre =>
    rw [received_data]
    by_cases hij : j = i
    · subst hij
      have hl : sys.gate.view.callbacksOf j = some .gamed :=
        (callbacksOf_step_iff (fun _ _ _ => Event.noConfusion) j).symm.trans hi
      rw [if_pos rfl]
      exact (List.prefix_append_right_inj _ |>.2 hpre).trans (hallows hl)
    · rw [if_neg hij, List.append_nil]
      exact hold
  | accept l fd r adds => exact hold
  | acceptError l => exact hold
  | readEvent j r what => exact hold
  | writeEvent j accepted retriable what => exact hold

theorem Inv.orderly (h : Inv B sys) {o : Occurrence} (hallows : sys.Allows o) {e : Event}
    (hy : o.Yields e) (hen : Enabled sys.gate.view e) (hwhole : Whole (sys.gate.view.step e))
    (hfree : PortFree (sys.gate.view.step e)) :
    Orderly sys.gate.view e := by
  cases hy with
  | accept l fd r adds =>
    cases l with
    | gamed => exact hallows.2
    | client => trivial
  | acceptError l => trivial
  | @data i r bytes hne hpre =>
    intro hl
    have hi := callbacksOf_step hl (.data i ⟨bytes, hne, r.residue, r.binds⟩)
    have harrived := (h.arrived_step hallows (.data i hne hpre) hen hi).trans h.sent_prefix
    rw [step_history hen, received_data, if_pos rfl] at harrived
    have hmem : (i, (⟨bytes, hne, r.residue, r.binds⟩ : Arrival)) ∈
        arrivals (sys.gate.view.step (.data i ⟨bytes, hne, r.residue, r.binds⟩)) := by
      rw [mem_arrivals, step_history hen]
      exact List.mem_cons_self
    exact ⟨harrived, hwhole _ hmem hi, hfree _ hmem hi⟩
  | readEvent i r what => trivial
  | writeEvent i accepted retriable what => trivial

theorem Inv.gate (h : Inv B sys) (o : Occurrence) :
    ∃ sys', sys.step B (.gate o) = .ok sys' ∧ Inv B sys' := by
  unfold System.step
  dsimp only
  by_cases hallows : sys.Allows o
  · obtain ⟨g', hrun, hround⟩ := h.faithful.step o
    rw [if_pos hallows, hrun, ok_bind]
    rcases hround.sees with hview | ⟨e, hy, hen, hview⟩
    · refine ⟨_, rfl, hround.faithful, h.link, h.fresh, fun i hi => ?_, fun hwhole hfree => ?_⟩
      · have hh : g'.history = sys.gate.history := congrArg Daemon.history hview
        rw [hview] at hi
        show received g'.history i <+: _
        rw [hh]
        exact h.arrived i hi
      · rw [hview] at hwhole hfree ⊢
        exact h.stage hwhole hfree
    · refine ⟨_, rfl, hround.faithful, h.link, h.fresh, fun i hi => ?_, fun hwhole hfree => ?_⟩
      · have hh : g'.history = (sys.gate.view.step e).history := congrArg Daemon.history hview
        rw [hview] at hi
        show received g'.history i <+: _
        rw [hh]
        exact h.arrived_step hallows hy hen hi
      · rw [hview] at hwhole hfree ⊢
        have hok := h.orderly hallows hy hen hwhole hfree
        rcases h.stage hwhole.of_step hfree.of_step with hbefore | hafter
        · exact hbefore.step h.faithful.wired (mirrored_of_faithful h.faithful) hen hok
        · exact Or.inr (hafter.step hen hok)
  · rw [if_neg hallows]
    exact ⟨sys, rfl, h⟩

end System

/-- One login: the packet is written, sent and read, and a client comes in. -/
def login : List Move :=
  [.socketInit true true (some fun _ => 0) true, .gate (.accept .gamed 5 .both true),
    .writable (.upTo 100) false, .gate (.readable 0 (.plenty gamedHello gamedHello_ne_nil)),
    .gate (.accept .client 6 .both true)]

end GameServer.Gamed
