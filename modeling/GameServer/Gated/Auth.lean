/-
  Authentication.

  `AuthSound`: a connection counts as gamed's only after the packet of gamed has arrived on
  it, and the client service is opened once, after that. `gamed_read_auth_packet` tests
  nothing but the command. Its other conditions are in `Guarded`: the packet is complete and
  has its own length in `len`, `g_gamed_conn` is a connection from gamed, and the service is
  not open yet. Every state of a run is sound if and only if no packet is admitted without
  them (`auth_sound_iff`).

  As long as a state is sound, a connection that is not authenticated has all of its input
  left (`Untouched`): the first packet taken from it either authenticates it or ends the
  process. So what the handler finds are the first bytes received.
-/
import GameServer.Gated.Callbacks

namespace GameServer.Gated

open CInt Runs

/-- The bytes that arrived for the bufferevent. -/
def received : List Event → Nat → List UInt8
  | [], _ => []
  | .data i a :: history, bev =>
    if i = bev then received history bev ++ a.bytes else received history bev
  | _ :: history, bev => received history bev

/-- The connection came in at the port for gamed, and the first bytes received on it are an
    `auth_packet_t` with command `AUTH_GAMED` and its own size as length. -/
def LoggedIn (s : Daemon) (bev : Nat) : Prop :=
  s.callbacksOf bev = some .gamed ∧ sizeofAuthPacket ≤ (received s.history bev).length ∧
    AuthPacket.ofBytes ((received s.history bev).take sizeofAuthPacket) =
      ⟨authGamed, sizeofAuthPacket⟩

structure AuthSound (s : Daemon) : Prop where
  loggedIn : ∀ conn ∈ s.conns, conn.auth = authGamed → LoggedIn s conn.bev
  once : s.opened ≤ 1
  authenticated : 0 < s.opened → ∃ conn ∈ s.conns, conn.auth = authGamed

/-- What `gamed_read_auth_packet` finds in the input of `conn` once `a` has arrived on `bev`. -/
def Daemon.found (s : Daemon) (bev : Nat) (a : Arrival) (conn : NetConnection) : List UInt8 :=
  (s.receive bev a.bytes).removable conn.bev

/-- A packet that passes the test of its command meets the conditions not tested. -/
def Guarded (s : Daemon) : Event → Prop
  | .data bev a => Enabled s (.data bev a) → s.callbacksOf bev = some .gamed →
      ∀ conn, s.gamedConn = some conn → conn.auth = authNone →
        (overlay (s.found bev a conn) a.residue).cmd = authGamed →
          s.callbacksOf conn.bev = some .gamed ∧
            (s.found bev a conn).length = sizeofAuthPacket ∧
            (overlay (s.found bev a conn) a.residue).len = sizeofAuthPacket ∧ s.opened = 0
  | _ => True

/-! ## Packets and buffers -/

theorem receive_getElem? (s : Daemon) (bev : Nat) (bytes : List UInt8) (i : Nat) :
    (s.receive bev bytes).bevs[i]? = s.bevs[i]?.map fun b =>
      { b with input := b.input ++ if bev = i then bytes else [] } := by
  show (s.bevs.modify bev _)[i]? = _
  rw [List.getElem?_modify]
  cases s.bevs[i]? with
  | none => simp
  | some b => by_cases h : bev = i <;> simp [h]

theorem received_data (history : List Event) (i : Nat) (a : Arrival) (bev : Nat) :
    received (.data i a :: history) bev =
      received history bev ++ if i = bev then a.bytes else [] := by
  rw [received]
  split <;> simp

/-! ## What never changes -/

/-- No data arrived for a bufferevent that does not exist yet. -/
def Quiet (s : Daemon) : Prop := ∀ bev, s.bevs.length ≤ bev → received s.history bev = []

theorem quiet_step {s : Daemon} (h : Quiet s) (e : Event) : Quiet (s.step e) := by
  by_cases hen : Enabled s e
  · rw [step_enabled hen]
    intro bev hbev
    have hold := h bev (Nat.le_trans (callback_bevs_length s e) hbev)
    cases e with
    | data i a =>
      have hi : i < s.bevs.length := hen.2
      have hlen := callback_bevs_length s (.data i a)
      have hbev : (s.callback (.data i a)).bevs.length ≤ bev := hbev
      rw [received_data, hold, if_neg (by omega)]
      rfl
    | accept l fd r => exact hold
    | acceptError l => exact hold
    | event i what => exact hold
  · rwa [step_disabled hen]

/-- What arrived stays at the front of what will have arrived. -/
theorem received_cons (e : Event) (history : List Event) (bev : Nat) :
    ∃ more, received (e :: history) bev = received history bev ++ more := by
  cases e with
  | data i a => exact ⟨_, received_data ..⟩
  | accept l fd r => exact ⟨[], (List.append_nil _).symm⟩
  | acceptError l => exact ⟨[], (List.append_nil _).symm⟩
  | event i what => exact ⟨[], (List.append_nil _).symm⟩

/-- A connection that has logged in stays so. -/
theorem LoggedIn.step {s : Daemon} {bev : Nat} (h : LoggedIn s bev) (e : Event) :
    LoggedIn (s.step e) bev := by
  by_cases hen : Enabled s e
  · obtain ⟨hcb, hlen, hpacket⟩ := h
    obtain ⟨more, hr⟩ := received_cons e s.history bev
    refine ⟨callbacksOf_step hcb e, ?_, ?_⟩
    · rw [step_history hen, hr, List.length_append]
      exact Nat.le_add_right_of_le hlen
    · rw [step_history hen, hr, List.take_append_of_le_length hlen, hpacket]
  · rwa [step_disabled hen]

/-! ## The invariant -/

/-- A connection that is not authenticated has its input left; a client's is empty between
    two events, since `client_read_cb` moves it on. -/
def Untouched (s : Daemon) : Prop :=
  ∀ i b conn, s.bevs[i]? = some b → s.conns[i]? = some conn → conn.auth = authNone →
    b.input = if b.callbacks = .gamed then received s.history i else []

structure AuthInv (s : Daemon) : Prop where
  wired : Wired s
  quiet : Quiet s
  sound : AuthSound s
  flagged : Flagged s
  untouched : s.stopped = none → Untouched s

theorem authInv_init : AuthInv .init :=
  ⟨wired_init, fun _ _ => rfl,
    ⟨fun _ h => absurd h List.not_mem_nil, Nat.zero_le 1, fun h => absurd h (Nat.lt_irrefl 0)⟩,
    fun _ h => absurd h List.not_mem_nil, fun _ _ _ _ h => by simp [Daemon.init] at h⟩

/-- Soundness is kept when no connection is authenticated and the service stays as it is. -/
theorem AuthSound.step {s : Daemon} (h : AuthSound s) {e : Event} (hen : Enabled s e)
    (hback : ∀ conn ∈ (s.callback e).conns, conn.auth = authGamed → conn ∈ s.conns)
    (hkeep : ∀ conn ∈ s.conns, conn ∈ (s.callback e).conns)
    (hopened : (s.callback e).opened = s.opened) : AuthSound (s.step e) := by
  have hlogged : ∀ conn ∈ (s.callback e).conns, conn.auth = authGamed →
      LoggedIn (s.step e) conn.bev :=
    fun conn hconn ha => (h.loggedIn conn (hback conn hconn ha) ha).step e
  rw [step_enabled hen] at hlogged ⊢
  refine ⟨hlogged, ?_, fun hpos => ?_⟩
  · show (s.callback e).opened ≤ 1
    rw [hopened]
    exact h.once
  · have hpos : 0 < (s.callback e).opened := hpos
    rw [hopened] at hpos
    obtain ⟨conn, hconn, ha⟩ := h.authenticated hpos
    exact ⟨conn, hkeep conn hconn, ha⟩

theorem admitted_opened {s : Daemon} {e : Event} {bev g : Nat} {bytes : List UInt8} {binds : Bool}
    (hcall : s.callback e =
      openClientService (((s.receive bev bytes).removeInput g).setAuth authGamed) binds) :
    (s.callback e).opened = s.opened + 1 := by
  rw [hcall, openClientService_opened, setAuth_opened]
  rfl

section Step

variable {s : Daemon} (h : AuthInv s)

include h

/-- What is left to show for a step: soundness, and the inputs if the process goes on. -/
theorem AuthInv.of_sound {e : Event} (hen : Enabled s e) (hsound : AuthSound (s.step e))
    (huntouched : (s.callback e).stopped = none → ∀ i b conn, (s.callback e).bevs[i]? = some b →
      (s.callback e).conns[i]? = some conn → conn.auth = authNone →
      b.input = if b.callbacks = .gamed then received (e :: s.history) i else []) :
    AuthInv (s.step e) := by
  refine ⟨wired_step s e h.wired, quiet_step h.quiet e, hsound, flagged_step h.flagged e, ?_⟩
  rw [step_enabled hen]
  exact huntouched

/-- An event other than data that leaves what there is as it is, and may add connections that
    are not authenticated and have no input. -/
theorem AuthInv.grow {e : Event} (hen : Enabled s e) (conns : List NetConnection)
    (bevs : List Bufferevent) (hconns : (s.callback e).conns = s.conns ++ conns)
    (hbevs : (s.callback e).bevs = s.bevs ++ bevs)
    (hfresh : ∀ conn ∈ conns, conn.auth = authNone) (hempty : ∀ b ∈ bevs, b.input = [])
    (hopened : (s.callback e).opened = s.opened)
    (hdata : ∀ bev, received (e :: s.history) bev = received s.history bev) :
    AuthInv (s.step e) := by
  have hlen := h.wired.length
  refine h.of_sound hen (h.sound.step hen ?_ ?_ hopened) fun _ i b conn hb hconn ha => ?_
  · rw [hconns]
    intro conn hconn ha
    rcases List.mem_append.1 hconn with hold | hnew
    · exact hold
    · rw [hfresh conn hnew] at ha
      exact absurd ha (by decide)
  · rw [hconns]
    exact fun conn hconn => List.mem_append_left _ hconn
  · rw [hbevs] at hb
    rw [hconns] at hconn
    rw [hdata]
    by_cases hi : i < s.bevs.length
    · rw [List.getElem?_append_left hi] at hb
      rw [List.getElem?_append_left (hlen ▸ hi)] at hconn
      exact h.untouched hen.1 i b conn hb hconn ha
    · rw [List.getElem?_append_right (by omega)] at hb
      rw [hempty b (List.mem_of_getElem? hb), h.quiet i (by omega), ite_self]

theorem AuthInv.idle {e : Event} (hen : Enabled s e) (hconns : (s.callback e).conns = s.conns)
    (hbevs : (s.callback e).bevs = s.bevs) (hopened : (s.callback e).opened = s.opened)
    (hdata : ∀ bev, received (e :: s.history) bev = received s.history bev) :
    AuthInv (s.step e) := by
  refine h.grow hen [] [] ?_ ?_ (by simp) (by simp) hopened hdata
  · rw [hconns, List.append_nil]
  · rw [hbevs, List.append_nil]

theorem AuthInv.accept {l : Listener} {fd : Int} {r : Resources}
    (hen : Enabled s (.accept l fd r)) : AuthInv (s.step (.accept l fd r)) := by
  cases r with
  | both =>
    refine h.grow hen [⟨fd, authNone, s.bevs.length⟩] [⟨fd, l, [], []⟩]
      ?_ ?_ (by simp) (by simp) ?_ fun _ => rfl
    all_goals cases l <;> rfl
  | noMemory =>
    apply h.idle hen
    all_goals cases l <;> intros <;> rfl
  | noBufferevent =>
    apply h.idle hen
    all_goals cases l <;> intros <;> rfl

theorem AuthInv.clientData {bev : Nat} {a : Arrival} (hen : Enabled s (.data bev a))
    (hcb : s.callbacksOf bev = some .client) : AuthInv (s.step (.data bev a)) := by
  have hcall := callback_clientData a hcb
  have hsound : AuthSound (s.step (.data bev a)) := by
    refine h.sound.step hen ?_ ?_ ?_ <;> rw [hcall]
    · exact fun conn hconn _ => hconn
    · exact fun conn hconn => hconn
    · rfl
  refine h.of_sound hen hsound fun _ i b conn hb hconn ha => ?_
  rw [hcall] at hb hconn
  have hb : ((s.receive bev a.bytes).bevs.modify bev fun b =>
      { b with input := [], output := b.output ++ b.input })[i]? = some b := hb
  rw [List.getElem?_modify, receive_getElem?] at hb
  rw [received_data]
  cases hold : s.bevs[i]? with
  | none => simp [hold] at hb
  | some b₀ =>
    by_cases hi : bev = i
    · -- the bufferevent that the data is for: a client's, and its input has been moved
      subst hi
      have hl : b₀.callbacks = .client := Option.some.inj ((callbacksOf_eq hold).symm.trans hcb)
      simp only [hold, Option.map_some, if_true, Option.map_eq_map, Option.some.injEq] at hb
      rw [← hb, hl]
      rfl
    · simp only [hold, Option.map_some, if_neg hi, Option.map_eq_map, Option.some.injEq,
        List.append_nil] at hb ⊢
      rw [← hb]
      exact h.untouched hen.1 i b₀ conn hold hconn ha

/-- Once the data has arrived for a connection from gamed, the input of every connection that
    is not authenticated is what the history says. -/
theorem AuthInv.untouched_receive {bev : Nat} {a : Arrival} (hen : Enabled s (.data bev a))
    (hcb : s.callbacksOf bev = some .gamed) {i : Nat} {b : Bufferevent} {conn : NetConnection}
    (hb : (s.receive bev a.bytes).bevs[i]? = some b) (hconn : s.conns[i]? = some conn)
    (ha : conn.auth = authNone) :
    b.input = if b.callbacks = .gamed then received (.data bev a :: s.history) i else [] := by
  rw [receive_getElem?, Option.map_eq_some_iff] at hb
  obtain ⟨b₀, hold, rfl⟩ := hb
  rw [received_data]
  have hinput := h.untouched hen.1 i b₀ conn hold hconn ha
  by_cases hi : bev = i
  · subst hi
    have hl : b₀.callbacks = .gamed := Option.some.inj ((callbacksOf_eq hold).symm.trans hcb)
    simp only [hinput, hl, if_true]
  · simp only [hinput, if_neg hi, List.append_nil]

theorem AuthInv.found_eq {bev : Nat} {a : Arrival} (hen : Enabled s (.data bev a))
    (hcb : s.callbacksOf bev = some .gamed) {conn : NetConnection}
    (hc : s.gamedConn = some conn) (ha : conn.auth = authNone)
    (hl : s.callbacksOf conn.bev = some .gamed) :
    s.found bev a conn =
      (received (.data bev a :: s.history) conn.bev).take sizeofAuthPacket := by
  obtain ⟨g, -, hconn⟩ := Option.bind_eq_some_iff.1 hc
  obtain ⟨rfl, b, hb, -⟩ := h.wired.bev_of_conn hconn
  have hb' := receive_getElem? s bev a.bytes conn.bev
  rw [hb, Option.map_some] at hb'
  have hinput := h.untouched_receive hen hcb hb' hconn ha
  have hgamed : b.callbacks = .gamed := Option.some.inj ((callbacksOf_eq hb).symm.trans hl)
  rw [if_pos hgamed] at hinput
  unfold Daemon.found Daemon.removable
  rw [hb', ← hinput]

/-- A packet with the right command logs its connection in when it meets the conditions that
    the handler does not test, and not otherwise. -/
theorem AuthInv.loggedIn_iff {bev : Nat} {a : Arrival} (hen : Enabled s (.data bev a))
    (hcb : s.callbacksOf bev = some .gamed) {conn : NetConnection}
    (hc : s.gamedConn = some conn) (ha : conn.auth = authNone)
    (hcmd : (overlay (s.found bev a conn) a.residue).cmd = authGamed) :
    LoggedIn (s.step (.data bev a)) conn.bev ↔
      s.callbacksOf conn.bev = some .gamed ∧ (s.found bev a conn).length = sizeofAuthPacket ∧
        (overlay (s.found bev a conn) a.residue).len = sizeofAuthPacket := by
  have hcallbacks : (s.step (.data bev a)).callbacksOf conn.bev = s.callbacksOf conn.bev := by
    rw [callbacksOf_wiring, step_wiring hen, ← callbacksOf_wiring]
  unfold LoggedIn
  rw [hcallbacks, step_history hen]
  refine and_congr_right fun hl => ?_
  have hfound := h.found_eq hen hcb hc ha hl
  rw [hfound] at hcmd ⊢
  generalize received (.data bev a :: s.history) conn.bev = bytes at hcmd ⊢
  have hlen : (bytes.take sizeofAuthPacket).length = sizeofAuthPacket ↔
      sizeofAuthPacket ≤ bytes.length := by
    rw [List.length_take]
    omega
  rw [hlen]
  refine and_congr_right fun hfull => ?_
  rw [overlay_full (hlen.2 hfull)] at hcmd ⊢
  constructor
  · intro hpacket
    rw [hpacket]
  · intro hpacketLen
    rw [← hcmd, ← hpacketLen]

/-- The connection that `g_gamed_conn` points to is the one at its own index. -/
theorem AuthInv.gamedConn_at {conn : NetConnection} (hc : s.gamedConn = some conn) :
    s.gGamedConn = some conn.bev ∧ s.conns[conn.bev]? = some conn := by
  obtain ⟨g, hg, hconn⟩ := Option.bind_eq_some_iff.1 hc
  obtain ⟨rfl, -⟩ := h.wired.bev_of_conn hconn
  exact ⟨hg, hconn⟩

/-- A callback that ends the process and leaves the connections as they are. -/
theorem AuthInv.halt {e : Event} (hen : Enabled s e) (hconns : (s.callback e).conns = s.conns)
    (hopened : (s.callback e).opened = s.opened) (hstopped : (s.callback e).stopped ≠ none) :
    AuthInv (s.step e) := by
  refine h.of_sound hen (h.sound.step hen ?_ ?_ hopened) fun hrunning => absurd hrunning hstopped
  · rw [hconns]
    exact fun conn hconn _ => hconn
  · rw [hconns]
    exact fun conn hconn => hconn

section Admit

variable {bev : Nat} {a : Arrival} (hen : Enabled s (.data bev a)) {conn : NetConnection}
  (hc : s.gamedConn = some conn)
  (hcall : s.callback (.data bev a) =
    openClientService (((s.receive bev a.bytes).removeInput conn.bev).setAuth authGamed) a.binds)

include hc hcall

theorem AuthInv.admitted_conns : (s.callback (.data bev a)).conns =
    s.conns.modify conn.bev fun c => { c with auth := authGamed } := by
  have hg : ((s.receive bev a.bytes).removeInput conn.bev).gGamedConn = some conn.bev :=
    (h.gamedConn_at hc).1
  rw [hcall, openClientService_conns, setAuth_conns hg]
  rfl

theorem AuthInv.admitted_mem :
    ({ conn with auth := authGamed } : NetConnection) ∈ (s.callback (.data bev a)).conns := by
  rw [h.admitted_conns hc hcall]
  exact List.mem_of_getElem? (i := conn.bev) (by simp [(h.gamedConn_at hc).2])

include hen

theorem AuthInv.admitted_sound (hlogged : LoggedIn (s.step (.data bev a)) conn.bev)
    (hopened : s.opened = 0) : AuthSound (s.step (.data bev a)) := by
  have hall : ∀ c ∈ (s.callback (.data bev a)).conns, c.auth = authGamed →
      LoggedIn (s.step (.data bev a)) c.bev := by
    have hbefore : ∀ c ∈ s.conns, c.auth = authGamed → LoggedIn (s.step (.data bev a)) c.bev :=
      fun c hmem hauth => (h.sound.loggedIn c hmem hauth).step _
    rw [h.admitted_conns hc hcall]
    refine ListUpdate.forall_modify hbefore fun c₀ hc₀ _ => ?_
    obtain rfl : c₀ = conn := Option.some.inj (hc₀.symm.trans (h.gamedConn_at hc).2)
    exact hlogged
  rw [step_enabled hen] at hall ⊢
  refine ⟨hall, ?_, fun _ => ⟨_, h.admitted_mem hc hcall, rfl⟩⟩
  show (s.callback (.data bev a)).opened ≤ 1
  rw [admitted_opened hcall]
  omega

theorem AuthInv.admitted (hcb : s.callbacksOf bev = some .gamed)
    (hlogged : LoggedIn (s.step (.data bev a)) conn.bev) (hopened : s.opened = 0) :
    AuthInv (s.step (.data bev a)) := by
  have hsound := h.admitted_sound hen hc hcall hlogged hopened
  refine h.of_sound hen hsound fun _ i b c hb hc' hauth => ?_
  rw [h.admitted_conns hc hcall, List.getElem?_modify] at hc'
  rw [hcall, openClientService_bevs, setAuth_bevs] at hb
  have hb : ((s.receive bev a.bytes).bevs.modify conn.bev fun b =>
      { b with input := b.input.drop sizeofAuthPacket })[i]? = some b := hb
  rw [List.getElem?_modify] at hb
  by_cases hi : conn.bev = i
  · -- the connection just authenticated
    subst hi
    simp only [(h.gamedConn_at hc).2, if_true, Option.map_eq_map, Option.map_some,
      Option.some.injEq] at hc'
    rw [← hc'] at hauth
    exact absurd hauth (show authGamed ≠ authNone by decide)
  · simp only [if_neg hi, id_map'] at hb hc'
    exact h.untouched_receive hen hcb hb hc' hauth

end Admit

theorem AuthInv.gamedData {bev : Nat} {a : Arrival} (hen : Enabled s (.data bev a))
    (hcb : s.callbacksOf bev = some .gamed) (hguard : Guarded s (.data bev a)) :
    AuthInv (s.step (.data bev a)) := by
  have hcall := callback_gamedData a hcb
  rcases gamedReadCb_cases (s := s.receive bev a.bytes) h.flagged bev a with
    ⟨hconns, hopened, hstopped⟩ | ⟨conn, hc, ha, hcmd, hentry⟩
  · apply h.halt hen <;> rw [hcall]
    · exact hconns
    · exact hopened
    · exact hstopped
  · have hc : s.gamedConn = some conn := hc
    obtain ⟨hl, hfull, hlen, hopened⟩ := hguard hen hcb conn hc ha hcmd
    have hlogged := (h.loggedIn_iff hen hcb hc ha hcmd).2 ⟨hl, hfull, hlen⟩
    exact h.admitted hen hc (hcall.trans hentry) hcb hlogged hopened

theorem AuthInv.step {e : Event} (hguard : Guarded s e) : AuthInv (s.step e) := by
  by_cases hen : Enabled s e
  · cases e with
    | accept l fd r => exact h.accept hen
    | acceptError l =>
      apply h.idle hen
      all_goals cases l <;> intros <;> rfl
    | data bev a =>
      rcases callbacksOf_cases hen.2 with hcb | hcb
      · exact h.gamedData hen hcb hguard
      · exact h.clientData hen hcb
    | event bev what =>
      refine h.idle hen ?_ ?_ ?_ fun _ => rfl
      all_goals
        simp only [Daemon.callback]
        split <;> rfl
  · rwa [step_disabled hen]

/-- A step that keeps the state sound admits no packet without its conditions. -/
theorem AuthInv.guarded {e : Event} (hsound : AuthSound (s.step e)) : Guarded s e := by
  cases e with
  | accept l fd r => trivial
  | acceptError l => trivial
  | event bev what => trivial
  | data bev a =>
    intro hen hcb conn hc ha hcmd
    have hcall := callback_gamedData a hcb
    have hentry := gamedReadCb_admits (s := s.receive bev a.bytes) hc ha bev hcmd
    rw [hentry] at hcall
    have hopened := hsound.once
    have hmem := h.admitted_mem hc hcall
    have hlogged : LoggedIn (s.step (.data bev a)) conn.bev := by
      refine hsound.loggedIn { conn with auth := authGamed } ?_ rfl
      rw [step_enabled hen]
      exact hmem
    obtain ⟨hl, hfull, hlen⟩ := (h.loggedIn_iff hen hcb hc ha hcmd).1 hlogged
    refine ⟨hl, hfull, hlen, ?_⟩
    rw [step_enabled hen] at hopened
    have hopened : (s.callback (.data bev a)).opened ≤ 1 := hopened
    rw [admitted_opened hcall] at hopened
    omega

end Step

/-- In every run, authentication is sound in each state if and only if every packet that is
    admitted for its command is complete, has its length in `len`, comes from a connection of
    gamed, and is the first one admitted. -/
theorem auth_sound_iff (events : List Event) :
    Along Daemon.step (fun s e => AuthSound (s.step e)) .init events ↔
      Along Daemon.step Guarded .init events :=
  along_iff (fun _ _ h hguard => h.step hguard)
    (fun _ _ h => ⟨h.guarded, fun hguard => (h.step hguard).sound⟩) authInv_init events

/-- Half of the packet is enough: the length is on the stack from before. -/
def halfPacket : List Event :=
  [.accept .gamed 5 .both,
    .data 0 ⟨[3, 0, 0, 0], List.cons_ne_nil _ _, [0, 0, 0, 0, 8, 0, 0, 0], true⟩]

theorem half_packet_admitted : ¬ AuthSound (exec Daemon.step .init halfPacket) := by
  intro h
  have hconn : (⟨5, authGamed, 0⟩ : NetConnection) ∈ (exec Daemon.step .init halfPacket).conns := by
    decide
  exact absurd (h.loggedIn _ hconn rfl).2.1 (by decide)

end GameServer.Gated
