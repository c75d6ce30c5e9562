/-
  The gate daemon on the buffers of libevent. Where `Gated.Basic` has lists of bytes, each
  connection has a bufferevent here, its socket hands over and takes as many bytes as it
  likes, and every allocation may fail.

  `view` forgets the buffers. Each thing that happens at a socket is at most one event of
  the daemon (`Gate.history` collects them). `Faithful.step`: no round ends in a `Fault`,
  and the daemon of `Gated.Basic` reaches the same state, byte for byte, on the events of
  the history. `Touch` lists what a round can do to a socket.
-/
import GameServer.Gated.Echo
import GameServer.Libevent.Bufferevent
import Mathlib.Logic.Relation

namespace GameServer.Gated

open Runs Libevent

/-- A connection with its bufferevent, and the bytes that were sent on it. -/
structure Socket where
  fd : Int
  callbacks : Listener
  bev : Libevent.Bufferevent
  sent : List UInt8

/-- The process, as in `Daemon`. -/
structure Gate where
  conns : List NetConnection
  sockets : List Socket
  gGamedConn : Option Nat
  descriptors : List Descriptor
  opened : Nat
  leaving : Bool
  stopped : Option Stop
  history : List Event

/-- A socket that can be read: what is there, and what the read callback meets. -/
structure Readiness where
  readable : Int
  arrived : Arrived
  memory : Memory
  retriable : Bool
  adds : Bool
  residue : List UInt8
  binds : Bool

inductive Occurrence where
  | accept (listener : Listener) (fd : Int) (resources : Resources) (adds : Bool)
  | acceptError (listener : Listener)
  | readable (bev : Nat) (r : Readiness)
  | writable (bev : Nat) (accepted : Accepted) (retriable : Bool)

namespace Gate

def init : Gate := ⟨[], [], none, [], 0, false, none, []⟩

def stop (g : Gate) (how : Stop) : Gate := { g with stopped := some how }

def loopExit (g : Gate) : Gate := { g with leaving := true }

def gamedConn (g : Gate) : Option NetConnection := g.gGamedConn.bind (g.conns[·]?)

def setAuth (g : Gate) (auth : Int) : Gate :=
  match g.gGamedConn with
  | none => g
  | some p => { g with conns := g.conns.modify p fun c => { c with auth := auth } }

def setSocket (g : Gate) (i : Nat) (socket : Socket) : Gate :=
  { g with sockets := g.sockets.set i socket }

/-! ## The callbacks of the program -/

def accept (g : Gate) (l : Listener) (fd : Int) (adds : Bool) : Resources → Gate
  | .both =>
    { g with
      conns := g.conns ++ [{ fd := fd, auth := authNone, bev := g.sockets.length }]
      sockets := g.sockets ++ [⟨fd, l, Libevent.Bufferevent.socketNew.enable adds, []⟩]
      gGamedConn := some g.conns.length
      descriptors := ⟨fd, l⟩ :: g.descriptors }
  | _ => { g with gGamedConn := none, descriptors := ⟨fd, l⟩ :: g.descriptors }

/-- `client_read_cb` -/
def clientReadCb (g : Gate) (i : Nat) (adds : Bool) : Except Fault Gate :=
  match g.sockets[i]? with
  | none => .error .null
  | some socket => do
    let (_, bev) ← addInputToOutput socket.bev adds
    return g.setSocket i { socket with bev := bev }

def openClientService (g : Gate) (binds : Bool) : Gate :=
  let g := { g with opened := g.opened + 1 }
  if binds then g else g.stop .exit

/-- The two packet handlers, see `Gated.readPacket`. -/
def readPacket (old : List UInt8) (lenFatal : Bool) (g : Gate) (binds : Bool) :
    Except Fault Gate :=
  match g.gamedConn with
  | none => .ok (g.stop .segv)
  | some conn =>
    if conn.auth ≠ authNone then .ok (g.stop .abort)
    else
      match g.sockets[conn.bev]? with
      | none => .error .null
      | some socket => do
        let (res, removed, bev) ← removeFromInput socket.bev sizeofAuthPacket
        let authpack := overlay removed old
        let g := g.setSocket conn.bev { socket with bev := bev }
        if lenFatal ∧ res ≠ authpack.len then return g.stop .exit
        else if authpack.cmd ≠ authGamed then return g.stop .exit
        else return (g.setAuth authGamed).openClientService binds

/-- `gamed_read_cb` -/
def gamedReadCb (g : Gate) (residue : List UInt8) (binds : Bool) : Except Fault Gate :=
  match g.gamedConn with
  | none => .ok (g.stop .segv)
  | some conn =>
    if conn.auth = authNone then g.readPacket residue false binds
    else if conn.auth = authGamed then
      g.readPacket (List.replicate sizeofAuthPacket 0) true binds
    else .ok g

/-- `gamed_error_cb` and `client_error_cb` -/
def errorCb (g : Gate) : Listener → Gate
  | .gamed => g.loopExit
  | .client => g

/-- `gamed_accept_error_cb` and `client_accept_error_cb` -/
def acceptErrorCb (g : Gate) : Listener → Gate
  | .gamed => g.loopExit
  | .client => g

/-! ## The event loop -/

def openFds (g : Gate) : List Int := g.descriptors.map Descriptor.fd

/-- The event loop waits for a socket as long as its event is pending. -/
def Enabled (g : Gate) (o : Occurrence) : Prop :=
  g.stopped = none ∧
    match o with
    | .accept l fd _ _ => fd ∉ g.openFds ∧ (l = .client → 0 < g.opened)
    | .acceptError l => l = .client → 0 < g.opened
    | .readable i _ => (g.sockets[i]?.map fun s => s.bev.readPending) = some true
    | .writable i _ _ => (g.sockets[i]?.map fun s => s.bev.writePending) = some true

instance (g : Gate) : (o : Occurrence) → Decidable (g.Enabled o)
  | .accept _ _ _ _ => inferInstanceAs (Decidable (_ ∧ _ ∧ _))
  | .acceptError _ => inferInstanceAs (Decidable (_ ∧ _))
  | .readable _ _ => inferInstanceAs (Decidable (_ ∧ _))
  | .writable _ _ _ => inferInstanceAs (Decidable (_ ∧ _))

theorem enabled_writable {g : Gate} {i : Nat} {s : Socket} (hs : g.sockets[i]? = some s)
    (hgo : g.stopped = none) (accepted : Accepted) (retriable : Bool) :
    g.Enabled (.writable i accepted retriable) ↔ s.bev.writePending = true := by
  simp [Enabled, hs, hgo]

/-- The read callback of the program, by the listener that made the bufferevent. -/
def readCb (g : Gate) (i : Nat) (r : Readiness) : Listener → Except Fault Gate
  | .gamed => g.gamedReadCb r.residue r.binds
  | .client => g.clientReadCb i r.adds

def log (g : Gate) (e : Event) : Gate := { g with history := e :: g.history }

/-- The callback of the program that the library makes next. -/
def dispatch (g : Gate) (i : Nat) (r : Readiness) (l : Listener) : Next → Except Fault Gate
  | .nothing => .ok g
  | .eventcb what => .ok ((g.errorCb l).log (.event i what))
  | .readcb bytes => do
    let g ← g.readCb i r l
    if h : bytes ≠ [] then return g.log (.data i ⟨bytes, h, r.residue, r.binds⟩)
    else return g

/-- One round of the event loop. -/
def step (B : Build) (g : Gate) (o : Occurrence) : Except Fault Gate :=
  if g.Enabled o then
    match o with
    | .accept l fd r adds => .ok ((g.accept l fd adds r).log (.accept l fd r))
    | .acceptError l => .ok ((g.acceptErrorCb l).log (.acceptError l))
    | .readable i r =>
      match g.sockets[i]? with
      | none => .ok g
      | some socket => do
        let (next, bev) ←
          bufferevent_readcb B socket.bev r.readable r.arrived r.memory r.retriable
        (g.setSocket i { socket with bev := bev }).dispatch i r socket.callbacks next
    | .writable i accepted retriable =>
      match g.sockets[i]? with
      | none => .ok g
      | some socket => do
        let (next, bev, sent) ← bufferevent_writecb socket.bev accepted retriable
        let g := g.setSocket i { socket with bev := bev, sent := socket.sent ++ sent }
        match next with
        | .eventcb what => return (g.errorCb socket.callbacks).log (.event i what)
        | _ => return g
  else .ok g

/-- A run, up to a fault. -/
def run (B : Build) (g : Gate) (os : List Occurrence) : Except Fault Gate :=
  os.foldlM (step B) g

end Gate

/-! ## What the daemon of `Gated.Basic` sees -/

def Socket.view (s : Socket) : Bufferevent :=
  ⟨s.fd, s.callbacks, s.bev.input.contents, s.sent ++ s.bev.output.contents⟩

def Gate.view (g : Gate) : Daemon :=
  ⟨g.conns, g.sockets.map Socket.view, g.gGamedConn, g.descriptors, g.opened, g.leaving, g.stopped,
    g.history⟩

@[simp] theorem view_stop (g : Gate) (how : Stop) : (g.stop how).view = g.view.stop how := rfl

theorem view_setAuth (g : Gate) (auth : Int) : (g.setAuth auth).view = g.view.setAuth auth := by
  have hv : g.view.gGamedConn = g.gGamedConn := rfl
  cases hg : g.gGamedConn with
  | none => simp [Gate.setAuth, Daemon.setAuth, hg, hv]
  | some p => simp [Gate.setAuth, Daemon.setAuth, hg, Gate.view]

theorem view_openClientService (g : Gate) (binds : Bool) :
    (g.openClientService binds).view = Gated.openClientService g.view binds := by
  cases binds <;> rfl

theorem view_getElem? (g : Gate) (i : Nat) : g.view.bevs[i]? = g.sockets[i]?.map Socket.view :=
  List.getElem?_map ..

theorem view_socket {g : Gate} {i : Nat} {socket : Socket} (h : g.sockets[i]? = some socket) :
    g.view.bevs[i]? = some socket.view := by
  rw [view_getElem?, h, Option.map_some]

/-- A change of one socket, as a change of its bufferevent. -/
theorem view_setSocket {g : Gate} {i : Nat} {socket socket' : Socket}
    (h : g.sockets[i]? = some socket) {f : Bufferevent → Bufferevent}
    (hf : socket'.view = f socket.view) :
    (g.setSocket i socket').view = { g.view with bevs := g.view.bevs.modify i f } := by
  have hset : (g.sockets.set i socket').map Socket.view = g.view.bevs.modify i f := by
    rw [List.map_set, hf]
    exact ListUpdate.set_eq_modify (view_socket h)
  unfold Gate.setSocket
  rw [← hset]
  rfl

theorem view_setSocket_same {g : Gate} {i : Nat} {socket socket' : Socket}
    (h : g.sockets[i]? = some socket) (hf : socket'.view = socket.view) :
    (g.setSocket i socket').view = g.view := by
  rw [view_setSocket h (f := id) hf, List.modify_id]

theorem view_new (fd : Int) (l : Listener) (adds : Bool) :
    Socket.view ⟨fd, l, Libevent.Bufferevent.socketNew.enable adds, []⟩ = ⟨fd, l, [], []⟩ := rfl

theorem view_accept (g : Gate) (l : Listener) (fd : Int) (adds : Bool) (r : Resources) :
    (g.accept l fd adds r).view = g.view.callback (.accept l fd r) := by
  cases r with
  | both =>
    have hlen : g.view.bevs.length = g.sockets.length := List.length_map ..
    cases l <;>
      simp [Gate.accept, Daemon.callback, gamedAcceptCb, clientAcceptCb, acceptCb,
        netNewConnection, hlen] <;>
      simp [Gate.view, view_new]
  | noMemory => cases l <;> rfl
  | noBufferevent => cases l <;> rfl

theorem view_acceptErrorCb (g : Gate) (l : Listener) :
    (g.acceptErrorCb l).view = g.view.callback (.acceptError l) := by
  cases l <;> rfl

theorem view_errorCb {g : Gate} {i : Nat} {socket : Socket} (h : g.sockets[i]? = some socket)
    (what : BitVec 16) : (g.errorCb socket.callbacks).view = g.view.callback (.event i what) := by
  have hcb : g.view.callbacksOf i = some socket.callbacks := callbacksOf_eq (view_socket h)
  simp only [Daemon.callback, hcb]
  cases socket.callbacks <;> rfl

theorem receive_nil (s : Daemon) (bev : Nat) : s.receive bev [] = s := by
  have hid : s.bevs.modify bev (fun b => { b with input := b.input ++ [] }) = s.bevs := by
    simp only [List.append_nil]
    exact List.modify_id bev s.bevs
  unfold Daemon.receive
  rw [hid]

/-! ## No fault, and the same bytes -/

/-- What can happen to a socket. `adds` says whether `event_add` succeeds. -/
inductive Touch (B : Build) (adds : Bool) (s : Socket) : Socket → Prop
  | read {next : Next} {bev' : Libevent.Bufferevent} (hp : s.bev.readPending = true)
      (h : ReadEvent B s.bev next bev') : Touch B adds s { s with bev := bev' }
  | write {bev' : Libevent.Bufferevent} {sent : List UInt8} (hp : s.bev.writePending = true)
      (h : WriteEvent B s.bev bev' sent) :
      Touch B adds s { s with bev := bev', sent := s.sent ++ sent }
  | echo {bev' : Libevent.Bufferevent} (h : EchoEvent B adds s.bev bev') :
      Touch B adds s { s with bev := bev' }
  | remove (input : Evbuffer) : Touch B adds s { s with bev := { s.bev with input := input } }

/-- The same sockets, each after some touches. -/
structure Touched (B : Build) (adds : Bool) (g g' : Gate) : Prop where
  length : g'.sockets.length = g.sockets.length
  each : ∀ (i : Nat) (s s' : Socket), g.sockets[i]? = some s → g'.sockets[i]? = some s' →
    Relation.ReflTransGen (Touch B adds) s s'

namespace Touched

variable {B : Build} {adds : Bool} {g g₁ g₂ : Gate}

theorem of_eq (h : g₁.sockets = g.sockets) : Touched B adds g g₁ := by
  refine ⟨congrArg List.length h, fun i s s' hs hs' => ?_⟩
  rw [h, hs] at hs'
  rw [Option.some.inj hs']

theorem trans (h₁ : Touched B adds g g₁) (h₂ : Touched B adds g₁ g₂) : Touched B adds g g₂ := by
  refine ⟨h₂.length.trans h₁.length, fun i s s₂ hs hs₂ => ?_⟩
  have hlt : i < g₁.sockets.length := by
    rw [h₁.length]
    exact (List.getElem?_eq_some_iff.1 hs).1
  have hs₁ := List.getElem?_eq_getElem hlt
  exact (h₁.each i _ _ hs hs₁).trans (h₂.each i _ _ hs₁ hs₂)

theorem setSocket {i : Nat} {s s' : Socket} (hs : g.sockets[i]? = some s) (h : Touch B adds s s') :
    Touched B adds g (g.setSocket i s') := by
  refine ⟨List.length_set .., fun j t t' ht ht' => ?_⟩
  rcases ListUpdate.set_cases ht' with ⟨rfl, rfl⟩ | ⟨-, hold⟩
  · obtain rfl : s = t := Option.some.inj (hs.symm.trans ht)
    exact .single h
  · rw [Option.some.inj (ht.symm.trans hold)]

end Touched

variable {B : Build} {g : Gate}

def Gate.Sound (B : Build) (g : Gate) : Prop := ∀ socket ∈ g.sockets, socket.bev.Sound B

theorem Gate.Sound.getElem? (h : g.Sound B) {i : Nat} {socket : Socket}
    (hi : g.sockets[i]? = some socket) : socket.bev.Sound B := h socket (List.mem_of_getElem? hi)

theorem Gate.Sound.setSocket (h : g.Sound B) (i : Nat) {s : Socket} (hs : s.bev.Sound B) :
    (g.setSocket i s).Sound B :=
  ListUpdate.forall_set (P := fun s : Socket => s.bev.Sound B) h i hs

theorem Gate.Sound.openClientService (h : g.Sound B) (binds : Bool) :
    (g.openClientService binds).Sound B := by
  cases binds <;> exact h

theorem Gate.Sound.setAuth (h : g.Sound B) (auth : Int) : (g.setAuth auth).Sound B := by
  unfold Gate.setAuth
  split <;> exact h

theorem Gate.Sound.errorCb (h : g.Sound B) (l : Listener) : (g.errorCb l).Sound B := by
  cases l <;> exact h

@[simp] theorem openClientService_sockets (g : Gate) (binds : Bool) :
    (g.openClientService binds).sockets = g.sockets := by cases binds <;> rfl

@[simp] theorem setAuth_sockets (g : Gate) (auth : Int) :
    (g.setAuth auth).sockets = g.sockets := by
  unfold Gate.setAuth
  split <;> rfl

@[simp] theorem errorCb_sockets (g : Gate) (l : Listener) :
    (g.errorCb l).sockets = g.sockets := by cases l <;> rfl

@[simp] theorem acceptErrorCb_sockets (g : Gate) (l : Listener) :
    (g.acceptErrorCb l).sockets = g.sockets := by cases l <;> rfl

/-- What a callback leaves: sound buffers, the state `s` for the daemon, touched sockets. -/
structure Does (B : Build) (adds : Bool) (g g' : Gate) (s : Daemon) : Prop where
  sound : g'.Sound B
  view : g'.view = s
  touched : Touched B adds g g'

/-- The bufferevent of the connection that `g_gamed_conn` points to. -/
theorem socket_of_conn (hw : Wired g.view) {conn : NetConnection} (hc : g.gamedConn = some conn) :
    ∃ socket, g.sockets[conn.bev]? = some socket := by
  obtain ⟨p, -, hp⟩ := Option.bind_eq_some_iff.1 hc
  obtain ⟨rfl, b, hb, -⟩ := hw.bev_of_conn (s := g.view) hp
  rw [view_getElem?] at hb
  obtain ⟨socket, hs, -⟩ := Option.map_eq_some_iff.1 hb
  exact ⟨socket, hs⟩

theorem readPacket_ok (h : g.Sound B) (hw : Wired g.view) (old : List UInt8)
    (lenFatal binds adds : Bool) :
    ∃ g', Gate.readPacket old lenFatal g binds = .ok g' ∧
      Does B adds g g' (Gated.readPacket old lenFatal g.view binds) := by
  have hconn : g.view.gamedConn = g.gamedConn := rfl
  unfold Gate.readPacket Gated.readPacket
  rw [hconn]
  cases hc : g.gamedConn with
  | none => exact ⟨_, rfl, h, rfl, .of_eq rfl⟩
  | some conn =>
    dsimp only
    by_cases ha : conn.auth ≠ authNone
    · rw [if_pos ha, if_pos ha]
      exact ⟨_, rfl, h, rfl, .of_eq rfl⟩
    · rw [if_neg ha, if_neg ha]
      obtain ⟨socket, hs⟩ := socket_of_conn hw hc
      obtain ⟨bev', hrun, hsound, hrest, hbev⟩ :=
        removeFromInput_ok (h.getElem? hs) sizeofAuthPacket
      -- what `evbuffer_remove` copies out is what the daemon finds in its list
      have hremoved : g.view.removable conn.bev =
          socket.bev.input.contents.take sizeofAuthPacket := by
        unfold Daemon.removable
        rw [view_socket hs]
        rfl
      have hview : (g.setSocket conn.bev { socket with bev := bev' }).view =
          g.view.removeInput conn.bev := by
        refine view_setSocket hs ?_
        show Bufferevent.mk _ _ _ _ = Bufferevent.mk _ _ _ _
        rw [hrest, hbev]
        rfl
      have hsock := h.setSocket conn.bev (s := { socket with bev := bev' }) hsound
      have htouch : Touched B adds g (g.setSocket conn.bev { socket with bev := bev' }) :=
        .setSocket hs (hbev ▸ .remove bev'.input)
      rw [hs]
      dsimp only
      rw [hrun, ok_bind, hremoved, ← hview]
      dsimp only
      split
      · exact ⟨_, rfl, hsock, rfl, htouch.trans (.of_eq rfl)⟩
      · split
        · exact ⟨_, rfl, hsock, rfl, htouch.trans (.of_eq rfl)⟩
        · refine ⟨_, rfl, (hsock.setAuth authGamed).openClientService binds,
            by rw [view_openClientService, view_setAuth], htouch.trans (.of_eq ?_)⟩
          rw [openClientService_sockets, setAuth_sockets]

theorem gamedReadCb_ok (h : g.Sound B) (hw : Wired g.view) (i : Nat) (a : Arrival) (adds : Bool) :
    ∃ g', g.gamedReadCb a.residue a.binds = .ok g' ∧
      Does B adds g g' (Gated.gamedReadCb g.view i a) := by
  have hconn : g.view.gamedConn = g.gamedConn := rfl
  unfold Gate.gamedReadCb Gated.gamedReadCb
  rw [hconn]
  cases hc : g.gamedConn with
  | none => exact ⟨_, rfl, h, rfl, .of_eq rfl⟩
  | some conn =>
    dsimp only
    by_cases hn : conn.auth = authNone
    · rw [if_pos hn, if_pos hn]
      exact readPacket_ok h hw a.residue false a.binds adds
    · rw [if_neg hn, if_neg hn]
      by_cases hg : conn.auth = authGamed
      · rw [if_pos hg, if_pos hg]
        exact readPacket_ok h hw (List.replicate sizeofAuthPacket 0) true a.binds adds
      · rw [if_neg hg, if_neg hg, ite_self]
        exact ⟨_, rfl, h, rfl, .of_eq rfl⟩

theorem clientReadCb_ok (h : g.Sound B) {i : Nat} {socket : Socket}
    (hs : g.sockets[i]? = some socket) (adds : Bool) :
    ∃ g', g.clientReadCb i adds = .ok g' ∧ Does B adds g g' (Gated.clientReadCb g.view i) := by
  obtain ⟨bev', hrun, hecho⟩ := addInputToOutput_ok (h.getElem? hs) adds
  unfold Gate.clientReadCb
  rw [hs]
  dsimp only
  rw [hrun, ok_bind]
  refine ⟨_, rfl, h.setSocket i hecho.sound, view_setSocket hs ?_, .setSocket hs (.echo hecho)⟩
  show Bufferevent.mk _ _ _ _ = Bufferevent.mk _ _ _ _
  rw [hecho.output, hecho.input, ← List.append_assoc]
  rfl

/-- The read callback in the daemon of `Gated.Basic`. -/
def readCallback (s : Daemon) (bev : Nat) (a : Arrival) : Listener → Daemon
  | .gamed => Gated.gamedReadCb s bev a
  | .client => Gated.clientReadCb s bev

theorem callback_data {s : Daemon} {bev : Nat} {l : Listener} (hcb : s.callbacksOf bev = some l)
    (a : Arrival) :
    s.callback (.data bev a) = readCallback (s.receive bev a.bytes) bev a l := by
  cases l with
  | gamed => exact callback_gamedData a hcb
  | client => exact callback_clientData a hcb

/-- The read callback, on bytes that are already in the input. -/
theorem readCb_ok (h : g.Sound B) (hw : Wired g.view) {i : Nat} {socket : Socket}
    (hs : g.sockets[i]? = some socket) {bytes : List UInt8} (hne : bytes ≠ []) (r : Readiness) :
    ∃ g', g.readCb i r socket.callbacks = .ok g' ∧
      Does B r.adds g g'
        (readCallback g.view i ⟨bytes, hne, r.residue, r.binds⟩ socket.callbacks) := by
  cases hl : socket.callbacks with
  | gamed => exact gamedReadCb_ok h hw i ⟨bytes, hne, r.residue, r.binds⟩ r.adds
  | client => exact clientReadCb_ok h hs r.adds

/-! ## Runs -/

theorem Served.history {s s' : Daemon} {a : Arrival} (h : Served s a s') :
    s'.history = s.history := by
  cases h with
  | admits hc ha hcmd =>
    unfold Gated.openClientService Daemon.setAuth
    split <;> split <;> rfl
  | _ => rfl

theorem callback_history (s : Daemon) (e : Event) : (s.callback e).history = s.history := by
  cases e with
  | accept l fd r => cases l <;> cases r <;> rfl
  | acceptError l => cases l <;> rfl
  | data i a =>
    simp only [Daemon.callback]
    split
    · exact (gamedReadCb_served _ i a).history
    · rfl
    · rfl
  | event i what =>
    simp only [Daemon.callback]
    split <;> rfl

/-- The buffers are sound, and the events of the history lead the daemon to the same state. -/
structure Faithful (B : Build) (g : Gate) : Prop where
  sound : g.Sound B
  run : exec Daemon.step .init g.history.reverse = g.view

/-- `event_add` succeeds in this round. -/
def Occurrence.adds : Occurrence → Bool
  | .accept _ _ _ adds => adds
  | .readable _ r => r.adds
  | _ => true

/-- The events of the daemon that an occurrence can be. -/
inductive Occurrence.Yields : Occurrence → Event → Prop
  | accept (l : Listener) (fd : Int) (r : Resources) (adds : Bool) :
      Yields (.accept l fd r adds) (.accept l fd r)
  | acceptError (l : Listener) : Yields (.acceptError l) (.acceptError l)
  | data (i : Nat) {r : Readiness} {bytes : List UInt8} (hne : bytes ≠ [])
      (hpre : bytes <+: r.arrived.pending) :
      Yields (.readable i r) (.data i ⟨bytes, hne, r.residue, r.binds⟩)
  | readEvent (i : Nat) (r : Readiness) (what : BitVec 16) :
      Yields (.readable i r) (.event i what)
  | writeEvent (i : Nat) (accepted : Accepted) (retriable : Bool) (what : BitVec 16) :
      Yields (.writable i accepted retriable) (.event i what)

/-- The daemon does the same step, or none. -/
def Sees (o : Occurrence) (g g' : Gate) : Prop :=
  g'.view = g.view ∨
    ∃ e, o.Yields e ∧ Gated.Enabled g.view e ∧ g'.view = g.view.step e

/-- The sockets after a round: touched, or one more. -/
inductive Evolves (B : Build) (o : Occurrence) (g g' : Gate) : Prop
  | touched (h : Touched B o.adds g g')
  | accepted {l : Listener} {fd : Int} {adds : Bool} (ho : o = .accept l fd .both adds)
      (h : g'.sockets =
        g.sockets ++ [⟨fd, l, Libevent.Bufferevent.socketNew.enable adds, []⟩])

namespace Faithful

theorem init : Faithful B .init := ⟨fun _ h => absurd h List.not_mem_nil, rfl⟩

theorem wired (h : Faithful B g) : Wired g.view := h.run ▸ wired_exec _

/-- A change that the daemon does not see. -/
theorem silent (h : Faithful B g) {g' : Gate} (hs : g'.Sound B) (hv : g'.view = g.view) :
    Faithful B g' := by
  have hh : g'.history = g.history := congrArg Daemon.history hv
  exact ⟨hs, by rw [hh, hv, h.run]⟩

theorem view_log {g' : Gate} {e : Event} (hen : Gated.Enabled g.view e)
    (hv : g'.view = g.view.callback e) : (g'.log e).view = g.view.step e := by
  have hh : g'.history = g.history := (congrArg Daemon.history hv).trans (callback_history g.view e)
  rw [step_enabled hen, ← hv]
  show ({ g'.view with history := e :: g'.history } : Daemon) = _
  rw [hh]
  rfl

/-- A change that is an event of the daemon. -/
theorem log (h : Faithful B g) {g' : Gate} {e : Event} (hen : Gated.Enabled g.view e)
    (hs : g'.Sound B) (hv : g'.view = g.view.callback e) : Faithful B (g'.log e) := by
  have hh : g'.history = g.history := (congrArg Daemon.history hv).trans (callback_history g.view e)
  refine ⟨hs, ?_⟩
  show exec Daemon.step .init (e :: g'.history).reverse = (g'.log e).view
  rw [hh, List.reverse_cons, exec_concat, h.run, view_log hen hv]

end Faithful

/-- One round: what it leaves, what the daemon sees of it, and what becomes of the sockets. -/
structure Round (B : Build) (o : Occurrence) (g g' : Gate) : Prop where
  faithful : Faithful B g'
  sees : Sees o g g'
  evolves : Evolves B o g g'

namespace Round

theorem refl (h : Faithful B g) (o : Occurrence) : Round B o g g :=
  ⟨h, Or.inl rfl, .touched (.of_eq rfl)⟩

theorem silent {o : Occurrence} {g' : Gate} (h : Faithful B g) (hs : g'.Sound B)
    (hv : g'.view = g.view) (he : Evolves B o g g') : Round B o g g' :=
  ⟨h.silent hs hv, Or.inl hv, he⟩

theorem log {o : Occurrence} {g' : Gate} {e : Event} (h : Faithful B g)
    (hen : Gated.Enabled g.view e) (hy : o.Yields e) (hs : g'.Sound B)
    (hv : g'.view = g.view.callback e) (he : Evolves B o g (g'.log e)) :
    Round B o g (g'.log e) :=
  ⟨h.log hen hs hv, Or.inr ⟨e, hy, hen, Faithful.view_log hen hv⟩, he⟩

end Round

namespace Faithful

/-- Of a socket there is as much after a change as before. -/
theorem setSocket_self {i : Nat} {s : Socket} (hi : g.sockets[i]? = some s) (s' : Socket) :
    (g.setSocket i s').sockets[i]? = some s' := by
  unfold Gate.setSocket
  exact List.getElem?_set_self (List.getElem?_eq_some_iff.1 hi).1

theorem readable (h : Faithful B g) {i : Nat} {r : Readiness} (hen : g.Enabled (.readable i r)) :
    ∃ g', g.step B (.readable i r) = .ok g' ∧ Round B (.readable i r) g g' := by
  have hpending := hen.2
  unfold Gate.step
  rw [if_pos hen]
  dsimp only at hpending ⊢
  cases hi : g.sockets[i]? with
  | none => exact ⟨g, rfl, .refl h _⟩
  | some socket =>
    obtain ⟨next, bev', hrun, hread, hpre⟩ :=
      readcb_ok (h.sound.getElem? hi) r.readable r.arrived r.memory r.retriable
    rw [hi, Option.map_some] at hpending
    dsimp only
    rw [hrun, ok_bind]
    have hsock := h.sound.setSocket i (s := { socket with bev := bev' }) hread.sound
    have hat := setSocket_self hi { socket with bev := bev' }
    have htouch : Touched B r.adds g (g.setSocket i { socket with bev := bev' }) :=
      .setSocket hi (.read (Option.some.inj hpending) hread)
    have hlt : i < g.view.bevs.length := (List.getElem?_eq_some_iff.1 (view_socket hi)).1
    -- the bytes read are those that the daemon receives
    have hview : (g.setSocket i { socket with bev := bev' }).view =
        g.view.receive i next.bytes := by
      refine view_setSocket hi ?_
      show Bufferevent.mk _ _ _ _ = Bufferevent.mk _ _ _ _
      rw [hread.input, hread.output]
      rfl
    cases next with
    | nothing => exact ⟨_, rfl, .silent h hsock (hview.trans (receive_nil _ _)) (.touched htouch)⟩
    | eventcb what =>
      have hev := view_errorCb hat what
      rw [hview.trans (receive_nil _ _)] at hev
      exact ⟨_, rfl, .log h ⟨hen.1, hlt⟩ (.readEvent i r what) (hsock.errorCb socket.callbacks) hev
        (.touched (htouch.trans (.of_eq (errorCb_sockets _ _))))⟩
    | readcb bytes =>
      have hne : bytes ≠ [] := hread.nonempty bytes rfl
      have hcb : g.view.callbacksOf i = some socket.callbacks := callbacksOf_eq (view_socket hi)
      have hwired : Wired (g.setSocket i { socket with bev := bev' }).view := by
        unfold Wired
        rw [hview, wiring_receive]
        exact h.wired
      obtain ⟨g', hcall, hdoes⟩ := readCb_ok hsock hwired hat hne r
      dsimp only [Gate.dispatch]
      rw [hcall, ok_bind, dif_pos hne]
      refine ⟨_, rfl, .log h ⟨hen.1, hlt⟩ (.data i hne hpre) hdoes.sound ?_
        (.touched (htouch.trans (hdoes.touched.trans (.of_eq rfl))))⟩
      rw [hdoes.view, hview, callback_data hcb]
      rfl

theorem writable (h : Faithful B g) {i : Nat} {accepted : Accepted} {retriable : Bool}
    (hen : g.Enabled (.writable i accepted retriable)) :
    ∃ g', g.step B (.writable i accepted retriable) = .ok g' ∧
      Round B (.writable i accepted retriable) g g' := by
  have hpending := hen.2
  unfold Gate.step
  rw [if_pos hen]
  dsimp only at hpending ⊢
  cases hi : g.sockets[i]? with
  | none => exact ⟨g, rfl, .refl h _⟩
  | some socket =>
    obtain ⟨next, bev', sent, hrun, hwrite, -⟩ :=
      writecb_ok (h.sound.getElem? hi) accepted retriable
    rw [hi, Option.map_some] at hpending
    dsimp only
    rw [hrun, ok_bind]
    have hsock := h.sound.setSocket i
      (s := { socket with bev := bev', sent := socket.sent ++ sent }) hwrite.sound
    have hat := setSocket_self hi { socket with bev := bev', sent := socket.sent ++ sent }
    have htouch : Touched B true g
        (g.setSocket i { socket with bev := bev', sent := socket.sent ++ sent }) :=
      .setSocket hi (.write (Option.some.inj hpending) hwrite)
    have hlt : i < g.view.bevs.length := (List.getElem?_eq_some_iff.1 (view_socket hi)).1
    -- bytes that were sent stay part of what the daemon has written
    have hview : (g.setSocket i { socket with bev := bev', sent := socket.sent ++ sent }).view =
        g.view := by
      refine view_setSocket_same hi ?_
      show Bufferevent.mk _ _ _ _ = Bufferevent.mk _ _ _ _
      rw [hwrite.input, hwrite.output, List.append_assoc]
    cases next with
    | nothing => exact ⟨_, rfl, .silent h hsock hview (.touched htouch)⟩
    | readcb bytes => exact ⟨_, rfl, .silent h hsock hview (.touched htouch)⟩
    | eventcb what =>
      have hev := view_errorCb hat what
      rw [hview] at hev
      exact ⟨_, rfl, .log h ⟨hen.1, hlt⟩ (.writeEvent i accepted retriable what)
        (hsock.errorCb socket.callbacks) hev
        (.touched (htouch.trans (.of_eq (errorCb_sockets _ _))))⟩

theorem accept (h : Faithful B g) {l : Listener} {fd : Int} {r : Resources} {adds : Bool}
    (hen : g.Enabled (.accept l fd r adds)) :
    ∃ g', g.step B (.accept l fd r adds) = .ok g' ∧ Round B (.accept l fd r adds) g g' := by
  unfold Gate.step
  rw [if_pos hen]
  have hview := view_accept g l fd adds r
  cases r with
  | both =>
    refine ⟨_, rfl, .log h hen (.accept ..) ?_ hview (.accepted rfl rfl)⟩
    intro socket hsocket
    rcases List.mem_append.1 hsocket with hold | hnew
    · exact h.sound socket hold
    · rw [List.mem_singleton.1 hnew]
      exact Libevent.Bufferevent.sound_socketNew.congr rfl rfl
  | noMemory => exact ⟨_, rfl, .log h hen (.accept ..) h.sound hview (.touched (.of_eq rfl))⟩
  | noBufferevent => exact ⟨_, rfl, .log h hen (.accept ..) h.sound hview (.touched (.of_eq rfl))⟩

/-- One round of the event loop, whatever happens in it. -/
theorem step (h : Faithful B g) (o : Occurrence) :
    ∃ g', g.step B o = .ok g' ∧ Round B o g g' := by
  by_cases hen : g.Enabled o
  · cases o with
    | accept l fd r adds => exact h.accept hen
    | acceptError l =>
      unfold Gate.step
      rw [if_pos hen]
      refine ⟨_, rfl, .log h hen (.acceptError l) ?_ (view_acceptErrorCb g l)
        (.touched (.of_eq (acceptErrorCb_sockets g l)))⟩
      cases l <;> exact h.sound
    | readable i r => exact h.readable hen
    | writable i accepted retriable => exact h.writable hen
  · unfold Gate.step
    rw [if_neg hen]
    exact ⟨g, rfl, .refl h o⟩

end Faithful

end GameServer.Gated
