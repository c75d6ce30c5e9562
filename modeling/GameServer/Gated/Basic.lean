/-
  The gate daemon: the libevent callbacks of `src/gated.c`, with `net_new_connection` of
  `src/network.c` and the packet that `socket_init` of `src/gamed.c` sends.

  A pointer to a `net_connection_t` is a position in `Daemon.conns`, a pointer to a
  bufferevent a position in `Daemon.bevs`; `none` is NULL. Both lists hold the objects made
  so far: nothing frees one once `net_new_connection` has returned it.

  The event loop is a step function. An `Event` is one callback that libevent makes, with
  everything decided outside the program: the descriptor accepted and whether the two
  allocations succeed, the bytes that arrived and the old contents of the local `authpack`,
  whether the port of the client listener can be bound. `Enabled` are the events that can
  come next: a descriptor that is open is not accepted again, clients are accepted once
  their listener exists, and a process that is gone gets no callback. After
  `event_base_loopexit` the callbacks already active are still made, so it only sets a flag.

  `evbuffer_remove` takes as many bytes as there are, up to the number asked for. Bytes
  written to a client stay in `output`.
-/
import GameServer.Lib.CInt
import GameServer.Lib.Run

namespace GameServer.Gated

open CInt

/-- `AUTH_ERROR`, `AUTH_NONE` and `AUTH_GAMED` -/
def authError : Int := -1
def authNone : Int := 0
def authGamed : Int := 3

/-- `auth_packet_t` -/
structure AuthPacket where
  cmd : Int
  len : Int
  deriving DecidableEq, Repr

/-- `sizeof(auth_packet_t)` -/
def sizeofAuthPacket : Nat := 8

def AuthPacket.bytes (p : AuthPacket) : List UInt8 := intBytes p.cmd ++ intBytes p.len

def AuthPacket.ofBytes (bs : List UInt8) : AuthPacket := ⟨readInt bs 0, readInt bs 4⟩

/-- What `socket_init` of gamed sends. -/
def gamedHello : List UInt8 := (AuthPacket.mk authGamed sizeofAuthPacket).bytes

/-! ## State -/

/-- The listener that accepts a connection also decides its callbacks. -/
inductive Listener where
  | gamed
  | client
  deriving DecidableEq, Repr

/-- A `struct bufferevent` made for a socket. -/
structure Bufferevent where
  fd : Int
  callbacks : Listener
  input : List UInt8
  output : List UInt8
  deriving DecidableEq, Repr

/-- `net_connection_t` -/
structure NetConnection where
  fd : Int
  auth : Int
  bev : Nat
  deriving DecidableEq, Repr

/-- The ways in which the process ends at once. -/
inductive Stop where
  | exit
  | abort
  | segv
  deriving DecidableEq, Repr

/-- An open socket, and the listener that accepted it. -/
structure Descriptor where
  fd : Int
  listener : Listener
  deriving DecidableEq, Repr

/-- Outcome of the two allocations in `net_new_connection`. -/
inductive Resources where
  | both
  | noMemory
  | noBufferevent
  deriving DecidableEq, Repr

/-- One read callback: the bytes that have arrived since the last one, what the stack holds
    where `authpack` will be, and whether the client port can be bound. -/
structure Arrival where
  bytes : List UInt8
  nonempty : bytes ≠ []
  residue : List UInt8
  binds : Bool
  deriving DecidableEq

inductive Event where
  | accept (listener : Listener) (fd : Int) (resources : Resources)
  | acceptError (listener : Listener)
  | data (bev : Nat) (arrival : Arrival)
  | event (bev : Nat) (what : BitVec 16)
  deriving DecidableEq

/-- The process. `opened` counts the calls of `open_client_service`, `leaving` is set by
    `event_base_loopexit`, and `history` are the events so far, newest first. -/
structure Daemon where
  conns : List NetConnection
  bevs : List Bufferevent
  gGamedConn : Option Nat
  descriptors : List Descriptor
  opened : Nat
  leaving : Bool
  stopped : Option Stop
  history : List Event

/-- After `gated_init`: only the listener for gamed exists. -/
def Daemon.init : Daemon := ⟨[], [], none, [], 0, false, none, []⟩

def Daemon.stop (s : Daemon) (how : Stop) : Daemon := { s with stopped := some how }

/-- `event_base_loopexit` -/
def Daemon.loopExit (s : Daemon) : Daemon := { s with leaving := true }

/-- `*g_gamed_conn` -/
def Daemon.gamedConn (s : Daemon) : Option NetConnection := s.gGamedConn.bind (s.conns[·]?)

/-- `g_gamed_conn->auth = auth` -/
def Daemon.setAuth (s : Daemon) (auth : Int) : Daemon :=
  match s.gGamedConn with
  | none => s
  | some g => { s with conns := s.conns.modify g fun c => { c with auth := auth } }

/-! ## Connections -/

/-- `net_new_connection`. Neither failure touches the descriptor; after the second one the
    structure is freed again. -/
def netNewConnection (s : Daemon) (fd : Int) (callbacks : Listener) :
    Resources → Option Nat × Daemon
  | .noMemory => (none, s)
  | .noBufferevent => (none, s)
  | .both =>
    (some s.conns.length,
      { s with
        conns := s.conns ++ [{ fd := fd, auth := authNone, bev := s.bevs.length }]
        bevs := s.bevs ++ [{ fd := fd, callbacks := callbacks, input := [], output := [] }] })

/-- The accept callbacks: each stores the new connection in `g_gamed_conn`. -/
def acceptCb (callbacks : Listener) (s : Daemon) (fd : Int) (r : Resources) : Daemon :=
  let (conn, s) := netNewConnection s fd callbacks r
  { s with gGamedConn := conn }

/-- `client_accept_cb` -/
def clientAcceptCb : Daemon → Int → Resources → Daemon := acceptCb .client

/-- `gamed_accept_cb` -/
def gamedAcceptCb : Daemon → Int → Resources → Daemon := acceptCb .gamed

/-- `client_accept_error_cb` reports the error. -/
def clientAcceptErrorCb (s : Daemon) : Daemon := s

/-- `gamed_accept_error_cb` -/
def gamedAcceptErrorCb (s : Daemon) : Daemon := s.loopExit

/-- `client_error_cb` reports the error, whatever `what` says. -/
def clientErrorCb (s : Daemon) (_bev : Nat) (_what : BitVec 16) : Daemon := s

/-- `gamed_error_cb` -/
def gamedErrorCb (s : Daemon) (_bev : Nat) (_what : BitVec 16) : Daemon := s.loopExit

/-- `client_read_cb`: the client gets back what it sent. -/
def clientReadCb (s : Daemon) (bev : Nat) : Daemon :=
  { s with bevs := s.bevs.modify bev fun b =>
      { b with input := [], output := b.output ++ b.input } }

/-! ## Packets from gamed -/

/-- `open_client_service`; it exits when the listener cannot be made. -/
def openClientService (s : Daemon) (binds : Bool) : Daemon :=
  let s := { s with opened := s.opened + 1 }
  if binds then s else s.stop .exit

/-- The bytes that `evbuffer_remove(input, &authpack, sizeof(authpack))` finds. -/
def Daemon.removable (s : Daemon) (bev : Nat) : List UInt8 :=
  match s.bevs[bev]? with
  | some b => b.input.take sizeofAuthPacket
  | none => []

def Daemon.removeInput (s : Daemon) (bev : Nat) : Daemon :=
  { s with bevs := s.bevs.modify bev fun b => { b with input := b.input.drop sizeofAuthPacket } }

/-- `authpack` after `removed` was copied over its old contents. -/
def overlay (removed old : List UInt8) : AuthPacket :=
  .ofBytes (removed ++ old.drop removed.length)

/-- The two packet handlers. `old` is what `authpack` holds at first, `lenFatal` says
    whether a wrong length ends the process. -/
def readPacket (old : List UInt8) (lenFatal : Bool) (s : Daemon) (binds : Bool) : Daemon :=
  match s.gamedConn with
  | none => s.stop .segv
  | some conn =>
    if conn.auth ≠ authNone then s.stop .abort
    else
      let removed := s.removable conn.bev
      let authpack := overlay removed old
      let s := s.removeInput conn.bev
      if lenFatal ∧ (removed.length : Int) ≠ authpack.len then s.stop .exit
      else if authpack.cmd ≠ authGamed then s.stop .exit
      else openClientService (s.setAuth authGamed) binds

/-- `gamed_read_auth_packet`: `authpack` is not initialised, and a wrong length is only
    reported. -/
def gamedReadAuthPacket (s : Daemon) (a : Arrival) : Daemon := readPacket a.residue false s a.binds

/-- `gamed_read_rpc_packet` -/
def gamedReadRpcPacket (s : Daemon) (a : Arrival) : Daemon :=
  readPacket (List.replicate sizeofAuthPacket 0) true s a.binds

/-- `gamed_read_cb`. It does not look at its `bev`. -/
def gamedReadCb (s : Daemon) (_bev : Nat) (a : Arrival) : Daemon :=
  match s.gamedConn with
  | none => s.stop .segv
  | some conn =>
    if conn.auth = authNone then gamedReadAuthPacket s a
    else if conn.auth = authGamed then gamedReadRpcPacket s a
    else if conn.auth = authError then s
    else s

/-! ## The event loop -/

def Daemon.openFds (s : Daemon) : List Int := s.descriptors.map Descriptor.fd

/-- The events that can come next. -/
def Enabled (s : Daemon) (e : Event) : Prop :=
  s.stopped = none ∧
    match e with
    | .accept l fd _ => fd ∉ s.openFds ∧ (l = .client → 0 < s.opened)
    | .acceptError l => l = .client → 0 < s.opened
    | .data bev _ => bev < s.bevs.length
    | .event bev _ => bev < s.bevs.length

instance (s : Daemon) : (e : Event) → Decidable (Enabled s e)
  | .accept _ _ _ => inferInstanceAs (Decidable (_ ∧ _ ∧ _))
  | .acceptError _ => inferInstanceAs (Decidable (_ ∧ _))
  | .data _ _ => inferInstanceAs (Decidable (_ ∧ _))
  | .event _ _ => inferInstanceAs (Decidable (_ ∧ _))

/-- libevent moves what has arrived to the input buffer. -/
def Daemon.receive (s : Daemon) (bev : Nat) (bytes : List UInt8) : Daemon :=
  { s with bevs := s.bevs.modify bev fun b => { b with input := b.input ++ bytes } }

/-- The callback of a bufferevent, by the listener that made it. -/
def Daemon.callbacksOf (s : Daemon) (bev : Nat) : Option Listener :=
  s.bevs[bev]?.map Bufferevent.callbacks

/-- The callback that libevent makes for an event. -/
def Daemon.callback (s : Daemon) : Event → Daemon
  | .accept l fd r =>
    let s := { s with descriptors := ⟨fd, l⟩ :: s.descriptors }
    match l with
    | .gamed => gamedAcceptCb s fd r
    | .client => clientAcceptCb s fd r
  | .acceptError .gamed => gamedAcceptErrorCb s
  | .acceptError .client => clientAcceptErrorCb s
  | .data bev a =>
    let s := s.receive bev a.bytes
    match s.callbacksOf bev with
    | some .gamed => gamedReadCb s bev a
    | some .client => clientReadCb s bev
    | none => s
  | .event bev what =>
    match s.callbacksOf bev with
    | some .gamed => gamedErrorCb s bev what
    | some .client => clientErrorCb s bev what
    | none => s

/-- One round of the event loop; what cannot happen leaves the process as it is. -/
def Daemon.step (s : Daemon) (e : Event) : Daemon :=
  if Enabled s e then { s.callback e with history := e :: s.history } else s

end GameServer.Gated
