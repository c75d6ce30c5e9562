/-
  One stream, cut in different ways.

  gamed's connection sends its packet and whatever follows; libevent delivers the stream in
  pieces. Delivered as a whole, the packet is read and the rest stays in the input buffer.
  Cut in two or more pieces it never ends that way: a first piece with less than the packet
  is read like a whole one, and any piece after an admitted packet runs into the assertion of
  the rpc handler. Only a daemon that could not open the client port, and so exits on the
  first piece, can leave the same behind (`cut_iff`).
-/
import GameServer.Gated.Callbacks

namespace GameServer.Gated

open CInt Runs

/-- What is compared: the flag of `g_gamed_conn`, the calls of `open_client_service`, the
    bytes left in the input of `g_gamed_conn`, and how the process ended. -/
structure Outcome where
  auth : Option Int
  opened : Nat
  unconsumed : List UInt8
  stopped : Option Stop
  deriving DecidableEq, Repr

def Daemon.outcome (s : Daemon) : Outcome where
  auth := s.gamedConn.map NetConnection.auth
  opened := s.opened
  unconsumed := ((s.gamedConn.bind fun conn => s.bevs[conn.bev]?).map Bufferevent.input).getD []
  stopped := s.stopped

/-- gamed connects on descriptor `fd`, and its stream arrives in these pieces. -/
def delivered (fd : Int) (pieces : List Arrival) : Daemon :=
  exec Daemon.step .init (.accept .gamed fd .both :: pieces.map (.data 0))

/-- The command that `gamed_read_auth_packet` sees in a first piece. -/
def Arrival.command (a : Arrival) : Int := (overlay (a.bytes.take sizeofAuthPacket) a.residue).cmd

/-! ## The states of a daemon with one connection -/

/-- One connection of gamed and nothing else. -/
def single (fd auth : Int) (opened : Nat) (input : List UInt8) (stopped : Option Stop)
    (history : List Event) : Daemon :=
  ⟨[⟨fd, auth, 0⟩], [⟨fd, .gamed, input, []⟩], some 0, [⟨fd, .gamed⟩], opened, false, stopped,
    history⟩

section Single

variable (fd : Int) (input : List UInt8) (history : List Event) (a : Arrival)

theorem outcome_single (auth : Int) (opened : Nat) (stopped : Option Stop) :
    (single fd auth opened input stopped history).outcome =
      ⟨some auth, opened, input, stopped⟩ := rfl

theorem single_enabled (auth : Int) (opened : Nat) :
    Enabled (single fd auth opened input none history) (.data 0 a) :=
  ⟨rfl, Nat.zero_lt_one⟩

/-- The first piece. -/
theorem single_first :
    (single fd authNone 0 [] none history).step (.data 0 a) =
      if a.command = authGamed then
        single fd authGamed 1 (a.bytes.drop sizeofAuthPacket)
          (if a.binds then none else some .exit) (.data 0 a :: history)
      else
        single fd authNone 0 (a.bytes.drop sizeofAuthPacket) (some .exit)
          (.data 0 a :: history) := by
  rw [step_enabled (single_enabled fd [] history a authNone 0), callback_gamedData a rfl]
  have hc : ((single fd authNone 0 [] none history).receive 0 a.bytes).gamedConn =
      some ⟨fd, authNone, 0⟩ := rfl
  have hcb : gamedReadCb ((single fd authNone 0 [] none history).receive 0 a.bytes) 0 a =
      gamedReadAuthPacket ((single fd authNone 0 [] none history).receive 0 a.bytes) a := by
    simp [gamedReadCb, hc]
  rw [hcb, gamedReadAuthPacket_eq hc rfl]
  by_cases hcmd : a.command = authGamed
  · have hcmd' : ¬ (overlay (((single fd authNone 0 [] none history).receive 0 a.bytes).removable 0)
        a.residue).cmd ≠ authGamed := fun h => h hcmd
    rw [if_neg hcmd', if_pos hcmd]
    cases a.binds <;> rfl
  · have hcmd' : (overlay (((single fd authNone 0 [] none history).receive 0 a.bytes).removable 0)
        a.residue).cmd ≠ authGamed := hcmd
    rw [if_pos hcmd', if_neg hcmd]
    rfl

/-- A piece after an admitted packet. -/
theorem single_later (opened : Nat) :
    (single fd authGamed opened input none history).step (.data 0 a) =
      single fd authGamed opened (input ++ a.bytes) (some .abort) (.data 0 a :: history) := by
  have hc : ((single fd authGamed opened input none history).receive 0 a.bytes).gamedConn =
      some ⟨fd, authGamed, 0⟩ := rfl
  rw [step_enabled (single_enabled fd input history a authGamed opened), callback_gamedData a rfl,
    gamedReadCb_asserts hc rfl]
  rfl

end Single

theorem exec_stopped {s : Daemon} (hs : s.stopped ≠ none) (events : List Event) :
    exec Daemon.step s events = s := by
  induction events with
  | nil => rfl
  | cons e events ih => rw [exec_cons, step_disabled fun h => hs h.1, ih]

/-! ## Outcomes -/

theorem delivered_cons (fd : Int) (a : Arrival) (pieces : List Arrival) :
    delivered fd (a :: pieces) =
      exec Daemon.step ((single fd authNone 0 [] none [.accept .gamed fd .both]).step (.data 0 a))
        (pieces.map (.data 0)) := by
  have haccept : Daemon.init.step (.accept .gamed fd .both) =
      single fd authNone 0 [] none [.accept .gamed fd .both] :=
    step_enabled ⟨rfl, List.not_mem_nil, by simp⟩
  rw [delivered, exec_cons, haccept, List.map_cons, exec_cons]

/-- The outcome when the stream arrives in one piece. -/
theorem outcome_one (fd : Int) {a : Arrival} (hcmd : a.command = authGamed) :
    (delivered fd [a]).outcome =
      ⟨some authGamed, 1, a.bytes.drop sizeofAuthPacket, if a.binds then none else some .exit⟩ := by
  rw [delivered_cons, single_first, if_pos hcmd, List.map_nil, exec_nil, outcome_single]

/-- The outcome when it arrives in two pieces or more. -/
theorem outcome_more (fd : Int) (first second : Arrival) (more : List Arrival) :
    (delivered fd (first :: second :: more)).outcome =
      if first.command = authGamed then
        if first.binds then
          ⟨some authGamed, 1, first.bytes.drop sizeofAuthPacket ++ second.bytes, some .abort⟩
        else ⟨some authGamed, 1, first.bytes.drop sizeofAuthPacket, some .exit⟩
      else ⟨some authNone, 0, first.bytes.drop sizeofAuthPacket, some .exit⟩ := by
  rw [delivered_cons, single_first]
  by_cases hcmd : first.command = authGamed
  · rw [if_pos hcmd, if_pos hcmd]
    cases hbinds : first.binds with
    | false =>
      rw [if_neg Bool.false_ne_true, if_neg Bool.false_ne_true, exec_stopped (by simp [single]),
        outcome_single]
    | true =>
      rw [if_pos rfl, if_pos rfl, List.map_cons, exec_cons, single_later,
        exec_stopped (by simp [single]), outcome_single]
  · rw [if_neg hcmd, if_neg hcmd, exec_stopped (by simp [single]), outcome_single]

/-- A stream that starts with the packet of gamed shows its command when eight bytes of it
    have arrived. -/
theorem command_hello {a : Arrival} {rest : List UInt8} (h : a.bytes = gamedHello ++ rest) :
    a.command = authGamed := by
  have htake : a.bytes.take sizeofAuthPacket = gamedHello := by
    rw [h]
    exact List.take_left' (by decide)
  unfold Arrival.command
  rw [htake, overlay_full (by decide)]
  decide

/-- The first of several pieces leaves the same bytes as the whole stream only when nothing
    follows the packet. -/
theorem left_eq_iff {first rest : List UInt8} (later : List UInt8) (hlater : later ≠ [])
    (hcut : first ++ later = gamedHello ++ rest) :
    first.drop sizeofAuthPacket = rest ↔ rest = [] := by
  have hlen := congrArg List.length hcut
  have hhello : gamedHello.length = sizeofAuthPacket := by decide
  have hpos := List.length_pos_iff.2 hlater
  rw [List.length_append, List.length_append, hhello] at hlen
  constructor
  · intro hdrop
    have hrest := congrArg List.length hdrop
    rw [List.length_drop] at hrest
    exact List.length_eq_zero_iff.1 (by omega)
  · intro hrest
    subst hrest
    rw [List.length_nil] at hlen
    exact List.drop_eq_nil_of_le (by omega)

/-- A stream that starts with the packet of gamed ends the same in pieces and as a whole if
    and only if it arrives in one piece, or the client port cannot be bound, nothing follows
    the packet, and the first piece shows its command. -/
theorem cut_iff (fd : Int) {pieces : List Arrival} {whole : Arrival} {rest : List UInt8}
    (hstream : whole.bytes = gamedHello ++ rest)
    (hcut : (pieces.map Arrival.bytes).flatten = whole.bytes)
    (hbinds : ∀ a ∈ pieces, a.binds = whole.binds) :
    (delivered fd pieces).outcome = (delivered fd [whole]).outcome ↔
      pieces.length = 1 ∨
        whole.binds = false ∧ rest = [] ∧ ∀ first ∈ pieces.head?, first.command = authGamed := by
  rw [outcome_one fd (command_hello hstream)]
  match pieces with
  | [] =>
    rw [hstream] at hcut
    exact absurd hcut.symm (List.append_ne_nil_of_left_ne_nil (by decide) _)
  | [a] =>
    have hbytes : a.bytes = whole.bytes := by simpa using hcut
    rw [outcome_one fd (command_hello (hbytes.trans hstream)), hbytes, hbinds a (by simp)]
    simp
  | first :: second :: more =>
    rw [outcome_more, hbinds first (by simp)]
    have hdrop : whole.bytes.drop sizeofAuthPacket = rest := by
      rw [hstream]
      exact List.drop_left' (by decide)
    have hleft : first.bytes.drop sizeofAuthPacket = rest ↔ rest = [] := by
      apply left_eq_iff ((second :: more).map Arrival.bytes).flatten
      · simp [second.nonempty]
      · rw [← hstream, ← hcut]
        rfl
    by_cases hcmd : first.command = authGamed
    · cases hb : whole.binds with
      | false => simp [hcmd, hdrop, hleft]
      | true => simp [hcmd]
    · simp [hcmd, show authNone ≠ authGamed by decide]

/-- The packet of gamed in one piece. -/
def helloWhole (binds : Bool) : Arrival := ⟨gamedHello, by decide, [], binds⟩

/-- The packet of gamed in two halves. -/
def helloHalves (binds : Bool) : List Arrival :=
  [⟨gamedHello.take 4, by decide, [], binds⟩, ⟨gamedHello.drop 4, by decide, [], binds⟩]

/-- Where the client port cannot be bound, the process exits with the first half as with the
    whole packet. -/
theorem hello_in_halves_unbound :
    (delivered 5 (helloHalves false)).outcome = (delivered 5 [helloWhole false]).outcome :=
  (cut_iff 5 (List.append_nil gamedHello).symm (by decide) (by decide)).2
    (Or.inr ⟨rfl, rfl, by decide⟩)

/-- In one piece the packet is accepted, in two halves the second one aborts the process. -/
theorem hello_in_halves :
    ((helloHalves true).map Arrival.bytes).flatten = (helloWhole true).bytes ∧
      (∀ a ∈ helloHalves true, a.binds = (helloWhole true).binds) ∧
      (delivered 5 (helloHalves true)).outcome ≠ (delivered 5 [helloWhole true]).outcome := by
  decide

end GameServer.Gated
