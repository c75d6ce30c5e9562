/-
  Whose connection a read callback works on.

  `gamed_read_cb` uses `g_gamed_conn` whatever the bufferevent of its call. It serves the
  connection that the event belongs to at every call of a run if and only if each of these
  calls is for the bufferevent made by the latest accept (`serves_own_iff`): a client, a
  second gamed, or an accept for which no connection could be made takes the pointer away
  from the connection served so far (`client_takes_link`).
-/
import GameServer.Gated.Callbacks

namespace GameServer.Gated

open CInt Runs

/-- When libevent calls `gamed_read_cb` for a bufferevent, `g_gamed_conn->bev` is that one. -/
def ServesOwn (s : Daemon) : Event → Prop
  | .data bev a => Enabled s (.data bev a) → s.callbacksOf bev = some .gamed →
      ∃ conn, s.gamedConn = some conn ∧ conn.bev = bev
  | _ => True

/-- When data arrives from gamed, nothing was accepted after the connection it arrives on. -/
def LatestAccepted (s : Daemon) : Event → Prop
  | .data bev a => Enabled s (.data bev a) → s.callbacksOf bev = some .gamed →
      latestAccept s.history = (s.bevs[bev]?).map fun b => (.gamed, b.fd, .both)
  | _ => True

theorem servesOwn_iff {s : Daemon} (h : Wired s) (e : Event) :
    ServesOwn s e ↔ LatestAccepted s e := by
  cases e with
  | data bev a =>
    refine forall_congr' fun _ => forall_congr' fun hcb => ?_
    obtain ⟨b, hb, hgamed⟩ := Option.map_eq_some_iff.1 hcb
    rw [h.linked_iff hb, hb, Option.map_some, hgamed]
  | accept l fd r => exact Iff.rfl
  | acceptError l => exact Iff.rfl
  | event bev what => exact Iff.rfl

/-- In every run, `gamed_read_cb` always finds the connection of its own bufferevent in
    `g_gamed_conn` if and only if data from gamed only ever arrives on the connection
    accepted last. -/
theorem serves_own_iff (events : List Event) :
    Along Daemon.step ServesOwn .init events ↔ Along Daemon.step LatestAccepted .init events :=
  along_iff (fun s e h _ => wired_step s e h) (fun _ e h => servesOwn_iff h e) wired_init events

/-- gamed logs in, a client is accepted on descriptor 6, and gamed sends a byte. -/
def clientBetween : List Event :=
  login [] [] true ++ [.accept .client 6 .both, .data 0 oneByte]

theorem client_takes_link : ¬ Along Daemon.step ServesOwn .init clientBetween := by
  intro h
  obtain ⟨conn, hconn, hbev⟩ := along_at (clientBetween.take 3) h (by decide) (by decide)
  have hlinked : (exec Daemon.step .init (clientBetween.take 3)).gamedConn =
      some { fd := 6, auth := authNone, bev := 1 } := by decide
  obtain rfl := Option.some.inj (hlinked.symm.trans hconn)
  exact absurd hbev (by decide)

end GameServer.Gated
