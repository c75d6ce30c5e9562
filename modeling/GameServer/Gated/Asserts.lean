/-
  The assertions of the packet handlers.

  `gamed_read_cb` calls `gamed_read_rpc_packet` for an authenticated connection, and that
  handler asserts that the connection is not authenticated. So the daemon aborts at the first
  data from gamed after an admitted packet, unless an accept has moved `g_gamed_conn` in
  between: no assertion fails in a run if and only if data from gamed is never served twice
  after the same accept (`asserts_hold_iff`).
-/
import GameServer.Gated.Callbacks

namespace GameServer.Gated

open CInt Runs

/-- No assertion fails at this event. -/
def AssertsHold (s : Daemon) (e : Event) : Prop := (s.step e).stopped ≠ some .abort

/-- Data of a bufferevent in `gamedBevs` came after the latest accept. -/
def ServedSince (gamedBevs : Nat → Prop) : List Event → Prop
  | [] => False
  | .accept _ _ _ :: _ => False
  | .data bev _ :: history => gamedBevs bev ∨ ServedSince gamedBevs history
  | _ :: history => ServedSince gamedBevs history

/-- Data from gamed was served after the latest accept. -/
def Daemon.served (s : Daemon) : Prop :=
  ServedSince (fun bev => s.callbacksOf bev = some .gamed) s.history

/-- When data arrives from gamed, none was served before it since the latest accept. -/
def FirstServed (s : Daemon) : Event → Prop
  | .data bev a => Enabled s (.data bev a) → s.callbacksOf bev = some .gamed → ¬ s.served
  | _ => True

/-- While the process runs, `g_gamed_conn` is authenticated once it has been served. -/
structure ServedInv (s : Daemon) : Prop where
  flagged : Flagged s
  holds : s.stopped ≠ some .abort
  served : s.stopped = none →
    (s.served ↔ ∃ conn, s.gamedConn = some conn ∧ conn.auth = authGamed)

theorem servedInv_init : ServedInv .init :=
  ⟨fun _ h => absurd h List.not_mem_nil, by simp [Daemon.init],
    fun _ => iff_of_false id fun ⟨_, h, _⟩ => by simp [Daemon.gamedConn, Daemon.init] at h⟩

theorem callbacksOf_of_wiring {s s' : Daemon} (h : s'.wiring = s.wiring) :
    s'.callbacksOf = s.callbacksOf := by
  funext bev
  rw [callbacksOf_wiring, h, ← callbacksOf_wiring]

/-- Serving a connection that is not authenticated: no assertion fails, and the connection
    is authenticated when the process goes on. -/
theorem Served.first {s s' : Daemon} {a : Arrival} (hserved : Served s a s') (hflagged : Flagged s)
    (hs : s.stopped = none)
    (hfirst : ∀ conn, s.gamedConn = some conn → conn.auth ≠ authGamed) :
    s'.stopped ≠ some .abort ∧
      (s'.stopped = none → ∃ conn, s'.gamedConn = some conn ∧ conn.auth = authGamed) := by
  cases hserved with
  | unlinked hc => simp [Daemon.stop]
  | asserts hc ha => exact absurd ha (hfirst _ hc)
  | ignores hc hn hg =>
    obtain ⟨g, -, hconn⟩ := Option.bind_eq_some_iff.1 hc
    exact ((hflagged _ (List.mem_of_getElem? hconn)).elim hn hg).elim
  | rejects hc ha hcmd => simp [Daemon.stop]
  | @admits conn hc ha hcmd =>
    have hc' : (s.removeInput conn.bev).gamedConn = some conn := hc
    refine ⟨?_, fun _ => ⟨{ conn with auth := authGamed }, ?_, rfl⟩⟩
    · rw [openClientService_stopped, setAuth_stopped]
      have hs' : (s.removeInput conn.bev).stopped = none := hs
      cases a.binds <;> simp [hs']
    · rw [openClientService_gamedConn, setAuth_gamedConn hc']

section Step

variable {s : Daemon} (h : ServedInv s)

include h

/-- What is left to show for a step: no assertion failed, and `g_gamed_conn` is authenticated
    if it has been served. -/
theorem ServedInv.of_callback {e : Event} (hen : Enabled s e)
    (hholds : (s.callback e).stopped ≠ some .abort)
    (hserved : (s.callback e).stopped = none →
      (ServedSince (fun bev => (s.callback e).callbacksOf bev = some .gamed) (e :: s.history) ↔
        ∃ conn, (s.callback e).gamedConn = some conn ∧ conn.auth = authGamed)) :
    ServedInv (s.step e) := by
  have hflagged := flagged_callback h.flagged e
  rw [step_enabled hen]
  exact ⟨hflagged, hholds, hserved⟩

/-- An accept: the connection that `g_gamed_conn` points to now has not been served. -/
theorem ServedInv.accept {l : Listener} {fd : Int} {r : Resources}
    (hen : Enabled s (.accept l fd r)) : ServedInv (s.step (.accept l fd r)) := by
  have hstopped : (s.callback (.accept l fd r)).stopped = s.stopped := by
    cases l <;> cases r <;> rfl
  have hfresh : ∀ conn, (s.callback (.accept l fd r)).gamedConn = some conn →
      conn.auth = authNone := by
    intro conn hconn
    cases r with
    | both =>
      have hnew : (s.callback (.accept l fd .both)).gamedConn =
          some ⟨fd, authNone, s.bevs.length⟩ := by
        cases l <;> exact List.getElem?_concat_length
      rw [Option.some.inj (hconn.symm.trans hnew)]
    | noMemory =>
      have hnone : (s.callback (.accept l fd .noMemory)).gamedConn = none := by cases l <;> rfl
      exact absurd (hnone.symm.trans hconn) (by simp)
    | noBufferevent =>
      have hnone : (s.callback (.accept l fd .noBufferevent)).gamedConn = none := by
        cases l <;> rfl
      exact absurd (hnone.symm.trans hconn) (by simp)
  refine h.of_callback hen ?_ fun _ => iff_of_false id ?_
  · rw [hstopped]
    exact h.holds
  · intro ⟨conn, hconn, hauth⟩
    rw [hfresh conn hconn] at hauth
    exact absurd hauth (by decide)

/-- An event that changes neither the flags nor `g_gamed_conn`, and serves no data from
    gamed. -/
theorem ServedInv.idle {e : Event} (hen : Enabled s e) (hw : (s.callback e).wiring = s.wiring)
    (hstopped : (s.callback e).stopped = s.stopped)
    (hconn : (s.callback e).gamedConn = s.gamedConn)
    (he : ServedSince (fun bev => s.callbacksOf bev = some .gamed) (e :: s.history) ↔ s.served) :
    ServedInv (s.step e) := by
  refine h.of_callback hen ?_ fun _ => ?_
  · rw [hstopped]
    exact h.holds
  · rw [callbacksOf_of_wiring hw, hconn, he]
    exact h.served hen.1

/-- Data from gamed, when none was served since the latest accept. -/
theorem ServedInv.gamedData {bev : Nat} {a : Arrival} (hen : Enabled s (.data bev a))
    (hcb : s.callbacksOf bev = some .gamed) (hfirst : ¬ s.served) :
    ServedInv (s.step (.data bev a)) := by
  have hserved : Served (s.receive bev a.bytes) a (s.callback (.data bev a)) := by
    rw [callback_gamedData a hcb]
    exact gamedReadCb_served _ bev a
  have hauth : ∀ conn, s.gamedConn = some conn → conn.auth ≠ authGamed :=
    fun conn hc ha => hfirst ((h.served hen.1).2 ⟨conn, hc, ha⟩)
  obtain ⟨hholds, hconn⟩ := hserved.first h.flagged hen.1 hauth
  refine h.of_callback hen hholds fun hrunning => iff_of_true (Or.inl ?_) (hconn hrunning)
  exact callbacksOf_callback hcb _

/-- Data from gamed, when some was served since the latest accept: the rpc handler's
    assertion fails. -/
theorem ServedInv.aborts {bev : Nat} {a : Arrival} (hen : Enabled s (.data bev a))
    (hcb : s.callbacksOf bev = some .gamed) (hserved : s.served) :
    (s.step (.data bev a)).stopped = some .abort := by
  obtain ⟨conn, hc, ha⟩ := (h.served hen.1).1 hserved
  have hc : (s.receive bev a.bytes).gamedConn = some conn := hc
  rw [step_enabled hen, callback_gamedData a hcb, gamedReadCb_asserts hc ha]
  rfl

theorem ServedInv.step {e : Event} (hfirst : FirstServed s e) : ServedInv (s.step e) := by
  by_cases hen : Enabled s e
  · cases e with
    | accept l fd r => exact h.accept hen
    | acceptError l =>
      refine h.idle hen (wiring_acceptError s l) ?_ ?_ Iff.rfl
      all_goals cases l <;> rfl
    | data bev a =>
      rcases callbacksOf_cases hen.2 with hcb | hcb
      · exact h.gamedData hen hcb (hfirst hen hcb)
      · have hcall := callback_clientData a hcb
        refine h.idle hen (wiring_data s bev a) ?_ ?_ (or_iff_right ?_)
        · rw [hcall]
          rfl
        · rw [hcall]
          rfl
        · intro hgamed
          exact absurd (hcb.symm.trans hgamed) (by simp)
    | event bev what =>
      refine h.idle hen (wiring_event s bev what) ?_ ?_ Iff.rfl
      all_goals
        simp only [Daemon.callback]
        split <;> rfl
  · rwa [step_disabled hen]

theorem ServedInv.assertsHold_iff (e : Event) : AssertsHold s e ↔ FirstServed s e := by
  refine ⟨fun hholds => ?_, fun hfirst => (h.step hfirst).holds⟩
  cases e with
  | accept l fd r => trivial
  | acceptError l => trivial
  | event bev what => trivial
  | data bev a => exact fun hen hcb hserved => hholds (h.aborts hen hcb hserved)

end Step

/-- In every run, no assertion of the packet handlers fails if and only if data from gamed is
    served at most once after each accept. -/
theorem asserts_hold_iff (events : List Event) :
    Along Daemon.step AssertsHold .init events ↔ Along Daemon.step FirstServed .init events :=
  along_iff (fun _ _ h hfirst => h.step hfirst) (fun _ e h => h.assertsHold_iff e)
    servedInv_init events

/-- gamed sends its packet in one piece, and then a byte. -/
def byteAfterLogin : List Event := login [] [] true ++ [.data 0 oneByte]

theorem byte_after_login_aborts : ¬ Along Daemon.step AssertsHold .init byteAfterLogin := by
  intro h
  exact along_at (login [] [] true) h (by decide)

end GameServer.Gated
