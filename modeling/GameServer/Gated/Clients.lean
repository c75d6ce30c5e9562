/-
  Client connections and their descriptors.

  `client_error_cb` releases nothing, and an accept whose connection cannot be made leaves
  its descriptor open. So the open client descriptors are those of the live clients, after
  every step of a run, if and only if no client accept fails and no client ends
  (`clients_exact_iff`).
-/
import GameServer.Gated.Callbacks

namespace GameServer.Gated

open CInt Runs

/-- `BEV_EVENT_EOF` and `BEV_EVENT_ERROR` -/
def bevEventEof : BitVec 16 := 0x10
def bevEventError : BitVec 16 := 0x20

/-- `what` reports the end of the connection. -/
def Ends (what : BitVec 16) : Prop := what &&& (bevEventEof ||| bevEventError) ≠ 0

instance (what : BitVec 16) : Decidable (Ends what) := inferInstanceAs (Decidable (¬ _))

/-- The error callback of the bufferevent was called with end-of-file or an error. -/
def Ended (history : List Event) (bev : Nat) : Prop := ∃ what, .event bev what ∈ history ∧ Ends what

/-- `fd` belongs to an accepted client for which `net_new_connection` succeeded and that has
    not ended. -/
def LiveClient (s : Daemon) (fd : Int) : Prop :=
  ∃ bev b, s.bevs[bev]? = some b ∧ b.callbacks = .client ∧ b.fd = fd ∧ ¬ Ended s.history bev

/-- The open client descriptors and the client connections are those of the live clients. -/
structure ClientsExact (s : Daemon) : Prop where
  descriptors : ∀ fd, ⟨fd, .client⟩ ∈ s.descriptors ↔ LiveClient s fd
  conns : ∀ conn ∈ s.conns, s.callbacksOf conn.bev = some .client → LiveClient s conn.fd

/-- No client is lost at this event: an accept makes a connection, and no connection ends. -/
def KeepsClient (s : Daemon) (e : Event) : Prop :=
  Enabled s e →
    match e with
    | .accept .client _ r => r = .both
    | .event bev what => s.callbacksOf bev = some .client → ¬ Ends what
    | _ => True

/-- What holds as long as no client is lost. -/
structure AllLive (s : Daemon) : Prop where
  wired : Wired s
  served : ∀ fd, ⟨fd, .client⟩ ∈ s.descriptors → (fd, .client) ∈ s.wiring.bevs
  live : ∀ bev, s.callbacksOf bev ≠ some .gamed → ¬ Ended s.history bev

theorem mem_wiring_bevs {s : Daemon} {fd : Int} {l : Listener} :
    (fd, l) ∈ s.wiring.bevs ↔
      ∃ (bev : Nat) (b : Bufferevent), s.bevs[bev]? = some b ∧ b.callbacks = l ∧ b.fd = fd := by
  unfold Daemon.wiring
  rw [List.mem_map]
  constructor
  · intro ⟨b, hb, heq⟩
    obtain ⟨hfd, hl⟩ := Prod.mk.inj heq
    obtain ⟨bev, hbev⟩ := List.mem_iff_getElem?.1 hb
    exact ⟨bev, b, hbev, hl, hfd⟩
  · intro ⟨bev, b, hb, hl, hfd⟩
    exact ⟨b, List.mem_of_getElem? hb, by rw [hl, hfd]⟩

theorem AllLive.exact {s : Daemon} (h : AllLive s) : ClientsExact s := by
  refine ⟨fun fd => ⟨fun hfd => ?_, fun hlive => ?_⟩, fun conn hconn hcb => ?_⟩
  · obtain ⟨bev, b, hb, hl, hbfd⟩ := mem_wiring_bevs.1 (h.served fd hfd)
    refine ⟨bev, b, hb, hl, hbfd, h.live bev ?_⟩
    rw [callbacksOf_eq hb, hl]
    simp
  · obtain ⟨bev, b, hb, hl, hbfd, -⟩ := hlive
    exact h.wired.bevs_open _ (mem_wiring_bevs.2 ⟨bev, b, hb, hl, hbfd⟩)
  · obtain ⟨i, hi⟩ := List.mem_iff_getElem?.1 hconn
    obtain ⟨hbev, b, hb, hbfd⟩ := h.wired.bev_of_conn hi
    rw [← hbev] at hb
    have hl : b.callbacks = .client := by
      rw [callbacksOf_eq hb] at hcb
      exact Option.some.inj hcb
    refine ⟨conn.bev, b, hb, hl, hbfd, h.live _ ?_⟩
    rw [hcb]
    simp

theorem not_exact_of_ended {s : Daemon} (h : Wired s) {bev : Nat} {b : Bufferevent}
    (hb : s.bevs[bev]? = some b) (hl : b.callbacks = .client) (hended : Ended s.history bev) :
    ¬ ClientsExact s := by
  intro hexact
  -- the descriptor of the ended client is still open
  have hopen : ⟨b.fd, .client⟩ ∈ s.descriptors :=
    h.bevs_open _ (mem_wiring_bevs.2 ⟨bev, b, hb, hl, rfl⟩)
  obtain ⟨other, c, hc, -, hfd, hlive⟩ := (hexact.descriptors b.fd).1 hopen
  obtain rfl := h.bev_unique hb hc hfd.symm
  exact hlive hended

/-- A descriptor that was never given to a bufferevent stays open unused. -/
theorem not_exact_of_unserved {s : Daemon} (fd : Int) (hd : ⟨fd, .client⟩ ∈ s.descriptors)
    (hfd : (fd, .client) ∉ s.wiring.bevs) : ¬ ClientsExact s := by
  intro hexact
  obtain ⟨bev, b, hb, hl, hbfd, -⟩ := (hexact.descriptors fd).1 hd
  exact hfd (mem_wiring_bevs.2 ⟨bev, b, hb, hl, hbfd⟩)

/-! ## Steps that lose no client -/

theorem allLive_init : AllLive .init :=
  ⟨wired_init, fun _ h => absurd h List.not_mem_nil, fun _ _ ⟨_, h, _⟩ => absurd h List.not_mem_nil⟩

section Step

variable {s : Daemon} (h : AllLive s)

include h

/-- An accept that makes a connection if it is a client's. -/
theorem AllLive.accept {l : Listener} {fd : Int} {r : Resources}
    (hen : Enabled s (.accept l fd r)) (hr : l = .client → r = .both) :
    AllLive (s.step (.accept l fd r)) := by
  have hw : (s.step (.accept l fd r)).wiring = s.wiring.accept l fd r := step_wiring hen
  refine ⟨wired_step _ _ h.wired, fun cfd hcfd => ?_, fun bev hcb => ?_⟩
  · have hd : (s.step (.accept l fd r)).descriptors = ⟨fd, l⟩ :: s.descriptors := by
      refine (congrArg Wiring.descriptors hw).trans ?_
      cases r <;> rfl
    rw [hd, List.mem_cons] at hcfd
    rw [hw]
    rcases hcfd with heq | hold
    · obtain ⟨rfl, rfl⟩ := Descriptor.mk.inj heq
      obtain rfl := hr rfl
      exact List.mem_append_right _ (List.mem_singleton.2 rfl)
    · exact (s.wiring.accept_bevs l fd r).subset (h.served cfd hold)
  · rw [step_history hen]
    intro ⟨what, hmem, hends⟩
    refine h.live bev (fun hold => hcb ?_) ⟨what, by simpa using hmem, hends⟩
    exact callbacksOf_step hold _

/-- Any other event that is no end of a client. -/
theorem AllLive.other {e : Event} (hen : Enabled s e) (hw : (s.step e).wiring = s.wiring)
    (he : ∀ bev what, e = .event bev what → s.callbacksOf bev ≠ some .gamed → ¬ Ends what) :
    AllLive (s.step e) := by
  have hd : (s.step e).descriptors = s.descriptors := congrArg Wiring.descriptors hw
  refine ⟨wired_step _ _ h.wired, ?_, fun bev hcb => ?_⟩
  · rw [hd, hw]
    exact h.served
  · rw [callbacksOf_wiring, hw, ← callbacksOf_wiring] at hcb
    rw [step_history hen]
    intro ⟨what, hmem, hends⟩
    rcases List.mem_cons.1 hmem with heq | hmem
    · exact he bev what heq.symm hcb hends
    · exact h.live bev hcb ⟨what, hmem, hends⟩

theorem AllLive.step {e : Event} (hk : KeepsClient s e) : AllLive (s.step e) := by
  by_cases hen : Enabled s e
  · have hk := hk hen
    cases e with
    | accept l fd r =>
      refine h.accept hen fun hl => ?_
      subst hl
      exact hk
    | acceptError l => exact h.other hen (step_wiring hen) (by simp)
    | data bev a => exact h.other hen (step_wiring hen) (by simp)
    | event bev what =>
      refine h.other hen (step_wiring hen) fun i w heq hcb => ?_
      obtain ⟨rfl, rfl⟩ := Event.event.inj heq
      apply hk
      exact (callbacksOf_cases hen.2).resolve_left hcb
  · rwa [step_disabled hen]

/-- A client accepted without a connection leaves its descriptor open. -/
theorem AllLive.accept_exact {fd : Int} {r : Resources} (hen : Enabled s (.accept .client fd r))
    (hexact : ClientsExact (s.step (.accept .client fd r))) : r = .both := by
  have hfd : (fd, Listener.client) ∉ s.wiring.bevs := fun hold =>
    hen.2.1 (List.mem_map.2 ⟨_, h.wired.bevs_open _ hold, rfl⟩)
  have hw : (s.step (.accept .client fd r)).wiring = s.wiring.accept .client fd r :=
    step_wiring hen
  have hopen : ⟨fd, .client⟩ ∈ (s.step (.accept .client fd r)).descriptors := by
    show _ ∈ (s.step (.accept .client fd r)).wiring.descriptors
    rw [hw]
    cases r <;> exact List.mem_cons_self
  cases r with
  | both => rfl
  | noMemory => exact absurd hexact (not_exact_of_unserved fd hopen (hw ▸ hfd))
  | noBufferevent => exact absurd hexact (not_exact_of_unserved fd hopen (hw ▸ hfd))

/-- A client that has ended leaves its descriptor open. -/
theorem AllLive.event_exact {bev : Nat} {what : BitVec 16} (hen : Enabled s (.event bev what))
    (hcb : s.callbacksOf bev = some .client)
    (hexact : ClientsExact (s.step (.event bev what))) : ¬ Ends what := by
  intro hends
  obtain ⟨b, hb, hl⟩ := Option.map_eq_some_iff.1 (callbacksOf_step hcb (.event bev what))
  refine not_exact_of_ended (wired_step s _ h.wired) hb hl ⟨what, ?_, hends⟩ hexact
  rw [step_history hen]
  exact List.mem_cons_self

theorem AllLive.keepsClient {e : Event} (hexact : ClientsExact (s.step e)) : KeepsClient s e := by
  intro hen
  match e with
  | .accept .client _ _ => exact h.accept_exact hen hexact
  | .event _ _ => exact fun hcb => h.event_exact hen hcb hexact
  | .accept .gamed _ _ | .acceptError _ | .data _ _ => trivial

end Step

/-- In every run, the client descriptors and connections that gated holds are those of the
    live clients after each step if and only if every client accept makes a connection and
    no client connection ends. -/
theorem clients_exact_iff (events : List Event) :
    Along Daemon.step (fun s e => ClientsExact (s.step e)) .init events ↔
      Along Daemon.step KeepsClient .init events :=
  along_iff (fun _ _ h hk => h.step hk)
    (fun _ _ h => ⟨h.keepsClient, fun hk => (h.step hk).exact⟩) allLive_init events

/-- gamed logs in, a client is accepted on descriptor 6, and closes its end. -/
def clientLeaves : List Event :=
  login [] [] true ++ [.accept .client 6 .both, .event 1 bevEventEof]

theorem client_descriptor_leaks : ¬ ClientsExact (exec Daemon.step .init clientLeaves) := by
  have hbev : (exec Daemon.step .init clientLeaves).bevs[1]? = some ⟨6, .client, [], []⟩ := by
    decide
  apply not_exact_of_ended (wired_exec clientLeaves) hbev rfl
  exact ⟨bevEventEof, by decide, by decide⟩

end GameServer.Gated
