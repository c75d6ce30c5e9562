/-
  What the sockets of the gate get and give, over whole runs.

  `gate_refines`: no run of the gate ends in a fault, and its events are a run of the daemon
  of `Gated.Basic`, which is in the same state. The echo is an instance (`gate_echoes`).

  As long as `event_add` succeeds the output keeps flowing, so a client whose socket takes
  bytes at all is given back everything (`gate_delivers`). Once writing is disabled, by an
  error of its socket, a client is never sent anything again, and what it goes on to send
  stays in the output buffer (`gate_mutes`): `client_error_cb` leaves the connection there.
-/
import GameServer.Gated.Gate

namespace GameServer.Gated

open Runs Libevent Relation

variable {B : Build}

/-! ## Invariants of a socket -/

theorem reach_keeps {adds : Bool} {P : Socket → Prop}
    (htouch : ∀ s s', Touch B adds s s' → P s → P s') {s s' : Socket}
    (h : ReflTransGen (Touch B adds) s s') (hs : P s) : P s' := by
  induction h with
  | refl => exact hs
  | tail _ hstep ih => exact htouch _ _ hstep ih

/-- What every touch keeps holds of all sockets after a round. -/
theorem Evolves.forall {P : Socket → Prop} {o : Occurrence} {g g' : Gate} (h : Evolves B o g g')
    (htouch : ∀ s s', Touch B o.adds s s' → P s → P s')
    (hnew : ∀ l fd adds, o = .accept l fd .both adds →
      P ⟨fd, l, Libevent.Bufferevent.socketNew.enable adds, []⟩)
    (hg : ∀ s ∈ g.sockets, P s) : ∀ s ∈ g'.sockets, P s := by
  intro s' hs'
  cases h with
  | touched h =>
    obtain ⟨i, hi, rfl⟩ := List.getElem_of_mem hs'
    have hi' : i < g.sockets.length := h.length ▸ hi
    have hreach := h.each i _ _ (List.getElem?_eq_getElem hi') (List.getElem?_eq_getElem hi)
    have hold := hg _ (List.getElem_mem hi')
    exact reach_keeps htouch hreach hold
  | accepted ho h =>
    rw [h] at hs'
    rcases List.mem_append.1 hs' with hold | hlast
    · exact hg s' hold
    · rw [List.mem_singleton.1 hlast]
      exact hnew _ _ _ ho

/-- A socket stays at its position, with what every touch keeps of it. -/
theorem Evolves.getElem? {P : Socket → Prop} {o : Occurrence} {g g' : Gate}
    (h : Evolves B o g g') (htouch : ∀ s s', Touch B o.adds s s' → P s → P s') {i : Nat}
    {s : Socket} (hs : g.sockets[i]? = some s) (hP : P s) :
    ∃ s', g'.sockets[i]? = some s' ∧ P s' := by
  have hi := (List.getElem?_eq_some_iff.1 hs).1
  cases h with
  | touched h =>
    have hi' : i < g'.sockets.length := h.length.symm ▸ hi
    have hreach := h.each i _ _ hs (List.getElem?_eq_getElem hi')
    exact ⟨_, List.getElem?_eq_getElem hi', reach_keeps htouch hreach hP⟩
  | accepted ho h =>
    refine ⟨s, ?_, hP⟩
    rw [h, List.getElem?_append_left hi]
    exact hs

theorem Touch.live {adds : Bool} {s s' : Socket} (h : Touch B adds s s') (hs : s.bev.Live) :
    s'.bev.Live := by
  cases h with
  | read hp h =>
    intro hw
    rw [h.writePending] at hw
    exact h.writeEnabled.trans (hs hw)
  | write hp h => exact h.live hs
  | echo h => exact h.live hs
  | remove input => exact hs

theorem Touch.flowing {s s' : Socket} (h : Touch B true s s') (hs : s.bev.Flowing) :
    s'.bev.Flowing := by
  cases h with
  | read hp h =>
    intro hne hen
    rw [h.output] at hne
    rw [h.writeEnabled] at hen
    exact h.writePending.trans (hs hne hen)
  | write hp h => exact h.flowing hs
  | echo h => exact h.flowing rfl hs
  | remove input => exact hs

theorem Touch.callbacks {adds : Bool} {s s' : Socket} (h : Touch B adds s s') :
    s'.callbacks = s.callbacks := by
  cases h <;> rfl

/-- The socket is never written to again: `bytes` is all that was sent. -/
structure Muted (l : Listener) (bytes : List UInt8) (s : Socket) : Prop where
  callbacks : s.callbacks = l
  live : s.bev.Live
  disabled : s.bev.writeEnabled = false
  sent : s.sent = bytes

theorem Muted.idle {l : Listener} {bytes : List UInt8} {s : Socket} (h : Muted l bytes s) :
    s.bev.writePending = false := by
  by_contra hne
  have hen := h.live (Bool.of_not_eq_false hne)
  rw [h.disabled] at hen
  cases hen

theorem Touch.muted {adds : Bool} {l : Listener} {bytes : List UInt8} {s s' : Socket}
    (h : Touch B adds s s') (hs : Muted l bytes s) : Muted l bytes s' := by
  have hcb := h.callbacks.trans hs.callbacks
  have hlive := h.live hs.live
  cases h with
  | read hp h => exact ⟨hcb, hlive, h.writeEnabled.trans hs.disabled, hs.sent⟩
  | write hp h =>
    -- the event is not pending, so there is no write callback
    rw [hs.idle] at hp
    cases hp
  | echo h => exact ⟨hcb, hlive, h.writeEnabled.trans hs.disabled, hs.sent⟩
  | remove input => exact ⟨hcb, hlive, hs.disabled, hs.sent⟩

/-! ## Runs -/

def Gate.Live (g : Gate) : Prop := ∀ s ∈ g.sockets, s.bev.Live

def Gate.Flowing (g : Gate) : Prop := ∀ s ∈ g.sockets, s.bev.Flowing

theorem Evolves.live {o : Occurrence} {g g' : Gate} (h : Evolves B o g g') (hg : g.Live) :
    g'.Live :=
  h.forall (P := fun s => s.bev.Live) (fun _ _ ht hs => ht.live hs) (fun _ _ _ _ _ => rfl) hg

theorem Evolves.flowing {o : Occurrence} {g g' : Gate} (h : Evolves B o g g')
    (hadds : o.adds = true) (hg : g.Flowing) : g'.Flowing := by
  refine h.forall (P := fun s => s.bev.Flowing) (fun s s' ht hs => ?_) (fun _ _ _ _ hne => ?_) hg
  · rw [hadds] at ht
    exact ht.flowing hs
  · exact absurd rfl hne

theorem Gate.run_append {g g₁ : Gate} {os : List Occurrence} (h : g.run B os = .ok g₁)
    (os' : List Occurrence) : g.run B (os ++ os') = g₁.run B os' := by
  unfold Gate.run at h ⊢
  rw [List.foldlM_append, h]
  rfl

theorem faithful_run (os : List Occurrence) :
    ∃ g, Gate.run B .init os = .ok g ∧ Faithful B g ∧ g.Live := by
  refine foldlM_inv (I := fun g => Faithful B g ∧ g.Live) (C := fun _ => True) ?_
    ⟨.init, fun _ h => absurd h List.not_mem_nil⟩ fun _ _ => trivial
  intro g o hg _
  obtain ⟨g', hrun, hround⟩ := hg.1.step o
  exact ⟨g', hrun, hround.faithful, hround.evolves.live hg.2⟩

theorem flowing_run {os : List Occurrence} (hadds : ∀ o ∈ os, o.adds = true) :
    ∃ g, Gate.run B .init os = .ok g ∧ Faithful B g ∧ g.Flowing := by
  refine foldlM_inv (I := fun g => Faithful B g ∧ g.Flowing) (C := fun o => o.adds = true) ?_
    ⟨.init, fun _ h => absurd h List.not_mem_nil⟩ hadds
  intro g o hg ho
  obtain ⟨g', hrun, hround⟩ := hg.1.step o
  exact ⟨g', hrun, hround.faithful, hround.evolves.flowing ho hg.2⟩

/-- A run from a state that a run reached: what every touch keeps of a socket is kept. -/
theorem Faithful.continues {g : Gate} (h : Faithful B g) (os : List Occurrence) :
    ∃ g', g.run B os = .ok g' ∧ Faithful B g' ∧
      ∀ {P : Socket → Prop}, (∀ adds s s', Touch B adds s s' → P s → P s') →
        ∀ {i : Nat} {s : Socket}, g.sockets[i]? = some s → P s →
          ∃ s', g'.sockets[i]? = some s' ∧ P s' := by
  refine foldlM_inv (C := fun _ => True) (I := fun g' => Faithful B g' ∧
    ∀ {P : Socket → Prop}, (∀ adds s s', Touch B adds s s' → P s → P s') →
      ∀ {i : Nat} {s : Socket}, g.sockets[i]? = some s → P s →
        ∃ s', g'.sockets[i]? = some s' ∧ P s') ?_
    ⟨h, fun _ _ _ hs hP => ⟨_, hs, hP⟩⟩ fun _ _ => trivial
  intro g₁ o hg₁ _
  obtain ⟨g₂, hrun, hround⟩ := hg₁.1.step o
  refine ⟨g₂, hrun, hround.faithful, fun htouch _ _ hs hP => ?_⟩
  obtain ⟨s₁, hs₁, hP₁⟩ := hg₁.2 htouch hs hP
  exact hround.evolves.getElem? (htouch o.adds) hs₁ hP₁

/-- What the daemon has mirrored, at the socket. -/
theorem Faithful.mirrors {g : Gate} (h : Faithful B g) {i : Nat} {s : Socket}
    (hs : g.sockets[i]? = some s) : s.view.Mirrors (received g.history i) := by
  have hm := mirrored_exec g.history.reverse
  rw [h.run] at hm
  exact hm i s.view (view_socket hs)

theorem Faithful.client {g : Gate} (h : Faithful B g) {i : Nat} {s : Socket}
    (hs : g.sockets[i]? = some s) (hl : s.callbacks = .client) :
    s.bev.input.contents = [] ∧ s.sent ++ s.bev.output.contents = received g.history i := by
  have hm := h.mirrors hs
  unfold Bufferevent.Mirrors at hm
  have hcb : s.view.callbacks = .client := hl
  rw [hcb] at hm
  exact hm

theorem Faithful.gamed {g : Gate} (h : Faithful B g) {i : Nat} {s : Socket}
    (hs : g.sockets[i]? = some s) (hl : s.callbacks = .gamed) :
    s.bev.input.contents <:+ received g.history i ∧ s.sent = [] ∧
      s.bev.output.contents = [] := by
  have hm := h.mirrors hs
  unfold Bufferevent.Mirrors at hm
  have hcb : s.view.callbacks = .gamed := hl
  rw [hcb] at hm
  exact ⟨hm.1, List.append_eq_nil_iff.1 hm.2⟩

/-! ## Delivery -/

/-- One write event at a socket that takes something: nothing but its bytes move, and if
    there were any then some of them go. -/
theorem Faithful.sends {g : Gate} (h : Faithful B g) (hf : g.Flowing) (hgo : g.stopped = none)
    {i : Nat} {s : Socket} (hs : g.sockets[i]? = some s) (hen : s.bev.writeEnabled = true)
    (n : Nat) (retriable : Bool) :
    ∃ g' s', g.step B (.writable i (.upTo (n + 1)) retriable) = .ok g' ∧ Faithful B g' ∧
      g'.Flowing ∧ g'.stopped = none ∧ g'.history = g.history ∧ g'.sockets[i]? = some s' ∧
      s'.callbacks = s.callbacks ∧ s'.bev.writeEnabled = true ∧
      s'.bev.output.contents.length ≤ s.bev.output.contents.length - 1 := by
  obtain ⟨g', hrun, hround⟩ := h.step (.writable i (.upTo (n + 1)) retriable)
  have hf' := hround.faithful
  have hflow := hround.evolves.flowing rfl hf
  by_cases hout : s.bev.output.contents = []
  · -- nothing to write: at most the event goes
    have hle : ∀ s' : Socket, s'.bev.output.contents = [] →
        s'.bev.output.contents.length ≤ s.bev.output.contents.length - 1 := by
      intro s' hs'
      rw [hs', hout]
      exact Nat.zero_le _
    by_cases hp : s.bev.writePending = true
    · have hlen : evbufferGetLength s.bev.output = 0 := by
        rw [evbufferGetLength, ← (h.sound.getElem? hs).output.length_contents, hout]
        rfl
      have hstep : g.step B (.writable i (.upTo (n + 1)) retriable) =
          .ok (g.setSocket i
            { s with bev := { s.bev with writePending := false }, sent := s.sent ++ [] }) := by
        unfold Gate.step
        rw [if_pos ((Gate.enabled_writable hs hgo _ _).2 hp)]
        dsimp only
        rw [hs]
        simp [bufferevent_writecb, hlen]
        rfl
      obtain rfl := Except.ok.inj (hrun.symm.trans hstep)
      exact ⟨_, _, hrun, hf', hflow, hgo, rfl, Faithful.setSocket_self hs _, rfl, hen, hle _ hout⟩
    · have hstep : g.step B (.writable i (.upTo (n + 1)) retriable) = .ok g := by
        unfold Gate.step
        rw [if_neg fun henabled => hp ((Gate.enabled_writable hs hgo _ _).1 henabled)]
      obtain rfl := Except.ok.inj (hrun.symm.trans hstep)
      exact ⟨_, _, hrun, hf', hflow, hgo, rfl, hs, rfl, hen, hle _ hout⟩
  · have hp := hf s (List.mem_of_getElem? hs) hout hen
    obtain ⟨next, bev', sent, hwrite, hevent, hprogress⟩ :=
      writecb_ok (h.sound.getElem? hs) (.upTo (n + 1)) retriable
    obtain ⟨rfl, hsent, hen'⟩ := hprogress n rfl hout
    have hstep : g.step B (.writable i (.upTo (n + 1)) retriable) =
        .ok (g.setSocket i { s with bev := bev', sent := s.sent ++ sent }) := by
      unfold Gate.step
      rw [if_pos ((Gate.enabled_writable hs hgo _ _).2 hp)]
      dsimp only
      rw [hs]
      dsimp only
      rw [hwrite, ok_bind]
      rfl
    obtain rfl := Except.ok.inj (hrun.symm.trans hstep)
    refine ⟨_, _, hrun, hf', hflow, hgo, rfl, Faithful.setSocket_self hs _, rfl,
      hen'.trans hen, ?_⟩
    have hlen := congrArg List.length hevent.output
    have hpos := List.length_pos_iff.2 hsent
    rw [List.length_append] at hlen
    show bev'.output.contents.length ≤ s.bev.output.contents.length - 1
    omega

/-- The write events of a socket that takes at least one byte each time. -/
def writables (i : Nat) (ns : List Nat) : List Occurrence :=
  ns.map fun n => .writable i (.upTo (n + 1)) false

theorem Faithful.delivers {g : Gate} (h : Faithful B g) (hf : g.Flowing) (hgo : g.stopped = none)
    {i : Nat} {s : Socket} (hs : g.sockets[i]? = some s) (hen : s.bev.writeEnabled = true)
    (ns : List Nat) (hns : s.bev.output.contents.length ≤ ns.length) :
    ∃ g' s', g.run B (writables i ns) = .ok g' ∧ Faithful B g' ∧ g'.history = g.history ∧
      g'.sockets[i]? = some s' ∧ s'.callbacks = s.callbacks ∧ s'.bev.output.contents = [] := by
  induction ns generalizing g s with
  | nil =>
    have hnil := List.length_eq_zero_iff.1 (Nat.le_zero.1 hns)
    exact ⟨g, s, rfl, h, rfl, hs, rfl, hnil⟩
  | cons n ns ih =>
    obtain ⟨g₁, s₁, hrun, h₁, hf₁, hgo₁, hh₁, hs₁, hl₁, hen₁, hlen⟩ :=
      h.sends hf hgo hs hen n false
    rw [List.length_cons] at hns
    obtain ⟨g', s', hrest, h', hh', hs', hl', hout⟩ := ih h₁ hf₁ hgo₁ hs₁ hen₁ (by omega)
    refine ⟨g', s', ?_, h', hh'.trans hh₁, hs', hl'.trans hl₁, hout⟩
    unfold Gate.run writables at hrest ⊢
    rw [List.map_cons, List.foldlM_cons, hrun]
    exact hrest

/-! ## The results -/

/-- The gate on its buffers, allocations and system calls refines the daemon on lists of
    bytes: whatever happens, in whatever order. -/
theorem gate_refines (B : Build) (os : List Occurrence) :
    ∃ g, Gate.run B .init os = .ok g ∧ exec Daemon.step .init g.history.reverse = g.view := by
  obtain ⟨g, hrun, hf, -⟩ := faithful_run (B := B) os
  exact ⟨g, hrun, hf.run⟩

/-- A client has been sent a front part of what arrived from it, and the rest is in the
    output; gamed is sent nothing. -/
theorem gate_echoes (B : Build) (os : List Occurrence) :
    ∃ g, Gate.run B .init os = .ok g ∧
      ∀ (i : Nat) (s : Socket), g.sockets[i]? = some s →
        (s.callbacks = .client → s.bev.input.contents = [] ∧
          s.sent ++ s.bev.output.contents = received g.history i) ∧
        (s.callbacks = .gamed → s.bev.input.contents <:+ received g.history i ∧ s.sent = [] ∧
          s.bev.output.contents = []) := by
  obtain ⟨g, hrun, hf, -⟩ := faithful_run (B := B) os
  exact ⟨g, hrun, fun i s hs => ⟨hf.client hs, hf.gamed hs⟩⟩

/-- After any run in which `event_add` never failed, a client that can be written to is given
    back all that arrived from it, in at most as many write events as bytes are left, however
    little its socket takes each time. -/
theorem gate_delivers (B : Build) (os : List Occurrence) (hadds : ∀ o ∈ os, o.adds = true) :
    ∃ g, Gate.run B .init os = .ok g ∧
      ∀ (i : Nat) (s : Socket), g.stopped = none → g.sockets[i]? = some s →
        s.callbacks = .client → s.bev.writeEnabled = true →
          ∀ ns : List Nat, s.bev.output.contents.length ≤ ns.length →
            ∃ g' s', Gate.run B .init (os ++ writables i ns) = .ok g' ∧
              g'.sockets[i]? = some s' ∧ s'.sent = received g.history i := by
  obtain ⟨g, hrun, hf, hflow⟩ := flowing_run (B := B) hadds
  refine ⟨g, hrun, fun i s hgo hs hl hen ns hns => ?_⟩
  obtain ⟨g', s', hrest, hf', hh, hs', hl', hout⟩ := hf.delivers hflow hgo hs hen ns hns
  refine ⟨g', s', (Gate.run_append hrun _).trans hrest, hs', ?_⟩
  have hall := (hf'.client hs' (hl'.trans hl)).2
  rw [hout, List.append_nil, hh] at hall
  exact hall

/-- All of `bytes` are there when the socket is read, and nothing fails. -/
def Readiness.plenty (bytes : List UInt8) (h : bytes ≠ []) : Readiness :=
  ⟨bytes.length, .bytes bytes h, some fun _ => 0, false, true, [], true⟩

theorem gamedHello_ne_nil : gamedHello ≠ [] := List.cons_ne_nil _ _

/-- gamed logs in, and a client sends two bytes. -/
def helloThenTwo : List Occurrence :=
  [.accept .gamed 5 .both true, .readable 0 (.plenty gamedHello gamedHello_ne_nil),
    .accept .client 6 .both true, .readable 1 (.plenty [97, 98] (List.cons_ne_nil 97 [98]))]

theorem two_bytes_delivered :
    ∃ g s, Gate.run lp64 .init helloThenTwo = .ok g ∧ g.sockets[1]? = some s ∧
      s.bev.output.contents = [97, 98] ∧ received g.history 1 = [97, 98] ∧
        ∀ ns : List Nat, 2 ≤ ns.length →
          ∃ g' s', Gate.run lp64 .init (helloThenTwo ++ writables 1 ns) = .ok g' ∧
            g'.sockets[1]? = some s' ∧ s'.sent = received g.history 1 := by
  obtain ⟨g, hrun, hdelivers⟩ := gate_delivers lp64 helloThenTwo (by decide)
  have hchecks : (Gate.run lp64 .init helloThenTwo).toOption.all (fun g =>
      g.stopped == none && received g.history 1 == [97, 98] &&
        g.sockets[1]?.any fun s => s.callbacks == .client && s.bev.writeEnabled &&
          s.bev.output.contents == [97, 98]) = true := by decide +kernel
  rw [hrun] at hchecks
  simp only [Except.toOption, Option.all_some, Option.any_eq_true_iff_get, Bool.and_eq_true,
    beq_iff_eq] at hchecks
  obtain ⟨⟨hgo, harrived⟩, hsome, ⟨hl, hen⟩, hout⟩ := hchecks
  refine ⟨g, _, hrun, (Option.some_get hsome).symm, hout, harrived, fun ns hns => ?_⟩
  exact hdelivers 1 _ hgo (Option.some_get hsome).symm hl hen ns (by rw [hout]; exact hns)

/-- Once writing to a client is disabled, nothing more is sent to it, whatever comes next:
    what it goes on to send piles up in the output. -/
theorem gate_mutes (B : Build) (os os' : List Occurrence) :
    ∃ g g', Gate.run B .init os = .ok g ∧ Gate.run B .init (os ++ os') = .ok g' ∧
      ∀ (i : Nat) (s : Socket), g.sockets[i]? = some s → s.callbacks = .client →
        s.bev.writeEnabled = false → ∃ s', g'.sockets[i]? = some s' ∧ s'.sent = s.sent ∧
          s'.bev.output.contents = (received g'.history i).drop s.sent.length := by
  obtain ⟨g, hrun, hf, hlive⟩ := faithful_run (B := B) os
  obtain ⟨g', hrest, hf', hkeep⟩ := hf.continues os'
  refine ⟨g, g', hrun, (Gate.run_append hrun os').trans hrest, fun i s hs hl hoff => ?_⟩
  obtain ⟨s', hs', hmuted⟩ := hkeep (P := Muted .client s.sent) (fun _ _ _ ht => ht.muted) hs
    ⟨hl, hlive s (List.mem_of_getElem? hs), hoff, rfl⟩
  refine ⟨s', hs', hmuted.sent, ?_⟩
  rw [← (hf'.client hs' hmuted.callbacks).2, hmuted.sent, List.drop_left]

/-- Sending the two bytes to the client fails. -/
def sendingFails : List Occurrence := helloThenTwo ++ [.writable 1 .error false]

/-- The client sends one more byte, and its socket could take it. -/
def clientGoesOn : List Occurrence :=
  [.readable 1 (.plenty [99] (List.cons_ne_nil 99 [])), .writable 1 (.upTo 3) false]

theorem gate_mutes_client :
    ∃ g g' s s', Gate.run lp64 .init sendingFails = .ok g ∧ g.sockets[1]? = some s ∧
      s.bev.writeEnabled = false ∧ s.sent = [] ∧
        Gate.run lp64 .init (sendingFails ++ clientGoesOn) = .ok g' ∧
          g'.sockets[1]? = some s' ∧ s'.sent = [] ∧ s'.bev.output.contents = [97, 98, 99] := by
  obtain ⟨g, g', hrun, hrun', hmutes⟩ := gate_mutes lp64 sendingFails clientGoesOn
  have hchecks : (Gate.run lp64 .init sendingFails).toOption.all (fun g =>
      g.sockets[1]?.any fun s => s.callbacks == .client && !s.bev.writeEnabled &&
        s.sent == []) = true := by decide +kernel
  have harrived : (Gate.run lp64 .init (sendingFails ++ clientGoesOn)).toOption.all (fun g =>
      received g.history 1 == [97, 98, 99]) = true := by decide +kernel
  rw [hrun] at hchecks
  rw [hrun'] at harrived
  simp only [Except.toOption, Option.all_some, Option.any_eq_true_iff_get, Bool.and_eq_true,
    Bool.not_eq_true', beq_iff_eq] at hchecks harrived
  obtain ⟨hsome, ⟨hl, hoff⟩, hsent⟩ := hchecks
  obtain ⟨s', hs', hsent', hout⟩ := hmutes 1 _ (Option.some_get hsome).symm hl hoff
  rw [hsent, harrived] at hout
  exact ⟨g, g', _, s', hrun, (Option.some_get hsome).symm, hoff, hsent, hrun', hs',
    hsent'.trans hsent, hout⟩

end GameServer.Gated
