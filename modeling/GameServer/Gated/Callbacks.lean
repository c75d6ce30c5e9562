/-
  What the callbacks of the gate daemon can do.

  `Served` lists the outcomes of `gamed_read_cb`. `Wiring` is the part of the state that
  only an accept changes: which connection structure and which bufferevent belong to which
  descriptor, and where `g_gamed_conn` points. `Wired` holds in every reachable state: the
  n-th connection structure goes with the n-th bufferevent, no descriptor is used twice, and
  `g_gamed_conn` is what the latest accept left there, of whichever listener
  (`wired_step`).
-/
import GameServer.Gated.Basic
import GameServer.Lib.ListUpdate

namespace GameServer.Gated

open CInt Runs

/-! ## `gamed_read_cb` -/

/-- The outcomes of `gamed_read_cb` in the state `s`. -/
inductive Served (s : Daemon) (a : Arrival) : Daemon → Prop
  | unlinked (hc : s.gamedConn = none) : Served s a (s.stop .segv)
  | asserts {conn : NetConnection} (hc : s.gamedConn = some conn) (ha : conn.auth = authGamed) :
      Served s a (s.stop .abort)
  | ignores {conn : NetConnection} (hc : s.gamedConn = some conn) (hn : conn.auth ≠ authNone)
      (hg : conn.auth ≠ authGamed) : Served s a s
  | rejects {conn : NetConnection} (hc : s.gamedConn = some conn) (ha : conn.auth = authNone)
      (hcmd : (overlay (s.removable conn.bev) a.residue).cmd ≠ authGamed) :
      Served s a ((s.removeInput conn.bev).stop .exit)
  | admits {conn : NetConnection} (hc : s.gamedConn = some conn) (ha : conn.auth = authNone)
      (hcmd : (overlay (s.removable conn.bev) a.residue).cmd = authGamed) :
      Served s a (openClientService ((s.removeInput conn.bev).setAuth authGamed) a.binds)

/-- The old contents of `authpack` do not matter once it is filled. -/
theorem overlay_full {removed : List UInt8} (h : removed.length = sizeofAuthPacket)
    (old : List UInt8) : overlay removed old = .ofBytes removed := by
  have hat : ∀ j, j < 8 → (removed ++ old.drop removed.length).getD j 0 = removed.getD j 0 := by
    intro j hj
    rw [List.getD_eq_getElem?_getD, List.getElem?_append_left (h ▸ hj),
      ← List.getD_eq_getElem?_getD]
  unfold overlay AuthPacket.ofBytes
  rw [readInt_congr fun j _ hj => hat j (by omega), readInt_congr fun j _ hj => hat j (by omega)]

theorem readPacket_asserts {s : Daemon} {conn : NetConnection} (hc : s.gamedConn = some conn)
    (ha : conn.auth ≠ authNone) (old : List UInt8) (lenFatal binds : Bool) :
    readPacket old lenFatal s binds = s.stop .abort := by
  simp [readPacket, hc, ha]

theorem gamedReadAuthPacket_eq {s : Daemon} {conn : NetConnection} (hc : s.gamedConn = some conn)
    (ha : conn.auth = authNone) (a : Arrival) :
    gamedReadAuthPacket s a =
      if (overlay (s.removable conn.bev) a.residue).cmd ≠ authGamed then
        (s.removeInput conn.bev).stop .exit
      else openClientService ((s.removeInput conn.bev).setAuth authGamed) a.binds := by
  simp [gamedReadAuthPacket, readPacket, hc, ha]

theorem gamedReadCb_served (s : Daemon) (bev : Nat) (a : Arrival) :
    Served s a (gamedReadCb s bev a) := by
  unfold gamedReadCb
  cases hc : s.gamedConn with
  | none => exact .unlinked hc
  | some conn =>
    dsimp only
    by_cases hn : conn.auth = authNone
    · rw [if_pos hn, gamedReadAuthPacket_eq hc hn]
      split
      · next hcmd => exact .rejects hc hn hcmd
      · next hcmd => exact .admits hc hn (Decidable.not_not.1 hcmd)
    · rw [if_neg hn]
      by_cases hg : conn.auth = authGamed
      · -- the rpc handler asserts that the connection is not authenticated
        rw [if_pos hg, gamedReadRpcPacket, readPacket_asserts hc hn]
        exact .asserts hc hg
      · rw [if_neg hg, ite_self]
        exact .ignores hc hn hg

theorem gamedReadCb_admits {s : Daemon} {conn : NetConnection} (hc : s.gamedConn = some conn)
    (ha : conn.auth = authNone) (bev : Nat) {a : Arrival}
    (hcmd : (overlay (s.removable conn.bev) a.residue).cmd = authGamed) :
    gamedReadCb s bev a =
      openClientService ((s.removeInput conn.bev).setAuth authGamed) a.binds := by
  simp [gamedReadCb, hc, ha, gamedReadAuthPacket_eq, hcmd]

/-- The rpc handler asserts that the connection is not authenticated, and is only called when
    it is. -/
theorem gamedReadCb_asserts {s : Daemon} {conn : NetConnection} (hc : s.gamedConn = some conn)
    (ha : conn.auth = authGamed) (bev : Nat) (a : Arrival) :
    gamedReadCb s bev a = s.stop .abort := by
  have hn : conn.auth ≠ authNone := by
    rw [ha]
    decide
  unfold gamedReadCb
  rw [hc]
  dsimp only
  rw [if_neg hn, if_pos ha, gamedReadRpcPacket, readPacket_asserts hc hn]

@[simp] theorem openClientService_conns (s : Daemon) (binds : Bool) :
    (openClientService s binds).conns = s.conns := by cases binds <;> rfl

@[simp] theorem openClientService_bevs (s : Daemon) (binds : Bool) :
    (openClientService s binds).bevs = s.bevs := by cases binds <;> rfl

@[simp] theorem openClientService_opened (s : Daemon) (binds : Bool) :
    (openClientService s binds).opened = s.opened + 1 := by cases binds <;> rfl

@[simp] theorem setAuth_bevs (s : Daemon) (auth : Int) : (s.setAuth auth).bevs = s.bevs := by
  unfold Daemon.setAuth
  split <;> rfl

@[simp] theorem setAuth_opened (s : Daemon) (auth : Int) :
    (s.setAuth auth).opened = s.opened := by
  unfold Daemon.setAuth
  split <;> rfl

@[simp] theorem setAuth_stopped (s : Daemon) (auth : Int) :
    (s.setAuth auth).stopped = s.stopped := by
  unfold Daemon.setAuth
  split <;> rfl

theorem openClientService_stopped (s : Daemon) (binds : Bool) :
    (openClientService s binds).stopped = if binds then s.stopped else some .exit := by
  cases binds <;> rfl

@[simp] theorem openClientService_gamedConn (s : Daemon) (binds : Bool) :
    (openClientService s binds).gamedConn = s.gamedConn := by cases binds <;> rfl

theorem setAuth_gamedConn {s : Daemon} {conn : NetConnection} (hc : s.gamedConn = some conn)
    (auth : Int) : (s.setAuth auth).gamedConn = some { conn with auth := auth } := by
  obtain ⟨g, hg, hconn⟩ := Option.bind_eq_some_iff.1 hc
  simp [Daemon.setAuth, Daemon.gamedConn, hg, hconn]

theorem setAuth_conns {s : Daemon} {g : Nat} (hg : s.gGamedConn = some g) (auth : Int) :
    (s.setAuth auth).conns = s.conns.modify g fun c => { c with auth := auth } := by
  unfold Daemon.setAuth
  rw [hg]

/-- The flag of a connection only ever has two values. -/
def Flagged (s : Daemon) : Prop :=
  ∀ conn ∈ s.conns, conn.auth = authNone ∨ conn.auth = authGamed

/-- Data from gamed either ends the process with the connections as they were, or
    authenticates the connection that `g_gamed_conn` points to. -/
theorem gamedReadCb_cases {s : Daemon} (hflags : Flagged s) (bev : Nat) (a : Arrival) :
    (gamedReadCb s bev a).conns = s.conns ∧ (gamedReadCb s bev a).opened = s.opened ∧
        (gamedReadCb s bev a).stopped ≠ none ∨
      ∃ conn, s.gamedConn = some conn ∧ conn.auth = authNone ∧
        (overlay (s.removable conn.bev) a.residue).cmd = authGamed ∧
        gamedReadCb s bev a =
          openClientService ((s.removeInput conn.bev).setAuth authGamed) a.binds := by
  have hserved := gamedReadCb_served s bev a
  generalize gamedReadCb s bev a = s' at hserved
  cases hserved with
  | unlinked hc => exact Or.inl ⟨rfl, rfl, by simp [Daemon.stop]⟩
  | asserts hc ha => exact Or.inl ⟨rfl, rfl, by simp [Daemon.stop]⟩
  | ignores hc hn hg =>
    obtain ⟨g, -, hconn⟩ := Option.bind_eq_some_iff.1 hc
    exact ((hflags _ (List.mem_of_getElem? hconn)).elim hn hg).elim
  | rejects hc ha hcmd => exact Or.inl ⟨rfl, rfl, by simp [Daemon.stop]⟩
  | admits hc ha hcmd => exact Or.inr ⟨_, hc, ha, hcmd, rfl⟩

theorem Served.flagged {s s' : Daemon} {a : Arrival} (hserved : Served s a s') (h : Flagged s) :
    Flagged s' := by
  cases hserved with
  | unlinked hc => exact h
  | asserts hc ha => exact h
  | ignores hc hn hg => exact h
  | rejects hc ha hcmd => exact h
  | @admits conn hc ha hcmd =>
    obtain ⟨g, hg, -⟩ := Option.bind_eq_some_iff.1 hc
    have hg' : (s.removeInput conn.bev).gGamedConn = some g := hg
    unfold Flagged
    rw [openClientService_conns, setAuth_conns hg']
    exact ListUpdate.forall_modify h fun c _ => Or.inr rfl

/-! ## What only an accept changes -/

structure Wiring where
  conns : List (Int × Nat)
  bevs : List (Int × Listener)
  gGamedConn : Option Nat
  descriptors : List Descriptor

def Daemon.wiring (s : Daemon) : Wiring where
  conns := s.conns.map fun c => (c.fd, c.bev)
  bevs := s.bevs.map fun b => (b.fd, b.callbacks)
  gGamedConn := s.gGamedConn
  descriptors := s.descriptors

theorem callbacksOf_eq {s : Daemon} {bev : Nat} {b : Bufferevent} (hb : s.bevs[bev]? = some b) :
    s.callbacksOf bev = some b.callbacks := by
  simp [Daemon.callbacksOf, hb]

/-- A bufferevent has the callbacks of one of the two listeners. -/
theorem callbacksOf_cases {s : Daemon} {bev : Nat} (h : bev < s.bevs.length) :
    s.callbacksOf bev = some .gamed ∨ s.callbacksOf bev = some .client := by
  have hb := List.getElem?_eq_getElem h
  rw [callbacksOf_eq hb]
  cases (s.bevs.get ⟨bev, h⟩).callbacks with
  | gamed => exact Or.inl rfl
  | client => exact Or.inr rfl

theorem callbacksOf_wiring (s : Daemon) (bev : Nat) :
    s.callbacksOf bev = s.wiring.bevs[bev]?.map Prod.snd := by
  simp [Daemon.callbacksOf, Daemon.wiring, Function.comp_def]

@[simp] theorem wiring_stop (s : Daemon) (how : Stop) : (s.stop how).wiring = s.wiring := rfl

@[simp] theorem wiring_loopExit (s : Daemon) : s.loopExit.wiring = s.wiring := rfl

@[simp] theorem wiring_openClientService (s : Daemon) (binds : Bool) :
    (openClientService s binds).wiring = s.wiring := by
  cases binds <;> rfl

theorem wiring_modify_bevs (s : Daemon) (bev : Nat) {f : Bufferevent → Bufferevent}
    (hf : ∀ b, ((f b).fd, (f b).callbacks) = (b.fd, b.callbacks)) :
    ({ s with bevs := s.bevs.modify bev f } : Daemon).wiring = s.wiring := by
  unfold Daemon.wiring
  rw [ListUpdate.map_modify_eq s.bevs bev hf]

@[simp] theorem wiring_receive (s : Daemon) (bev : Nat) (bytes : List UInt8) :
    (s.receive bev bytes).wiring = s.wiring := wiring_modify_bevs s bev fun _ => rfl

@[simp] theorem wiring_removeInput (s : Daemon) (bev : Nat) :
    (s.removeInput bev).wiring = s.wiring := wiring_modify_bevs s bev fun _ => rfl

@[simp] theorem wiring_clientReadCb (s : Daemon) (bev : Nat) :
    (clientReadCb s bev).wiring = s.wiring := wiring_modify_bevs s bev fun _ => rfl

@[simp] theorem wiring_setAuth (s : Daemon) (auth : Int) : (s.setAuth auth).wiring = s.wiring := by
  unfold Daemon.setAuth
  cases hg : s.gGamedConn with
  | none => rfl
  | some g =>
    have hconns : (s.conns.modify g fun c => { c with auth := auth }).map
        (fun c => (c.fd, c.bev)) = s.conns.map fun c => (c.fd, c.bev) :=
      ListUpdate.map_modify_eq s.conns g fun _ => rfl
    simp only [Daemon.wiring, hconns, hg]

theorem Served.wiring {s s' : Daemon} {a : Arrival} (h : Served s a s') : s'.wiring = s.wiring := by
  cases h <;> simp

/-- What an accept does to the wiring. -/
def Wiring.accept (w : Wiring) (l : Listener) (fd : Int) : Resources → Wiring
  | .both =>
    { conns := w.conns ++ [(fd, w.bevs.length)]
      bevs := w.bevs ++ [(fd, l)]
      gGamedConn := some w.conns.length
      descriptors := ⟨fd, l⟩ :: w.descriptors }
  | _ => { w with gGamedConn := none, descriptors := ⟨fd, l⟩ :: w.descriptors }

theorem wiring_accept (s : Daemon) (l : Listener) (fd : Int) (r : Resources) :
    (s.callback (.accept l fd r)).wiring = s.wiring.accept l fd r := by
  have hcb : s.callback (.accept l fd r) =
      acceptCb l { s with descriptors := ⟨fd, l⟩ :: s.descriptors } fd r := by
    cases l <;> rfl
  rw [hcb]
  cases r with
  | both => simp [acceptCb, netNewConnection, Daemon.wiring, Wiring.accept]
  | noMemory => rfl
  | noBufferevent => rfl

theorem wiring_acceptError (s : Daemon) (l : Listener) :
    (s.callback (.acceptError l)).wiring = s.wiring := by
  cases l <;> rfl

theorem wiring_data (s : Daemon) (bev : Nat) (a : Arrival) :
    (s.callback (.data bev a)).wiring = s.wiring := by
  simp only [Daemon.callback]
  split
  · rw [(gamedReadCb_served _ _ _).wiring, wiring_receive]
  · simp
  · simp

theorem wiring_event (s : Daemon) (bev : Nat) (what : BitVec 16) :
    (s.callback (.event bev what)).wiring = s.wiring := by
  simp only [Daemon.callback]
  split <;> simp [gamedErrorCb, clientErrorCb]

theorem Wiring.accept_bevs (w : Wiring) (l : Listener) (fd : Int) (r : Resources) :
    w.bevs <+: (w.accept l fd r).bevs := by
  cases r with
  | both => exact List.prefix_append _ _
  | noMemory => exact List.prefix_refl _
  | noBufferevent => exact List.prefix_refl _

/-- No callback takes a bufferevent away. -/
theorem callback_bevs (s : Daemon) (e : Event) : s.wiring.bevs <+: (s.callback e).wiring.bevs := by
  cases e with
  | accept l fd r =>
    rw [wiring_accept]
    exact s.wiring.accept_bevs l fd r
  | acceptError l => exact ⟨[], by rw [wiring_acceptError, List.append_nil]⟩
  | data bev a => exact ⟨[], by rw [wiring_data, List.append_nil]⟩
  | event bev what => exact ⟨[], by rw [wiring_event, List.append_nil]⟩

theorem bevs_length (s : Daemon) : s.bevs.length = s.wiring.bevs.length := by simp [Daemon.wiring]

theorem callback_bevs_length (s : Daemon) (e : Event) :
    s.bevs.length ≤ (s.callback e).bevs.length := by
  rw [bevs_length, bevs_length]
  exact (callback_bevs s e).length_le

theorem callbacksOf_callback {s : Daemon} {bev : Nat} {l : Listener}
    (h : s.callbacksOf bev = some l) (e : Event) : (s.callback e).callbacksOf bev = some l := by
  rw [callbacksOf_wiring] at h ⊢
  obtain ⟨b, hb, hl⟩ := Option.map_eq_some_iff.1 h
  obtain ⟨hlt, rfl⟩ := List.getElem?_eq_some_iff.1 hb
  rw [List.prefix_iff_getElem?.1 (callback_bevs s e) bev hlt, Option.map_some, hl]

theorem callbacksOf_receive (s : Daemon) (bev : Nat) (bytes : List UInt8) (i : Nat) :
    (s.receive bev bytes).callbacksOf i = s.callbacksOf i := by
  rw [callbacksOf_wiring, wiring_receive, ← callbacksOf_wiring]

theorem callback_gamedData {s : Daemon} {bev : Nat} (a : Arrival)
    (hcb : s.callbacksOf bev = some .gamed) :
    s.callback (.data bev a) = gamedReadCb (s.receive bev a.bytes) bev a := by
  simp only [Daemon.callback, callbacksOf_receive, hcb]

theorem callback_clientData {s : Daemon} {bev : Nat} (a : Arrival)
    (hcb : s.callbacksOf bev = some .client) :
    s.callback (.data bev a) = clientReadCb (s.receive bev a.bytes) bev := by
  simp only [Daemon.callback, callbacksOf_receive, hcb]

/-! ## Runs -/

/-- Listener, descriptor and outcome of the latest accept. -/
def latestAccept : List Event → Option (Listener × Int × Resources)
  | [] => none
  | .accept l fd r :: _ => some (l, fd, r)
  | _ :: history => latestAccept history

/-- `g_gamed_conn` is the connection that the latest accept made, which is also the latest
    one made, or NULL when it made none. -/
def Wiring.LinkedBy (w : Wiring) : Option (Listener × Int × Resources) → Prop
  | some (l, fd, .both) =>
    ∃ front, w.bevs = front ++ [(fd, l)] ∧ w.gGamedConn = some front.length
  | _ => w.gGamedConn = none

structure Wiring.Sound (w : Wiring) (history : List Event) : Prop where
  conns : w.conns = w.bevs.mapIdx fun i b => (b.1, i)
  fds : (w.descriptors.map Descriptor.fd).Nodup
  bevs_open : ∀ b ∈ w.bevs, ⟨b.1, b.2⟩ ∈ w.descriptors
  bevs_fds : (w.bevs.map Prod.fst).Nodup
  linked : w.LinkedBy (latestAccept history)

/-- What every run keeps. -/
def Wired (s : Daemon) : Prop := s.wiring.Sound s.history

theorem step_enabled {s : Daemon} {e : Event} (h : Enabled s e) :
    s.step e = { s.callback e with history := e :: s.history } := if_pos h

theorem step_disabled {s : Daemon} {e : Event} (h : ¬ Enabled s e) : s.step e = s := if_neg h

theorem Wiring.Sound.accept {w : Wiring} {history : List Event} (h : w.Sound history)
    {l : Listener} {fd : Int} (hfd : fd ∉ w.descriptors.map Descriptor.fd) (r : Resources) :
    (w.accept l fd r).Sound (.accept l fd r :: history) := by
  have hd : (w.accept l fd r).descriptors = ⟨fd, l⟩ :: w.descriptors := by cases r <;> rfl
  have hfds : ((w.accept l fd r).descriptors.map Descriptor.fd).Nodup := by
    rw [hd, List.map_cons, List.nodup_cons]
    exact ⟨hfd, h.fds⟩
  have hold : ∀ b ∈ w.bevs, (⟨b.1, b.2⟩ : Descriptor) ∈ (w.accept l fd r).descriptors := by
    intro b hb
    rw [hd]
    exact List.mem_cons_of_mem _ (h.bevs_open b hb)
  have hlen : w.conns.length = w.bevs.length := by rw [h.conns, List.length_mapIdx]
  cases r with
  | both =>
    refine ⟨?_, hfds, ?_, ?_, w.bevs, rfl, by rw [← hlen]; rfl⟩
    · simp [Wiring.accept, h.conns]
    · intro b hb
      rcases List.mem_append.1 hb with hb | hb
      · exact hold b hb
      · rw [List.mem_singleton.1 hb, hd]
        exact List.mem_cons_self
    · -- a bufferevent made before is on a descriptor that is still open
      show ((w.bevs ++ [(fd, l)]).map Prod.fst).Nodup
      rw [List.map_append, List.nodup_append]
      refine ⟨h.bevs_fds, by simp, fun x hx y hy hxy => hfd ?_⟩
      obtain ⟨b, hb, rfl⟩ := List.mem_map.1 hx
      obtain rfl : y = fd := by simpa using hy
      rw [← hxy]
      exact List.mem_map.2 ⟨_, h.bevs_open b hb, rfl⟩
  | noMemory => exact ⟨h.conns, hfds, hold, h.bevs_fds, rfl⟩
  | noBufferevent => exact ⟨h.conns, hfds, hold, h.bevs_fds, rfl⟩

/-- An event that is no accept leaves the wiring alone. -/
theorem Wiring.Sound.other {w : Wiring} {history : List Event} {e : Event} (h : w.Sound history)
    (he : latestAccept (e :: history) = latestAccept history) : w.Sound (e :: history) :=
  ⟨h.conns, h.fds, h.bevs_open, h.bevs_fds, he ▸ h.linked⟩

theorem flagged_callback {s : Daemon} (h : Flagged s) (e : Event) : Flagged (s.callback e) := by
  cases e with
  | accept l fd r =>
    have hnew : Flagged { s with
        conns := s.conns ++ [{ fd := fd, auth := authNone, bev := s.bevs.length }] } := by
      intro conn hconn
      rcases List.mem_append.1 hconn with hold | hnew
      · exact h conn hold
      · exact Or.inl (by rw [List.mem_singleton.1 hnew])
    cases r with
    | both => cases l <;> exact hnew
    | noMemory => cases l <;> exact h
    | noBufferevent => cases l <;> exact h
  | acceptError l => cases l <;> exact h
  | data bev a =>
    simp only [Daemon.callback]
    split
    · exact (gamedReadCb_served _ bev a).flagged h
    · exact h
    · exact h
  | event bev what =>
    simp only [Daemon.callback]
    split <;> exact h

theorem flagged_step {s : Daemon} (h : Flagged s) (e : Event) : Flagged (s.step e) := by
  by_cases hen : Enabled s e
  · rw [step_enabled hen]
    exact flagged_callback h e
  · rwa [step_disabled hen]

theorem wired_init : Wired .init :=
  ⟨rfl, List.nodup_nil, fun _ hb => absurd hb List.not_mem_nil, List.nodup_nil, rfl⟩

theorem step_history {s : Daemon} {e : Event} (hen : Enabled s e) :
    (s.step e).history = e :: s.history := by rw [step_enabled hen]

/-- Only an accept changes the wiring. -/
theorem step_wiring {s : Daemon} {e : Event} (hen : Enabled s e) :
    (s.step e).wiring =
      match e with
      | .accept l fd r => s.wiring.accept l fd r
      | _ => s.wiring := by
  rw [step_enabled hen]
  cases e with
  | accept l fd r => exact wiring_accept s l fd r
  | acceptError l => exact wiring_acceptError s l
  | data bev a => exact wiring_data s bev a
  | event bev what => exact wiring_event s bev what

theorem wired_step (s : Daemon) (e : Event) (h : Wired s) : Wired (s.step e) := by
  by_cases hen : Enabled s e
  · unfold Wired
    rw [step_history hen, step_wiring hen]
    cases e with
    | accept l fd r => exact Wiring.Sound.accept h hen.2.1 r
    | acceptError l => exact Wiring.Sound.other h rfl
    | data bev a => exact Wiring.Sound.other h rfl
    | event bev what => exact Wiring.Sound.other h rfl
  · rwa [step_disabled hen]

theorem callbacksOf_step {s : Daemon} {bev : Nat} {l : Listener} (h : s.callbacksOf bev = some l)
    (e : Event) : (s.step e).callbacksOf bev = some l := by
  by_cases hen : Enabled s e
  · rw [step_enabled hen]
    exact callbacksOf_callback h e
  · rwa [step_disabled hen]

/-! ## Connections and their bufferevents -/

section Wired

variable {s : Daemon} (h : Wired s)

include h

theorem Wired.getElem? (i : Nat) :
    s.conns[i]?.map (fun c => (c.fd, c.bev)) = s.bevs[i]?.map fun b => (b.fd, i) := by
  have hi := congrArg (·[i]?) h.conns
  simpa [Daemon.wiring, Function.comp_def] using hi

theorem Wired.length : s.conns.length = s.bevs.length := by
  have hlen := congrArg List.length h.conns
  simpa [Daemon.wiring] using hlen

theorem Wired.bev_of_conn {i : Nat} {conn : NetConnection} (hc : s.conns[i]? = some conn) :
    conn.bev = i ∧ ∃ b, s.bevs[i]? = some b ∧ b.fd = conn.fd := by
  have hi := h.getElem? i
  rw [hc, Option.map_some] at hi
  obtain ⟨b, hb, heq⟩ := Option.map_eq_some_iff.1 hi.symm
  obtain ⟨hfd, rfl⟩ := Prod.mk.inj heq
  exact ⟨rfl, b, hb, hfd⟩

theorem Wired.conn_of_bev {i : Nat} {b : Bufferevent} (hb : s.bevs[i]? = some b) :
    ∃ conn, s.conns[i]? = some conn ∧ conn.bev = i ∧ conn.fd = b.fd := by
  have hi := h.getElem? i
  rw [hb, Option.map_some] at hi
  obtain ⟨conn, hc, heq⟩ := Option.map_eq_some_iff.1 hi
  obtain ⟨hfd, hbev⟩ := Prod.mk.inj heq
  exact ⟨conn, hc, hbev, hfd⟩

/-- A descriptor has one bufferevent. -/
theorem Wired.bev_unique {i j : Nat} {b c : Bufferevent} (hb : s.bevs[i]? = some b)
    (hc : s.bevs[j]? = some c) (hfd : b.fd = c.fd) : i = j := by
  have hnodup : (s.bevs.map Bufferevent.fd).Nodup := by
    have := h.bevs_fds
    simpa [Daemon.wiring, Function.comp_def] using this
  have hlt : i < (s.bevs.map Bufferevent.fd).length := by
    rw [List.length_map]
    exact (List.getElem?_eq_some_iff.1 hb).1
  apply (List.getElem?_inj hlt hnodup).1
  rw [List.getElem?_map, List.getElem?_map, hb, hc, Option.map_some, Option.map_some, hfd]

/-- `g_gamed_conn` points to the connection of the bufferevent `bev` if and only if that is
    the one made by the latest accept. -/
theorem Wired.linked_iff {bev : Nat} {b : Bufferevent} (hb : s.bevs[bev]? = some b) :
    (∃ conn, s.gamedConn = some conn ∧ conn.bev = bev) ↔
      latestAccept s.history = some (b.callbacks, b.fd, .both) := by
  have hlinked := h.linked
  constructor
  · intro ⟨conn, hconn, hbev⟩
    obtain ⟨g, hg, hc⟩ := Option.bind_eq_some_iff.1 hconn
    obtain ⟨hcg, -⟩ := h.bev_of_conn hc
    obtain rfl : g = bev := hcg.symm.trans hbev
    have hw : s.wiring.gGamedConn = some g := hg
    match hl : latestAccept s.history with
    | some (l, fd, .both) =>
      rw [hl] at hlinked
      obtain ⟨front, hbevs, hlast⟩ := hlinked
      obtain rfl : g = front.length := Option.some.inj (hw.symm.trans hlast)
      have hat : s.wiring.bevs[front.length]? = some (b.fd, b.callbacks) := by
        simp [Daemon.wiring, hb]
      rw [hbevs, List.getElem?_concat_length] at hat
      obtain ⟨rfl, rfl⟩ := Prod.mk.inj (Option.some.inj hat)
      rfl
    | none | some (_, _, .noMemory) | some (_, _, .noBufferevent) =>
      rw [hl] at hlinked
      exact absurd (hw.symm.trans hlinked) (Option.some_ne_none g)
  · intro hl
    rw [hl] at hlinked
    obtain ⟨front, hbevs, hlast⟩ := hlinked
    have hat : s.wiring.bevs[front.length]? = some (b.fd, b.callbacks) := by
      rw [hbevs, List.getElem?_concat_length]
    obtain ⟨c, hc, heq⟩ := Option.map_eq_some_iff.1 ((List.getElem?_map ..).symm.trans hat)
    obtain rfl := h.bev_unique hb hc (Prod.mk.inj heq).1.symm
    obtain ⟨conn, hconn, hbev, -⟩ := h.conn_of_bev hc
    refine ⟨conn, ?_, hbev⟩
    have hg : s.gGamedConn = some front.length := hlast
    rw [Daemon.gamedConn, hg, Option.bind_some, hconn]

end Wired

theorem wired_exec (events : List Event) : Wired (exec Daemon.step .init events) :=
  exec_inv_all wired_step wired_init events

/-- gamed logs in on descriptor 5, with `extra` behind the packet. -/
def login (extra : List UInt8) (residue : List UInt8) (binds : Bool) : List Event :=
  [.accept .gamed 5 .both,
    .data 0 ⟨gamedHello ++ extra, List.append_ne_nil_of_left_ne_nil (by decide) _, residue, binds⟩]

def oneByte : Arrival := ⟨[1], List.cons_ne_nil _ _, [], true⟩

end GameServer.Gated
