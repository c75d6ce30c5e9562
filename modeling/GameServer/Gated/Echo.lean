/-
  What gated sends. A client gets back what it sent, all of it and in order, whatever the
  other connections do in between; gamed gets nothing. `Mirrored` says so for every
  bufferevent of a state, and every run keeps it (`mirrored_exec`).
-/
import GameServer.Gated.Auth

namespace GameServer.Gated

open Runs

/-- Output and input of a bufferevent, by what has arrived on it. -/
def Bufferevent.Mirrors (b : Bufferevent) (arrived : List UInt8) : Prop :=
  match b.callbacks with
  | .client => b.input = [] ∧ b.output = arrived
  | .gamed => b.input <:+ arrived ∧ b.output = []

def Mirrored (s : Daemon) : Prop :=
  ∀ (i : Nat) (b : Bufferevent), s.bevs[i]? = some b → b.Mirrors (received s.history i)

theorem mirrors_new (fd : Int) (l : Listener) : (Bufferevent.mk fd l [] []).Mirrors [] := by
  cases l
  · exact ⟨List.suffix_refl _, rfl⟩
  · exact ⟨rfl, rfl⟩

/-- Taking a packet out of the input of a client finds nothing there. -/
theorem Bufferevent.Mirrors.drop {b : Bufferevent} {arrived : List UInt8} (h : b.Mirrors arrived)
    (n : Nat) : ({ b with input := b.input.drop n } : Bufferevent).Mirrors arrived := by
  unfold Mirrors at h ⊢
  cases hl : b.callbacks with
  | gamed =>
    rw [hl] at h
    exact ⟨(List.drop_suffix n b.input).trans h.1, h.2⟩
  | client =>
    rw [hl] at h
    obtain ⟨hin, hout⟩ := h
    exact ⟨by rw [hin, List.drop_nil], hout⟩

theorem removeInput_getElem? (s : Daemon) (bev i : Nat) :
    (s.removeInput bev).bevs[i]? = s.bevs[i]?.map fun b =>
      { b with input := if bev = i then b.input.drop sizeofAuthPacket else b.input } := by
  show (s.bevs.modify bev _)[i]? = _
  rw [List.getElem?_modify]
  cases s.bevs[i]? with
  | none => simp
  | some b => by_cases h : bev = i <;> simp [h]

/-- The bufferevents after `gamed_read_cb`: at most, a packet is taken out of one. -/
theorem Served.bevs {s s' : Daemon} {a : Arrival} (h : Served s a s') :
    s'.bevs = s.bevs ∨ ∃ bev, s'.bevs = (s.removeInput bev).bevs := by
  cases h with
  | unlinked hc => exact Or.inl rfl
  | asserts hc ha => exact Or.inl rfl
  | ignores hc hn hg => exact Or.inl rfl
  | @rejects conn hc ha hcmd => exact Or.inr ⟨conn.bev, rfl⟩
  | @admits conn hc ha hcmd => exact Or.inr ⟨conn.bev, by simp⟩

/-- The input of a connection from gamed after its callback: what was left out of what has
    arrived. -/
theorem Served.mirrors {s s' : Daemon} {a : Arrival} (h : Served s a s')
    {arrived : Nat → List UInt8}
    (hs : ∀ (i : Nat) (b : Bufferevent), s.bevs[i]? = some b → b.Mirrors (arrived i)) :
    ∀ (i : Nat) (b : Bufferevent), s'.bevs[i]? = some b → b.Mirrors (arrived i) := by
  intro i b hb
  rcases h.bevs with heq | ⟨bev, heq⟩
  · exact hs i b (heq ▸ hb)
  · rw [heq, removeInput_getElem?] at hb
    obtain ⟨b', hb', rfl⟩ := Option.map_eq_some_iff.1 hb
    by_cases hi : bev = i
    · simpa [hi] using (hs i b' hb').drop sizeofAuthPacket
    · simpa [hi] using hs i b' hb'

theorem mirrored_step (s : Daemon) (e : Event) (h : Mirrored s ∧ Quiet s) :
    Mirrored (s.step e) ∧ Quiet (s.step e) := by
  refine ⟨?_, quiet_step h.2 e⟩
  obtain ⟨hm, hq⟩ := h
  by_cases hen : Enabled s e
  · intro i b hb
    rw [step_history hen]
    rw [step_enabled hen] at hb
    have hb : (s.callback e).bevs[i]? = some b := hb
    cases e with
    | accept l fd r =>
      show b.Mirrors (received s.history i)
      cases r with
      | noMemory => exact hm i b (by cases l <;> exact hb)
      | noBufferevent => exact hm i b (by cases l <;> exact hb)
      | both =>
        have hb : (s.bevs ++ [⟨fd, l, [], []⟩])[i]? = some b := by cases l <;> exact hb
        by_cases hi : i < s.bevs.length
        · rw [List.getElem?_append_left hi] at hb
          exact hm i b hb
        · rw [List.getElem?_append_right (Nat.le_of_not_lt hi)] at hb
          obtain ⟨-, rfl⟩ := ListUpdate.singleton_cases hb
          rw [hq i (Nat.le_of_not_lt hi)]
          exact mirrors_new fd l
    | acceptError l => exact hm i b (by cases l <;> exact hb)
    | event bev what =>
      refine hm i b ?_
      simp only [Daemon.callback] at hb
      split at hb <;> exact hb
    | data bev a =>
      rw [received_data]
      have hlt : bev < s.bevs.length := hen.2
      -- what has arrived is in the input before the callback runs
      rcases callbacksOf_cases hlt with hl | hl
      · rw [callback_gamedData a hl] at hb
        have hrec : ∀ (j : Nat) (c : Bufferevent), (s.receive bev a.bytes).bevs[j]? = some c →
            c.Mirrors (received s.history j ++ if bev = j then a.bytes else []) := by
          intro j c hc
          rw [receive_getElem?] at hc
          obtain ⟨c', hc', rfl⟩ := Option.map_eq_some_iff.1 hc
          by_cases hj : bev = j
          · subst hj
            have hgamed : c'.callbacks = .gamed :=
              Option.some.inj ((callbacksOf_eq hc').symm.trans hl)
            have hold := hm bev c' hc'
            unfold Bufferevent.Mirrors at hold ⊢
            rw [hgamed] at hold
            simp only [hgamed, if_true]
            obtain ⟨⟨u, hu⟩, hout⟩ := hold
            exact ⟨⟨u, by rw [← List.append_assoc, hu]⟩, hout⟩
          · simpa [hj] using hm j c' hc'
        exact (gamedReadCb_served _ bev a).mirrors hrec i b hb
      · rw [callback_clientData a hl] at hb
        have hb : ((s.receive bev a.bytes).bevs.modify bev _)[i]? = some b := hb
        rw [List.getElem?_modify, receive_getElem?, Option.map_eq_map, Option.map_map] at hb
        obtain ⟨c, hc, rfl⟩ := Option.map_eq_some_iff.1 hb
        by_cases hi : bev = i
        · subst hi
          have hclient : c.callbacks = .client :=
            Option.some.inj ((callbacksOf_eq hc).symm.trans hl)
          have hold := hm bev c hc
          unfold Bufferevent.Mirrors at hold ⊢
          rw [hclient] at hold
          obtain ⟨hin, hout⟩ := hold
          simp [hclient, hin, hout]
        · simpa [hi] using hm i c hc
  · rw [step_disabled hen]
    exact hm

/-- In every run: a client has been given back exactly what it sent, and gamed nothing. -/
theorem mirrored_exec (events : List Event) : Mirrored (exec Daemon.step .init events) := by
  have hinit : Mirrored .init ∧ Quiet .init :=
    ⟨fun _ _ hb => absurd hb (by simp [Daemon.init]), fun _ _ => rfl⟩
  exact (exec_inv_all mirrored_step hinit events).1

end GameServer.Gated
