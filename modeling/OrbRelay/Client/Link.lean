import OrbRelay.Client.Moves

/-!
# What a step does to the connection

The other view of a step: the phase of the actor task, its attempts, and the tonic
queue, with little said about the calls.
-/
namespace OrbRelay.Client

/-! ## The rounds of `connect` -/

/-- Events that leave the loop. -/
def StreamEvent.decisive : StreamEvent → Bool
  | .message (some (.connectResponse _ _ _)) _ | .status _ | .eof => true
  | _ => false

theorem connectRound_next {ev : StreamEvent} {forward : Option Msg}
    (h : connectRound ev = .next forward) : ev.decisive = false ∧ ev.accepts = false := by
  match ev with
  | .message none _ => exact ⟨rfl, rfl⟩
  | .message (some (.ack _ _)) _ => exact ⟨rfl, rfl⟩
  | .message (some (.payload _)) _ => exact ⟨rfl, rfl⟩
  | .message (some (.connectResponse _ true _)) _ => cases h
  | .message (some (.connectResponse _ false _)) _ => cases h
  | .status _ => cases h
  | .eof => cases h

theorem connectRound_done {ev : StreamEvent} {result : Except Err Unit}
    (h : connectRound ev = .done result) :
    ev.decisive = true ∧ (result = .ok () ↔ ev.accepts = true ∨ ev = .eof) := by
  match ev with
  | .message none _ => cases h
  | .message (some (.ack _ _)) _ => cases h
  | .message (some (.payload _)) _ => cases h
  | .message (some (.connectResponse _ true _)) _ =>
    cases h
    exact ⟨rfl, by simp [StreamEvent.accepts]⟩
  | .message (some (.connectResponse _ false _)) _ =>
    cases h
    exact ⟨rfl, by simp [StreamEvent.accepts]⟩
  | .status _ =>
    cases h
    exact ⟨rfl, by simp [StreamEvent.accepts]⟩
  | .eof =>
    cases h
    exact ⟨rfl, by simp⟩

theorem tonic_of_handled {opts : ClientOpts} {e e' : Exchange} {m : Msg}
    (h : Handled opts e m e') :
    e'.tonic = e.tonic ∨
      ∃ f, e'.tonic = e.tonic.push f ∧ (m = .send f ∨ ∀ n, f.origin ≠ .connect n) := by
  cases h with
  | send payload => exact .inr ⟨payload, rfl, .inl rfl⟩
  | retryAck seq left msg o hp hl => exact .inr ⟨_, rfl, .inr fun n hn => by cases hn⟩
  | retryAsk id seq left msg o hp hl => exact .inr ⟨_, rfl, .inr fun n hn => by cases hn⟩
  | heartbeat => exact .inr ⟨_, rfl, .inr fun n hn => by cases hn⟩
  | _ => exact .inl rfl


namespace System

variable {opts : ClientOpts} {s s' : System}

/-- What most steps leave alone. -/
structure Kept (s s' : System) : Prop where
  phase : s'.phase = s.phase
  attempt : s'.attempt = s.attempt
  accepted : s'.accepted = s.accepted
  heartbeat : s'.exchange.state.heartbeatStarted = s.exchange.state.heartbeatStarted

/-- What a step does to the phase, the attempt, the accepted attempts and the tonic
queue. -/
inductive Link (opts : ClientOpts) (s : System) : Action → System → Prop where
  | quiet {a : Action} {s' : System} (hk : s.Kept s')
      (ht : s'.exchange.tonic = s.exchange.tonic) : Link opts s a s'
  | push {a : Action} {s' : System} (f : Frame) (hk : s.Kept s')
      (ht : s'.exchange.tonic = s.exchange.tonic.push f)
      (hf : .send f ∈ s.exchange.actorRx ∨ ∀ n, f.origin ≠ .connect n) : Link opts s a s'
  | tonic {a : TonicAction} (p : Tonic Frame) (hm : s.exchange.tonic.Moves p) :
      Link opts s (.tonic a) { s with exchange := { s.exchange with tonic := p } }
  | enter {a : Action} (hp : s.phase = .starting ∨ s.phase = .backoff) : Link opts s a s.enter
  | halt {a : Action} (p : Phase) (hp : p.isEnded = true) : Link opts s a { s with phase := p }
  | fail {a : Action} {s' : System} (hp : s.phase.connecting = true ∨ s.phase = .connected)
      (ha : s'.phase = .dialing ∧ s'.attempt = s.attempt + 1 ∨
        (s'.phase.isEnded = true ∨ s'.phase = .backoff) ∧ s'.attempt = s.attempt)
      (hc : s'.accepted = s.accepted)
      (hh : s'.exchange.state.heartbeatStarted = s.exchange.state.heartbeatStarted)
      (ht : s'.exchange.tonic = s.exchange.tonic.cancel s.attempt) : Link opts s a s'
  | dial (request : ConnectRequest) (hp : s.phase = .dialing)
      (hr : connectRequest opts s.token = some request) :
      Link opts s (.dial .ok) { s with
        phase := .calling
        exchange := { s.exchange with tonic :=
          (s.exchange.tonic.push ⟨.connectRequest request, .connect s.attempt⟩).new s.attempt } }
  | call (hp : s.phase = .calling) :
      Link opts s (.relayConnect none) { s with phase := .handshake }
  | accept {ev : StreamEvent} {s' : System} (hp : s.phase = .handshake)
      (he : ev.accepts = true) (hp' : s'.phase = .connected) (ha : s'.attempt = s.attempt)
      (hc : s'.accepted = s.attempt :: s.accepted)
      (ht : s'.exchange.tonic = s.exchange.tonic)
      (hh : s'.exchange.state.heartbeatStarted = true) : Link opts s (.response ev) s'
  | eof {s' : System} (hp : s.phase = .handshake) (hp' : s'.phase = .connected)
      (ha : s'.attempt = s.attempt) (hc : s'.accepted = s.accepted)
      (ht : s'.exchange.tonic = s.exchange.tonic)
      (hh : s'.exchange.state.heartbeatStarted = true) : Link opts s (.response .eof) s'

theorem link_fail {a : Action} {s₀ : System} (err : Err)
    (hp : s.phase.connecting = true ∨ s.phase = .connected) (ha : s₀.attempt = s.attempt)
    (hc : s₀.accepted = s.accepted)
    (hh : s₀.exchange.state.heartbeatStarted = s.exchange.state.heartbeatStarted)
    (ht : s₀.exchange.tonic = s.exchange.tonic) :
    Link opts s a (s₀.fail opts err) := by
  refine .fail hp ?_ ?_ ?_ ?_
  · unfold fail
    split
    · exact .inr ⟨.inl rfl, ha⟩
    · exact .inl ⟨rfl, congrArg (· + 1) ha⟩
    · split_ifs
      · exact .inr ⟨.inl rfl, ha⟩
      · exact .inr ⟨.inr rfl, ha⟩
  · unfold fail
    split
    · exact hc
    · exact hc
    · split_ifs <;> exact hc
  · rw [fail_exchange, hh]
  · rw [fail_exchange, ha, ht]

theorem link_handle {a : Action} {s₀ : System} {msg : Msg} (hp : s.phase = .connected)
    (hk : s.Kept s₀) (ht : s₀.exchange.tonic = s.exchange.tonic)
    (hm : ∀ f, msg = .send f → .send f ∈ s.exchange.actorRx) :
    Link opts s a (s₀.handle opts msg) := by
  unfold handle
  split
  · next e' he =>
    have he := handled_of_handleMsg he
    have hk' : s.Kept { s₀ with exchange := e' } :=
      ⟨hk.phase, hk.attempt, hk.accepted, he.heartbeatStarted.trans hk.heartbeat⟩
    rcases tonic_of_handled he with hq | ⟨f, hq, hf⟩
    · exact .quiet hk' (hq.trans ht)
    · exact .push f hk' (hq.trans (congrArg (·.push f) ht)) (hf.imp_left fun h => hm f h)
  · exact link_fail _ (.inr hp) hk.attempt hk.accepted hk.heartbeat ht

theorem link_round {ev : StreamEvent} (hp : s.phase = .handshake) :
    Link opts s (.response ev) ((s.note ev).round opts ev) := by
  unfold round
  split
  · next hr =>
    refine .quiet ⟨rfl, rfl, ?_, rfl⟩ rfl
    simp [note, (connectRound_next hr).2]
  · next msg hr =>
    refine .quiet ⟨rfl, rfl, ?_, rfl⟩ rfl
    simp [note, (connectRound_next hr).2]
  · next hr =>
    have hk : (s.note ev).mainLoop.exchange.tonic = s.exchange.tonic :=
      Exchange.startHeartbeat_tonic _
    have hh : (s.note ev).mainLoop.exchange.state.heartbeatStarted = true :=
      Exchange.startHeartbeat_started _
    rcases (connectRound_done hr).2.mp rfl with he | rfl
    · exact .accept hp he rfl rfl (by simp [mainLoop, note, he]) hk hh
    · exact .eof hp rfl rfl rfl hk hh
  · next err hr =>
    have hacc : ev.accepts = false := by
      by_contra h
      have := (connectRound_done hr).2.mpr (.inl (by simpa using h))
      cases this
    exact link_fail err (.inl (by rw [hp]; rfl)) rfl (by simp [note, hacc]) rfl rfl

theorem link_of_step {a : Action} (h : s.step opts a = some s') : Link opts s a s' := by
  cases a with
  | client a =>
    obtain ⟨e, he, h⟩ := Option.bind_eq_some_iff.mp h
    cases h
    have hc := Exchange.called_of_client he
    exact .quiet ⟨rfl, rfl, rfl, by cases hc <;> rfl⟩ (by cases hc <;> rfl)
  | fire i =>
    obtain ⟨msg, hm, h⟩ := Option.bind_eq_some_iff.mp h
    split_ifs at h
    cases h
    exact .quiet ⟨rfl, rfl, rfl, rfl⟩ rfl
  | tonic a =>
    obtain ⟨p, hp, h⟩ := Option.bind_eq_some_iff.mp h
    cases h
    exact .tonic p (Tonic.moves_of_step hp)
  | setToken token => cases h; exact .quiet ⟨rfl, rfl, rfl, rfl⟩ rfl
  | validate report =>
    simp only [step] at h
    split at h <;> cases h
    · next hp => exact .enter (.inl hp)
    · exact .halt _ rfl
  | dial result =>
    simp only [step] at h
    split at h <;> cases h
    · next hp =>
      unfold callRelay
      split
      · exact .halt _ rfl
      · next request hr => exact .dial request hp hr
    · next hp => exact link_fail _ (.inl (by rw [hp]; rfl)) rfl rfl rfl rfl
    · next hp => exact link_fail _ (.inl (by rw [hp]; rfl)) rfl rfl rfl rfl
  | relayConnect error =>
    simp only [step] at h
    split at h <;> cases h
    · next hp => exact .call hp
    · next hp => exact link_fail _ (.inl (by rw [hp]; rfl)) rfl rfl rfl rfl
  | timeout =>
    simp only [step] at h
    split_ifs at h with hp
    cases h
    exact link_fail _ (.inl hp) rfl rfl rfl rfl
  | response ev =>
    simp only [step, response] at h
    split at h
    · cases h
    split at h
    · next hp => cases h; exact link_round hp
    · next hp =>
      split_ifs at h
      cases h
      rcases ev with ⟨_ | msg, tag⟩ | error | _
      · exact .quiet ⟨rfl, rfl, rfl, rfl⟩ rfl
      · exact link_handle hp ⟨rfl, rfl, rfl, rfl⟩ rfl (fun f hf => by cases hf)
      · exact link_fail (.tonic error) (.inr hp) rfl rfl rfl rfl
      · exact link_fail .streamEnded (.inr hp) rfl rfl rfl rfl
    · cases h
  | take =>
    simp only [step] at h
    split at h
    · next msg rest hp hq =>
      cases h
      exact link_handle hp ⟨rfl, rfl, rfl, rfl⟩ rfl (fun f hf => by simp [hq, hf])
    · cases h
  | wake =>
    simp only [step] at h
    split at h <;> cases h
    next hp => exact .enter (.inr hp)

end System
end OrbRelay.Client
