import OrbRelay.Client.Connection

/-!
# What a step does to calls, queues and maps

Most invariants of a client do not look at the phase of its connection. Seen from
them a step of the system is one of the moves below, labelled with the message that
the step hands to `handle_msg`.
-/
namespace OrbRelay.Client

namespace Exchange

/-- The moves of an exchange. -/
inductive Moves (opts : ClientOpts) (e : Exchange) : Option Msg → Exchange → Prop where
  | stay : Moves opts e none e
  | tonic (p : Tonic Frame) (hp : p.pushed = e.tonic.pushed) :
      Moves opts e none { e with tonic := p }
  | dial (p : Tonic Frame) (request : ConnectRequest) (n : ℕ)
      (hp : p.pushed = e.tonic.pushed ++ [⟨.connectRequest request, .connect n⟩]) :
      Moves opts e none { e with tonic := p }
  | heartbeat (hs : e.state.heartbeatStarted = false) :
      Moves opts e none
        ({ e with state := { e.state with heartbeatStarted := true } }.sleep .heartbeat)
  | called {e' : Exchange} (h : Called opts e e') : Moves opts e none e'
  | fire (i : ℕ) (msg : Msg) (hm : e.sleeping[i]? = some msg) :
      Moves opts e none ({ e with sleeping := e.sleeping.eraseIdx i }.post msg)
  | forward (msg : ResponseMsg) (tag : Tag) :
      Moves opts e none (e.post (.relayResponse msg tag))
  | take (msg : Msg) (rest : List Msg) (hq : e.actorRx = msg :: rest) {e' : Exchange}
      (h : Handled opts ({ e with actorRx := rest }.note msg) msg e') : Moves opts e (some msg) e'
  | takeFail (msg : Msg) (rest : List Msg) (p : Tonic Frame) (hq : e.actorRx = msg :: rest)
      (hf : ∃ err, handleMsg opts ({ e with actorRx := rest }.note msg) msg = .error err)
      (hp : p.pushed = e.tonic.pushed) :
      Moves opts e (some msg) { { e with actorRx := rest }.note msg with tonic := p }
  | read (msg : ResponseMsg) (tag : Tag) (hq : e.actorRx = []) {e' : Exchange}
      (h : Handled opts (e.note (.relayResponse msg tag)) (.relayResponse msg tag) e') :
      Moves opts e (some (.relayResponse msg tag)) e'
  | readFail (msg : ResponseMsg) (tag : Tag) (p : Tonic Frame) (hq : e.actorRx = [])
      (hf : ∃ err, handleMsg opts (e.note (.relayResponse msg tag)) (.relayResponse msg tag) =
        .error err) (hp : p.pushed = e.tonic.pushed) :
      Moves opts e (some (.relayResponse msg tag))
        { e.note (.relayResponse msg tag) with tonic := p }

end Exchange

theorem Exchange.mem_sleep {e : Exchange} {m msg : Msg} (ht : m.timer = true)
    (h : msg ∈ (e.sleep m).sleeping) : msg ∈ e.sleeping ∨ msg.timer = true := by
  rcases List.mem_append.mp h with h | h
  · exact .inl h
  · obtain rfl := List.mem_singleton.mp h
    exact .inr ht

theorem Handled.sleeping {opts : ClientOpts} {e e' : Exchange} {m : Msg}
    (h : Handled opts e m e') {msg : Msg} (hm : msg ∈ e'.sleeping) :
    msg ∈ e.sleeping ∨ msg.timer = true := by
  cases h <;> first | exact .inl hm | exact Exchange.mem_sleep rfl hm

/-- Only retries and heartbeats sleep. -/
theorem Exchange.Moves.sleeping {opts : ClientOpts} {e e' : Exchange} {l : Option Msg}
    (h : e.Moves opts l e') {msg : Msg} (hm : msg ∈ e'.sleeping) :
    msg ∈ e.sleeping ∨ msg.timer = true := by
  cases h with
  | heartbeat => exact mem_sleep rfl hm
  | called h =>
    left
    cases h <;> exact hm
  | fire i m hi => exact .inl (List.mem_of_mem_eraseIdx hm)
  | take m rest hq h => exact h.sleeping hm
  | read m tag hq h => exact h.sleeping hm
  | _ => exact .inl hm

/-- The actor's queue grows at its end, or its first message is handled. -/
theorem Exchange.Moves.queue {opts : ClientOpts} {e e' : Exchange} {l : Option Msg}
    (h : e.Moves opts l e') :
    e.actorRx <+: e'.actorRx ∨ ∃ m, l = some m ∧ e.actorRx = m :: e'.actorRx := by
  cases h with
  | called h =>
    cases h with
    | enqueue o op pc ho hpc hpc' => exact .inl (List.prefix_append _ _)
    | register o op msg ho hpc hw => exact .inl (List.prefix_append _ _)
    | control msg hm => exact .inl (List.prefix_append _ _)
    | _ => exact .inl List.prefix_rfl
  | fire i msg hm => exact .inl (List.prefix_append _ _)
  | forward msg tag => exact .inl (List.prefix_append _ _)
  | take msg rest hq h => exact .inr ⟨msg, rfl, hq.trans (congrArg _ h.actorRx.symm)⟩
  | takeFail msg rest p hq hf hp => exact .inr ⟨msg, rfl, hq⟩
  | read msg tag hq h => exact .inl (hq ▸ List.nil_prefix)
  | readFail msg tag p hq hf hp => exact .inl (hq ▸ List.nil_prefix)
  | _ => exact .inl List.prefix_rfl

theorem handleMsg_error {opts : ClientOpts} {e : Exchange} {m : Msg} {err : Err}
    (h : handleMsg opts e m = .error err) :
    m = .stop ∨ m = .reconnect ∨ ∃ src dst seq payload tag,
      m = .relayResponse (.payload ⟨some src, dst, seq, some payload⟩) tag ∧
      e.state.pendingReplies (src.id, seq) = none ∧ e.clientsAlive = false := by
  cases m with
  | relayResponse msg tag =>
    match msg with
    | .payload ⟨some entity, dst, seq, some payload⟩ =>
      simp only [handleMsg, handlePayload] at h
      split at h
      · cases h
      · next hp =>
        split_ifs at h with hc
        exact .inr (.inr ⟨entity, dst, seq, payload, tag, rfl, hp, by simpa using hc⟩)
    | .ack seq n => cases h
    | .connectResponse id success error => cases h
    | .payload ⟨none, dst, seq, payload⟩ => cases h
    | .payload ⟨some entity, dst, seq, none⟩ => cases h
  | send payload => cases h
  | waitForAck msg o seq => cases h
  | waitForReply msg o seq => cases h
  | retryAck seq left =>
    simp only [handleMsg] at h
    split at h
    · split_ifs at h
    · cases h
  | retryAsk id seq left =>
    simp only [handleMsg] at h
    split at h
    · split_ifs at h
    · cases h
  | stop => exact .inl rfl
  | heartbeat => cases h
  | reconnect => exact .inr (.inl rfl)

namespace Tonic

variable {T : Type*}

theorem pushed_of_step {p p' : Tonic T} {a : TonicAction} (h : p.step a = some p') :
    p'.pushed = p.pushed := by
  cases moves_of_step h <;> rfl

end Tonic

namespace System

variable {opts : ClientOpts} {s s' : System}

/-- The message that a step hands to `handle_msg`. -/
def handles (s : System) : Action → Option Msg
  | .take => s.exchange.actorRx.head?
  | .response (.message (some msg) tag) =>
    if s.phase.isConnected then some (.relayResponse msg tag) else none
  | _ => none

@[simp] theorem fail_exchange (opts : ClientOpts) (s : System) (err : Err) :
    (s.fail opts err).exchange =
      { s.exchange with tonic := s.exchange.tonic.cancel s.attempt } := by
  unfold fail
  split
  · rfl
  · rfl
  · split_ifs <;> rfl

theorem moves_fail (opts : ClientOpts) (s : System) (err : Err) :
    s.exchange.Moves opts none (s.fail opts err).exchange := by
  rw [fail_exchange]
  exact .tonic _ rfl

theorem moves_callRelay (opts : ClientOpts) (s : System) :
    s.exchange.Moves opts none (s.callRelay opts).exchange := by
  unfold callRelay
  split
  · exact .stay
  · exact .dial _ _ _ rfl

theorem moves_round (opts : ClientOpts) (s : System) (ev : StreamEvent) :
    s.exchange.Moves opts none (s.round opts ev).exchange := by
  unfold round
  split
  · exact .stay
  · next msg hr =>
    obtain ⟨msg, tag, rfl⟩ : ∃ m tag, msg = .relayResponse m tag := by
      unfold connectRound at hr
      split at hr <;> cases hr
      exact ⟨_, _, rfl⟩
    exact .forward msg tag
  · change s.exchange.Moves opts none s.exchange.startHeartbeat
    unfold Exchange.startHeartbeat
    split_ifs with hs
    · exact .stay
    · exact .heartbeat (by simpa using hs)
  · exact moves_fail opts s _

theorem moves_listen (opts : ClientOpts) (s : System) (ev : StreamEvent)
    (hc : s.phase = .connected) (hq : s.exchange.actorRx = []) :
    s.exchange.Moves opts (s.handles (.response ev)) (s.listen opts ev).exchange := by
  cases ev with
  | eof => exact moves_fail opts s _
  | status error => exact moves_fail opts s _
  | message msg tag =>
    cases msg with
    | none => exact .stay
    | some msg =>
      simp only [handles, hc, Phase.isConnected, if_true, listen, handle]
      split
      · next h => exact .read msg tag hq (handled_of_handleMsg h)
      · next h =>
        rw [fail_exchange]
        exact .readFail msg tag _ hq ⟨_, h⟩ rfl

theorem moves_response {ev : StreamEvent} (h : s.response opts ev = some s') :
    s.exchange.Moves opts (s.handles (.response ev)) s'.exchange := by
  unfold response at h
  split at h
  · cases h
  split at h
  · next hph =>
    have hn : s.handles (.response ev) = none := by
      rcases ev with ⟨_ | msg, tag⟩ | _ | _ <;> simp [handles, hph, Phase.isConnected]
    cases h
    rw [hn]
    exact moves_round opts (s.note ev) ev
  · next hph =>
    split_ifs at h with hq
    cases h
    exact moves_listen opts s ev hph hq
  · cases h

theorem moves_take {msg : Msg} {rest : List Msg} (hq : s.exchange.actorRx = msg :: rest) :
    s.exchange.Moves opts (some msg)
      ({ s with exchange := { s.exchange with actorRx := rest } }.handle opts msg).exchange := by
  unfold handle
  split
  · next h => exact .take msg rest hq (handled_of_handleMsg h)
  · next h =>
    rw [fail_exchange]
    exact .takeFail msg rest _ hq ⟨_, h⟩ rfl

theorem moves_of_step {a : Action} (h : s.step opts a = some s') :
    s.exchange.Moves opts (s.handles a) s'.exchange := by
  cases a with
  | client a =>
    obtain ⟨e, he, h⟩ := Option.bind_eq_some_iff.mp h
    cases h
    exact .called (Exchange.called_of_client he)
  | fire i =>
    obtain ⟨msg, hm, h⟩ := Option.bind_eq_some_iff.mp h
    split_ifs at h
    cases h
    exact .fire i msg hm
  | tonic a =>
    obtain ⟨p, hp, h⟩ := Option.bind_eq_some_iff.mp h
    cases h
    exact .tonic p (Tonic.pushed_of_step hp)
  | setToken token => cases h; exact .stay
  | validate report =>
    simp only [step] at h
    split at h <;> cases h <;> exact .stay
  | dial result =>
    simp only [step] at h
    split at h <;> cases h
    · exact moves_callRelay opts s
    · exact moves_fail opts s _
    · exact moves_fail opts s _
  | relayConnect error =>
    simp only [step] at h
    split at h <;> cases h
    · exact .stay
    · exact moves_fail opts s _
  | timeout =>
    simp only [step] at h
    split_ifs at h
    cases h
    exact moves_fail opts s _
  | response ev => exact moves_response h
  | take =>
    simp only [step] at h
    split at h
    · next msg rest hph hq =>
      cases h
      simp only [handles, hq, List.head?_cons]
      exact moves_take hq
    · cases h
  | wake =>
    simp only [step] at h
    split at h <;> cases h
    exact .stay

/-- Messages reach `handle_msg` in the loop of `main_loop` only. -/
theorem connected_of_handles {a : Action} {msg : Msg} (h : s.step opts a = some s')
    (hm : s.handles a = some msg) : s.phase = .connected := by
  match a with
  | .take =>
    simp only [step] at h
    split at h
    · next hp _ => exact hp
    · cases h
  | .response (.message (some m) tag) =>
    simp only [handles] at hm
    split_ifs at hm with hp
    exact Phase.isConnected_iff.mp hp

end System
end OrbRelay.Client
