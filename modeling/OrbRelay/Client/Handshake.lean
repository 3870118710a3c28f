import OrbRelay.Client.Link

/-!
# The actor works on an accepted connection

`connect` leaves its loop with `Ok` on an accepting response, and also when the
stream ends. The second way out is the only one on which the actor works on a
connection that the relay has not accepted.
-/
namespace OrbRelay.Client
open Transition

/-! ## The loop of `connect` -/

/-- `connect` returns `Ok` only after it has read an accepting response. -/
def AcceptedOnly (evs : List StreamEvent) : Prop :=
  ∀ rest fwd, connectLoop evs = (some (.ok (), rest), fwd) →
    ∃ read, evs = read ++ rest ∧ ∃ ev ∈ read, ev.accepts = true

/-- The loop reads up to the first decisive event, which decides its result. -/
theorem connectLoop_some {evs rest : List StreamEvent} {result : Except Err Unit}
    {fwd : List Msg} (h : connectLoop evs = (some (result, rest), fwd)) :
    ∃ skipped ev, evs = skipped ++ ev :: rest ∧ connectRound ev = .done result ∧
      evs.find? StreamEvent.decisive = some ev ∧ ∀ x ∈ skipped, x.accepts = false := by
  induction evs generalizing fwd with
  | nil => cases h
  | cons ev evs ih =>
    cases hr : connectRound ev with
    | next forward =>
      obtain ⟨hd, ha⟩ := connectRound_next hr
      simp only [connectLoop, hr, Prod.mk.injEq] at h
      have hl : connectLoop evs = (some (result, rest), (connectLoop evs).2) := Prod.ext h.1 rfl
      obtain ⟨skipped, ev', rfl, hev', hf, hs⟩ := ih hl
      refine ⟨ev :: skipped, ev', rfl, hev', ?_, ?_⟩
      · rw [List.find?_cons_of_neg (by simp [hd]), hf]
      · intro x hx
        rcases List.mem_cons.mp hx with rfl | hx
        · exact ha
        · exact hs x hx
    | done r =>
      simp only [connectLoop, hr, Prod.mk.injEq, Option.some.injEq] at h
      obtain ⟨⟨rfl, rfl⟩, -⟩ := h
      exact ⟨[], ev, rfl, hr, List.find?_cons_of_pos (connectRound_done hr).1, by simp⟩

theorem connectLoop_of_find {evs : List StreamEvent} {ev : StreamEvent}
    (h : evs.find? StreamEvent.decisive = some ev) :
    ∃ result rest fwd, connectRound ev = .done result ∧
      connectLoop evs = (some (result, rest), fwd) := by
  induction evs with
  | nil => cases h
  | cons x evs ih =>
    cases hr : connectRound x with
    | next forward =>
      rw [List.find?_cons_of_neg (by simp [(connectRound_next hr).1])] at h
      obtain ⟨result, rest, fwd, hev, hl⟩ := ih h
      exact ⟨result, rest, forward.toList ++ fwd, hev, by simp [connectLoop, hr, hl]⟩
    | done result =>
      rw [List.find?_cons_of_pos (connectRound_done hr).1] at h
      obtain rfl := Option.some.inj h
      exact ⟨result, evs, [], hr, by simp [connectLoop, hr]⟩

theorem acceptedOnly_iff (evs : List StreamEvent) :
    AcceptedOnly evs ↔ evs.find? StreamEvent.decisive ≠ some .eof := by
  constructor
  · intro h hf
    obtain ⟨result, rest, fwd, hev, hl⟩ := connectLoop_of_find hf
    cases hev
    obtain ⟨read, hread, ev, hmem, hacc⟩ := h rest fwd hl
    obtain ⟨skipped, ev', hevs, -, hf', hs⟩ := connectLoop_some hl
    obtain rfl : ev' = .eof := Option.some.inj (hf'.symm.trans hf)
    obtain rfl : read = skipped ++ [.eof] := by
      rw [hread] at hevs
      have happ : read ++ rest = skipped ++ [.eof] ++ rest := by simpa using hevs
      exact List.append_cancel_right happ
    rcases List.mem_append.mp hmem with hmem | hmem
    · simp [hs ev hmem] at hacc
    · obtain rfl : ev = .eof := by simpa using hmem
      cases hacc
  · intro hf rest fwd hl
    obtain ⟨skipped, ev, hevs, hev, hf', -⟩ := connectLoop_some hl
    refine ⟨skipped ++ [ev], by simpa using hevs, ev, by simp, ?_⟩
    rcases (connectRound_done hev).2.mp rfl with ha | rfl
    · exact ha
    · exact absurd hf' hf

/-- In a client, the loop of `connect` is a run of `response` steps. -/
theorem exec_of_connectLoop {opts : ClientOpts} {s : System} {evs rest : List StreamEvent}
    {fwd : List Msg} (h : connectLoop evs = (some (.ok (), rest), fwd))
    (hp : s.phase = .handshake) (he : s.streamEnded = false) :
    ∃ read s', evs = read ++ rest ∧
      exec (System.step opts) s (read.map .response) = some s' ∧ s'.phase = .connected ∧
      s'.exchange.actorRx = s.exchange.actorRx ++ fwd := by
  induction evs generalizing s fwd with
  | nil => cases h
  | cons ev evs ih =>
    have hstep : s.step opts (.response ev) = some ((s.note ev).round opts ev) := by
      simp [System.step, System.response, hp, he]
    cases hr : connectRound ev with
    | next forward =>
      simp only [connectLoop, hr, Prod.mk.injEq] at h
      obtain ⟨hl, rfl⟩ := h
      have hloop : connectLoop evs = (some (.ok (), rest), (connectLoop evs).2) := Prod.ext hl rfl
      have hev : ev ≠ .eof := by
        rintro rfl
        cases hr
      obtain ⟨read, s', rfl, hx, hs'⟩ := ih (s := (s.note ev).round opts ev) hloop
        (by cases forward <;> simp [System.round, hr, System.note, hp])
        (by cases forward <;> simp [System.round, hr, System.note, hev])
      refine ⟨ev :: read, s', rfl, by simpa [exec, hstep] using hx, hs'.1, ?_⟩
      rw [hs'.2]
      cases forward <;> simp [System.round, hr, System.note, Exchange.post]
    | done result =>
      simp only [connectLoop, hr, Prod.mk.injEq, Option.some.injEq] at h
      obtain ⟨⟨rfl, rfl⟩, rfl⟩ := h
      refine ⟨[ev], (s.note ev).round opts ev, rfl, by simp [exec, hstep], ?_, ?_⟩
      · simp [System.round, hr, System.mainLoop]
      · simp [System.round, hr, System.mainLoop, System.note]

/-! ## Runs of the client -/

namespace System

variable {opts : ClientOpts} {token : String} {s s' t : System} {tr : List (System × Action)}

/-- Attempts are accepted once they have been made, and the current one not while it
is inside `connect`. -/
structure Opening (s : System) : Prop where
  bound : ∀ n ∈ s.accepted, n ≤ s.attempt
  fresh : s.phase.connecting = true → s.attempt ∉ s.accepted

theorem opening_step {a : Action} (h : s.Opening) (hs : s.step opts a = some s') :
    s'.Opening := by
  have hnext : s.attempt + 1 ∉ s.accepted := fun hm => absurd (h.bound _ hm) (by omega)
  have hbound : ∀ n ∈ s.accepted, n ≤ s.attempt + 1 := fun n hn =>
    (h.bound n hn).trans (by omega)
  cases link_of_step hs with
  | quiet hk ht => exact ⟨hk.accepted ▸ hk.attempt ▸ h.bound,
      hk.accepted ▸ hk.attempt ▸ hk.phase ▸ h.fresh⟩
  | push f hk ht hf => exact ⟨hk.accepted ▸ hk.attempt ▸ h.bound,
      hk.accepted ▸ hk.attempt ▸ hk.phase ▸ h.fresh⟩
  | tonic p hm => exact ⟨h.bound, h.fresh⟩
  | enter hp => exact ⟨hbound, fun _ => hnext⟩
  | halt p hp => exact ⟨h.bound, fun hc => by simp [Phase.not_connecting_of_isEnded hp] at hc⟩
  | fail hp ha hc hh ht =>
    rcases ha with ⟨hd, ha⟩ | ⟨hd, ha⟩
    · exact ⟨by rw [hc, ha]; exact hbound, fun _ => by rw [hc, ha]; exact hnext⟩
    · refine ⟨by rw [hc, ha]; exact h.bound, fun hcon => ?_⟩
      rcases hd with hd | hd
      · simp [Phase.not_connecting_of_isEnded hd] at hcon
      · simp [hd, Phase.connecting] at hcon
  | dial request hp hr => exact ⟨h.bound, fun _ => h.fresh (by rw [hp]; rfl)⟩
  | call hp => exact ⟨h.bound, fun _ => h.fresh (by rw [hp]; rfl)⟩
  | accept hp he hp' ha hc ht =>
    refine ⟨?_, fun hcon => by simp [hp', Phase.connecting] at hcon⟩
    rw [hc, ha]
    simpa using h.bound
  | eof hp hp' ha hc ht =>
    exact ⟨by rw [hc, ha]; exact h.bound, fun hcon => by simp [hp', Phase.connecting] at hcon⟩

theorem opening_of_reachable (h : Reachable (step opts) (initial token) s) : s.Opening :=
  h.invariant ⟨by simp [initial], by simp [initial]⟩ fun _ _ _ _ hp hs => opening_step hp hs

/-- The actor is in its loop, or has started the heartbeat, only with a connection
that the relay has accepted. -/
structure Established (s : System) : Prop where
  working : s.phase = .connected → s.attempt ∈ s.accepted
  heartbeat : s.exchange.state.heartbeatStarted = true → s.accepted ≠ []

/-- The stream ends while `connect` still reads it. -/
def eofInConnect (s : System) (a : Action) : Prop :=
  s.phase = .handshake ∧ a = .response .eof

theorem established_initial (token : String) : (initial token).Established := by
  constructor <;> simp [initial, Exchange.initial, State.default]

theorem established_step {a : Action} (h : s.Established) (hg : ¬ s.eofInConnect a)
    (hs : s.step opts a = some s') : s'.Established := by
  cases link_of_step hs with
  | quiet hk ht => exact ⟨hk.accepted ▸ hk.attempt ▸ hk.phase ▸ h.working,
      hk.accepted ▸ hk.heartbeat ▸ h.heartbeat⟩
  | push f hk ht hf => exact ⟨hk.accepted ▸ hk.attempt ▸ hk.phase ▸ h.working,
      hk.accepted ▸ hk.heartbeat ▸ h.heartbeat⟩
  | tonic p hm => exact ⟨h.working, h.heartbeat⟩
  | enter hp => exact ⟨fun hc => (by cases hc), h.heartbeat⟩
  | halt p hp => exact ⟨fun hc => absurd hc (Phase.ne_connected_of_isEnded hp), h.heartbeat⟩
  | fail hp ha hc hh ht =>
    refine ⟨fun hcon => ?_, by rw [hc, hh]; exact h.heartbeat⟩
    rcases ha with ⟨hd, -⟩ | ⟨hd | hd, -⟩ <;> simp [hcon, Phase.isEnded] at hd
  | dial request hp hr => exact ⟨fun hc => (by cases hc), h.heartbeat⟩
  | call hp => exact ⟨fun hc => (by cases hc), h.heartbeat⟩
  | accept hp he hp' ha hc ht =>
    exact ⟨fun _ => by simp [hc, ha], fun _ => by simp [hc]⟩
  | eof hp hp' ha hc ht => exact absurd ⟨hp, rfl⟩ hg

/-- Only a `take` in `main_loop` removes anything from the actor's queue. -/
theorem queue_of_step {a : Action} (hs : s.step opts a = some s') :
    s.phase = .connected ∨ s.exchange.actorRx <+: s'.exchange.actorRx := by
  rcases (moves_of_step hs).queue with hq | ⟨m, hl, -⟩
  · exact .inr hq
  · exact .inl (connected_of_handles hs hl)

/-- Wherever a run leads, the actor is established, and as long as the relay has not
accepted the current attempt, everything in the actor's queue stays there. -/
structure WorksAccepted (opts : ClientOpts) (tr : List (System × Action)) (t : System) :
    Prop where
  established : ∀ u ∈ visited tr t, u.Established
  queued : ∀ x ∈ tr, ∀ v, x.1.step opts x.2 = some v → x.1.attempt ∉ x.1.accepted →
    x.1.exchange.actorRx <+: v.exchange.actorRx

theorem worksAccepted_iff (h : Run (step opts) (initial token) tr t) :
    WorksAccepted opts tr t ↔ ∀ x ∈ tr, ¬ x.1.eofInConnect x.2 := by
  constructor
  · rintro ⟨hest, -⟩ ⟨s, a⟩ hx ⟨hp, ha⟩
    dsimp only at hp ha
    obtain ⟨hr, v, hv, hs⟩ := h.step_of_mem hx
    have hfresh := (opening_of_reachable hr).fresh (by rw [hp]; rfl)
    subst ha
    simp only [step, response, hp, not_true_eq_false, ne_eq, and_false, if_false,
      Option.some.injEq] at hs
    subst hs
    exact hfresh ((hest _ hv).working rfl)
  · intro hg
    have hest : ∀ u ∈ visited tr t, u.Established := fun u hu =>
      h.guarded_visited hg (established_initial token)
        (fun _ _ _ _ hp hg hs => established_step hp hg hs) hu
    refine ⟨hest, fun x hx v hs hacc => ?_⟩
    rcases queue_of_step hs with hp | hq
    · have hu : x.1 ∈ visited tr t := List.mem_append_left _ (List.mem_map_of_mem hx)
      exact absurd ((hest _ hu).working hp) hacc
    · exact hq

/-- `connect` accepts a stream without having read an accepting response exactly when
the stream ends before it says anything decisive; the actor works on a connection
that was not accepted exactly in the runs in which a stream ends inside `connect`. -/
theorem accepted_iff_no_eof (evs : List StreamEvent)
    (h : Run (step opts) (initial token) tr t) :
    (AcceptedOnly evs ↔ evs.find? StreamEvent.decisive ≠ some .eof) ∧
      (WorksAccepted opts tr t ↔ ∀ x ∈ tr, ¬ x.1.eofInConnect x.2) :=
  ⟨acceptedOnly_iff evs, worksAccepted_iff h⟩

def accepting : StreamEvent := .message (some (.connectResponse "app" true "")) ⟨"", 0⟩

/-- The handshake of a first attempt that the relay accepts. -/
def acceptedRun : List Action :=
  [.validate none, .dial .ok, .relayConnect none, .response accepting]

theorem acceptedRun_works :
    ∃ tr t, Run (step (.build .app "app" "ns" (.token "t"))) (initial "") tr t ∧
      t.phase.isConnected = true ∧
      ((AcceptedOnly [accepting] ↔ [accepting].find? StreamEvent.decisive ≠ some .eof) ∧
        (WorksAccepted (.build .app "app" "ns" (.token "t")) tr t ↔
          ∀ x ∈ tr, ¬ x.1.eofInConnect x.2)) := by
  have he : ((exec (step (.build .app "app" "ns" (.token "t"))) (initial "") acceptedRun).map
      fun s => s.phase.isConnected) = some true := by decide
  obtain ⟨tr, t, h, hc⟩ := Run.of_exec_map he
  exact ⟨tr, t, h, hc, accepted_iff_no_eof [accepting] h⟩

/-- A message is sent, and the relay ends the response stream at once. -/
def lostSend : List Action :=
  [.client (.send ⟨.orb, [1], "orb", "ns", .atMostOnce⟩), .client (.poll 0), .validate none,
    .dial .ok, .relayConnect none, .response .eof, .take]

theorem lostSend_not_accepted :
    ¬ AcceptedOnly [.eof] ∧
      ∃ tr t, Run (step (.build .app "app" "ns" (.token "t"))) (initial "") tr t ∧
        ¬ WorksAccepted (.build .app "app" "ns" (.token "t")) tr t := by
  constructor
  · rw [acceptedOnly_iff]
    decide
  · have he : ((exec (step (.build .app "app" "ns" (.token "t"))) (initial "") lostSend).map
        fun s => (s.phase.isConnected, s.accepted)) = some (true, []) := by decide
    obtain ⟨tr, t, h, hc⟩ := Run.of_exec_map he
    obtain ⟨hcon, hacc⟩ := Prod.mk.inj hc
    refine ⟨tr, t, h, fun hw => ?_⟩
    have := (hw.established t (by simp [visited])).working (Phase.isConnected_iff.mp hcon)
    simp [hacc] at this

end System
end OrbRelay.Client
