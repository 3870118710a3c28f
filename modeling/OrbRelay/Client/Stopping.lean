import OrbRelay.Client.Attempts

/-!
# A requested stop

The actor reads its queue in the loop of `main_loop` only. Before it is connected, a
`Stop` in the queue keeps `run` neither from its next attempt nor from ending with the
error that uses up the budget.
-/
namespace OrbRelay.Client
open Transition

namespace Exchange

variable {opts : ClientOpts} {e e' : Exchange} {l : Option Msg}

/-- A `Stop` is in the queue, with no `Reconnect` before it. -/
def StopQueued (e : Exchange) : Prop :=
  ∃ before after, e.actorRx = before ++ .stop :: after ∧ .reconnect ∉ before

theorem StopQueued.moves (h : e.StopQueued) (hm : e.Moves opts l e') :
    e'.StopQueued ∨ l = some .stop := by
  obtain ⟨before, after, hq, hr⟩ := h
  rcases hm.queue with ⟨more, hmore⟩ | ⟨m, rfl, htake⟩
  · refine .inl ⟨before, after ++ more, ?_, hr⟩
    rw [← hmore, hq, List.append_assoc, List.cons_append]
  · rw [hq] at htake
    cases before with
    | nil => exact .inr (congrArg some (List.cons.inj htake).1.symm)
    | cons x before =>
      refine .inl ⟨before, after, (List.cons.inj htake).2.symm, fun hmem => ?_⟩
      exact hr (List.mem_cons_of_mem x hmem)

end Exchange

namespace System

variable {opts : ClientOpts} {token : String} {s s' t u v : System} {a : Action}
  {tr : List (System × Action)}

/-- The actor task runs and has been asked to stop. -/
def Stopping (s : System) : Prop := s.phase.isEnded = false ∧ s.exchange.StopQueued

/-- Between `u` and `v` the actor has begun no attempt, and if it has ended, its result
is `Ok(())`. -/
structure Obeys (u v : System) : Prop where
  attempt : v.attempt = u.attempt
  result : ∀ result, v.phase = .ended result → result = .ok ()
  alive : v.phase ≠ .panicked

/-- From every state of a run in which the actor has been asked to stop, it obeys. -/
def HonoursStop (opts : ClientOpts) (token : String) (tr : List (System × Action)) : Prop :=
  ∀ tr₁ tr₂ tr₃ u v, tr = tr₁ ++ tr₂ ++ tr₃ → Run (step opts) (initial token) tr₁ u →
    Run (step opts) u tr₂ v → u.Stopping → u.Obeys v

/-- The steps of a stopping actor that do not lead to its stop: it starts its first
attempt or the next one, runs into the `todo!()` for `Auth::Zkp`, or fails with nothing
left of its budget. -/
inductive Ignores (opts : ClientOpts) (s : System) : Action → Prop where
  | start (hs : s.Stopping) (report : Option String) : Ignores opts s (.validate report)
  | wake (hs : s.Stopping) : Ignores opts s .wake
  | zkp (hs : s.Stopping) (hr : connectRequest opts s.token = none) : Ignores opts s (.dial .ok)
  | spent {a : Action} (hs : s.Stopping) (err : Err) (hf : s.failure opts a = some err)
      (hb : opts.maxConnectionAttempts.le s.connAttempts = true) : Ignores opts s a

theorem failure_of_stop (h : s.handles a = some .stop) : s.failure opts a = none := by
  match a with
  | .take =>
    obtain ⟨rest, hq⟩ := List.head?_eq_some_iff.mp h
    simp [failure, hq, handleFailure, handleMsg]
  | .response (.message (some msg) tag) =>
    simp only [handles] at h
    split_ifs at h
    cases h

/-- A stopping actor that does not ignore it goes on with its attempt, or stops. -/
theorem stopping_step (h : s.Stopping) (hg : ¬ Ignores opts s a) (hs : s.step opts a = some s') :
    s'.attempt = s.attempt ∧ (s'.Stopping ∨ s'.phase = .ended (.ok ())) := by
  have hq := h.2.moves (moves_of_step hs)
  cases turn_of_step hs with
  | quiet hf hl hp ha hc => exact ⟨ha, .inl ⟨hp ▸ h.1, hq.resolve_right hl⟩⟩
  | advance hf hp hp' ha hc =>
    have hl : s.handles a ≠ some .stop := by
      intro hl
      rw [connected_of_handles hs hl] at hp
      cases hp
    refine ⟨ha, .inl ⟨?_, hq.resolve_right hl⟩⟩
    rcases hp' with hp' | hp'
    · refine Bool.eq_false_iff.mpr fun hend => ?_
      simp [Phase.not_connecting_of_isEnded hend] at hp'
    · rw [hp']
      rfl
  | enter hf hp =>
    rcases hp with ⟨-, rfl⟩ | ⟨-, rfl⟩
    · exact absurd (.start h none) hg
    · exact absurd (.wake h) hg
  | reject report hp => exact absurd (.start h (some report)) hg
  | panic hp hr => exact absurd (.zkp h hr) hg
  | stop rest hf hp hq hp' ha hc => exact ⟨ha, .inr hp'⟩
  | reconnect rest hf hp hq' hp' ha hc =>
    -- this request would stand before the `Stop`
    obtain ⟨before, after, hb, hr⟩ := h.2
    rw [hq'] at hb
    cases before with
    | nil => cases hb
    | cons x before => exact absurd (by rw [← (List.cons.inj hb).1]; simp) hr
  | fail err hf hp ha hc =>
    have hl : s.handles a ≠ some .stop := by
      intro hl
      rw [failure_of_stop hl] at hf
      cases hf
    cases hc with
    | last hb hp' hc' => exact absurd (.spent h err hf hb) hg
    | one hb hp' hc' => exact ⟨ha, .inl ⟨by rw [hp']; rfl, hq.resolve_right hl⟩⟩

theorem Ignores.not_obeys (h : Ignores opts s a) (hs : s.step opts a = some s') :
    ¬ s.Obeys s' := by
  intro ho
  cases h with
  | start h report =>
    simp only [step] at hs
    split at hs
    · cases hs
      exact absurd ho.attempt (Nat.succ_ne_self _)
    · cases hs
      cases ho.result _ rfl
    · cases hs
  | wake h =>
    simp only [step] at hs
    split at hs
    · cases hs
      exact absurd ho.attempt (Nat.succ_ne_self _)
    · cases hs
  | zkp h hr =>
    simp only [step] at hs
    split at hs
    · cases hs
      exact ho.alive (by rw [callRelay, hr])
    · next heq => cases heq
    · next heq => cases heq
    · cases hs
  | spent h err hf hb =>
    cases turn_of_step hs with
    | quiet hf' hl hp ha hc => cases hf'.symm.trans hf
    | advance hf' hp hp' ha hc => cases hf'.symm.trans hf
    | enter hf' hp => cases hf'.symm.trans hf
    | reject report hp => cases hf
    | panic hp hr => cases hf
    | stop rest hf' hp hq hp' ha hc => cases hf'.symm.trans hf
    | reconnect rest hf' hp hq hp' ha hc => cases hf'.symm.trans hf
    | fail err' hf' hp ha hc =>
      cases hc with
      | last hb' hp' hc' => cases ho.result _ hp'
      | one hb' hp' hc' => simp [hb] at hb'

theorem obeys_of_run (h : Run (step opts) u tr v) (hu : u.Stopping)
    (hg : ∀ x ∈ tr, ¬ Ignores opts x.1 x.2) : u.Obeys v := by
  have hv := h.guarded (P := fun w => w.attempt = u.attempt ∧
      (w.Stopping ∨ w.phase = .ended (.ok ()))) hg ⟨rfl, .inl hu⟩ (by
    rintro s s' a - ⟨ha, hs | hp⟩ hg hstep
    · obtain ⟨ha', hs'⟩ := stopping_step hs hg hstep
      exact ⟨ha'.trans ha, hs'⟩
    · obtain ⟨-, hp', ha'⟩ := quiet_of_ended hstep (by rw [hp]; rfl)
      exact ⟨ha'.trans ha, .inr (hp'.trans hp)⟩)
  obtain ⟨ha, ⟨hend, -⟩ | hp⟩ := hv
  · refine ⟨ha, fun result hp => ?_, fun hp => ?_⟩ <;> simp [hp, Phase.isEnded] at hend
  · refine ⟨ha, fun result hp' => ?_, fun hp' => by simp [hp'] at hp⟩
    cases hp.symm.trans hp'
    rfl

/-- In a run, a stop is honoured from every state exactly if no step of a stopping actor
ignores it. -/
theorem honoursStop_iff (h : Run (step opts) (initial token) tr t) :
    HonoursStop opts token tr ↔ ∀ x ∈ tr, ¬ Ignores opts x.1 x.2 := by
  constructor
  · rintro hall ⟨s, a⟩ hx hg
    obtain ⟨tr₁, tr₃, rfl⟩ := List.append_of_mem hx
    obtain ⟨hbefore, v, hs, -⟩ := h.around
    have hstop : s.Stopping := by cases hg <;> assumption
    have hobeys := hall tr₁ [(s, a)] tr₃ s v (by simp) hbefore (Run.nil.snoc hs) hstop
    exact hg.not_obeys hs hobeys
  · rintro hg tr₁ tr₂ tr₃ u v rfl - hrun hu
    exact obeys_of_run hrun hu fun x hx => hg x (by simp [hx])

/-- A connected client is stopped. -/
def stopConnected : List Action := .validate none :: establish ++ [.client .stop, .take]

theorem stopConnected_honoured :
    ∃ tr t, Run (step twoAttempts) (initial "") tr t ∧ t.phase.isEnded = true ∧
      (HonoursStop twoAttempts "" tr ↔ ∀ x ∈ tr, ¬ Ignores twoAttempts x.1 x.2) := by
  have he : ((exec (step twoAttempts) (initial "") stopConnected).map fun s =>
      s.phase.isEnded) = some true := by decide
  obtain ⟨tr, t, h, hend⟩ := Run.of_exec_map he
  exact ⟨tr, t, h, hend, honoursStop_iff h⟩

/-- A client is stopped while it dials, and the relay cannot be reached. -/
def stopUnreachable : List Action :=
  [.validate none, .client .stop, .dial (.transport "refused")]

/-- After its backoff the actor begins a second attempt. -/
theorem stopUnreachable_dials_again :
    ∃ tr t, Run (step twoAttempts) (initial "") tr t ∧ t.attempt = 2 ∧
      ¬ HonoursStop twoAttempts "" tr := by
  have he : ((exec (step twoAttempts) (initial "") stopUnreachable).map fun s =>
      (s.phase.isEnded, s.exchange.actorRx, s.attempt,
        (s.step twoAttempts .wake).map System.attempt)) =
          some (false, [.stop], 1, some 2) := by decide
  obtain ⟨tr, s, h, hp⟩ := Run.of_exec_map he
  simp only [Prod.mk.injEq] at hp
  obtain ⟨hend, hq, ha, hwake⟩ := hp
  obtain ⟨t, hs, ht⟩ := Option.map_eq_some_iff.mp hwake
  refine ⟨_, t, h.snoc hs, ht, fun hall => ?_⟩
  have hstop : s.Stopping := ⟨hend, [], [], hq, by simp⟩
  have hobeys := hall tr [(s, .wake)] [] s t (by simp) h (Run.nil.snoc hs) hstop
  have := hobeys.attempt
  omega

end System
end OrbRelay.Client
