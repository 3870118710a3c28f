import OrbRelay.Client.Books
import OrbRelay.Client.Stopping

/-!
# The end of the actor

There are few ways for the actor task to end. When it does, its end of `actor_tx` goes,
but not what is queued there. A message that registers a waiter keeps the sending end of
its call's channel alive, so a call whose registration was left in the queue waits for
ever. All other calls return.
-/
namespace OrbRelay.Client
open Transition

namespace Exchange

variable {opts : ClientOpts} {e e' : Exchange} {o j : OpId} {op : Op}

/-- The call was not given an outcome, and its registration is still queued. -/
def Stranded (e : Exchange) (o : OpId) (call : Call) : Prop :=
  e.outcome o call = none ∧ ∃ m ∈ e.actorRx, call.waiter o = some (.ok m)

/-- What nobody changes after the end. -/
structure Frozen (e e' : Exchange) : Prop where
  queue : e'.actorRx = e.actorRx
  acked : e'.acked = e.acked
  answered : e'.answered = e.answered

theorem Frozen.refl (e : Exchange) : e.Frozen e := ⟨rfl, rfl, rfl⟩

theorem Frozen.trans {e'' : Exchange} (h : e.Frozen e') (h' : e'.Frozen e'') : e.Frozen e'' :=
  ⟨h'.queue.trans h.queue, h'.acked.trans h.acked, h'.answered.trans h.answered⟩

theorem Frozen.outcome (h : e.Frozen e') (o : OpId) (call : Call) :
    e'.outcome o call = e.outcome o call := by
  cases call <;> simp only [Exchange.outcome, h.acked, h.answered]

theorem Frozen.stranded (h : e.Frozen e') {call : Call} (hs : e.Stranded o call) :
    e'.Stranded o call := by
  refine ⟨(h.outcome o call).trans hs.1, ?_⟩
  rw [h.queue]
  exact hs.2

/-- After the end only queued registrations keep a channel open. -/
theorem senderAlive_ended (e : Exchange) (o : OpId) (call : Call) :
    e.senderAlive true o call = true ↔ ∃ m ∈ e.actorRx, call.waiter o = some (.ok m) := by
  cases call with
  | ask msg seq => simp [senderAlive, Call.waiter]
  | send msg seq => simp [senderAlive]
  | reply on payload qos => simp [senderAlive]

/-- What a step of the callers does to the calls after the end: one is opened, one at its
`await` is dropped, or one that is not stranded returns. -/
inductive Closing (e : Exchange) : List Op → Prop where
  | same : Closing e e.ops
  | open_ (call : Call) : Closing e (e.ops ++ [⟨call, .enqueue⟩])
  | drop (o : OpId) (op : Op) (ho : e.ops[o]? = some op) (hpc : op.pc = .wait) :
      Closing e (e.setPc o op .dropped).ops
  | return_ (o : OpId) (op : Op) (result : Except Err (Option Encoding.Bytes))
      (ho : e.ops[o]? = some op) (hf : op.finished = false)
      (hs : ¬ (op.pc = .wait ∧ e.Stranded o op.call)) :
      Closing e (e.setPc o op (.returned result)).ops

theorem closing_of_poll (ho : e.ops[o]? = some op) (h : e.poll opts true o op = some e') :
    e.Frozen e' ∧ Closing e e'.ops := by
  have hreturn (result : Except Err (Option Encoding.Bytes)) (hf : op.finished = false)
      (hs : ¬ (op.pc = .wait ∧ e.Stranded o op.call)) :
      e.Frozen (e.setPc o op (.returned result)) ∧
        Closing e (e.setPc o op (.returned result)).ops :=
    ⟨⟨rfl, rfl, rfl⟩, .return_ o op result ho hf hs⟩
  unfold poll at h
  split at h
  · next hpc =>
    cases h
    exact hreturn _ (by simp [Op.finished, hpc]) (by simp [hpc])
  · next hpc =>
    split at h
    · cases h
    · cases h
      exact hreturn _ (by simp [Op.finished, hpc]) (by simp [hpc])
    · cases h
      exact hreturn _ (by simp [Op.finished, hpc]) (by simp [hpc])
  · next hpc =>
    split at h
    · next result hr =>
      cases h
      exact hreturn _ (by simp [Op.finished, hpc]) fun hs => by simp [hs.2.1] at hr
    · split_ifs at h with ha
      cases h
      refine hreturn _ (by simp [Op.finished, hpc]) fun hs => ha ?_
      exact (senderAlive_ended e o op.call).mpr hs.2.2
  · cases h
  · cases h

theorem closing_of_client {a : ClientAction} (h : e.client opts true a = some e') :
    e.Frozen e' ∧ Closing e e'.ops := by
  cases a with
  | send msg =>
    simp only [client] at h
    split_ifs at h
    cases h
    exact ⟨⟨rfl, rfl, rfl⟩, .open_ _⟩
  | ask msg =>
    simp only [client] at h
    split_ifs at h
    cases h
    exact ⟨⟨rfl, rfl, rfl⟩, .open_ _⟩
  | reply i payload qos =>
    obtain ⟨on, -, h⟩ := Option.bind_eq_some_iff.mp h
    split_ifs at h
    cases h
    exact ⟨⟨rfl, rfl, rfl⟩, .open_ _⟩
  | poll o =>
    obtain ⟨op, ho, h⟩ := Option.bind_eq_some_iff.mp h
    exact closing_of_poll ho h
  | drop o =>
    obtain ⟨op, ho, h⟩ := Option.bind_eq_some_iff.mp h
    split at h
    · next hpc =>
      cases h
      exact ⟨⟨rfl, rfl, rfl⟩, .drop o op ho hpc⟩
    · cases h
  | recv =>
    simp only [client] at h
    split at h
    · cases h
    · split_ifs at h
      cases h
      exact ⟨⟨rfl, rfl, rfl⟩, .same⟩
  | stop => simp [client] at h
  | reconnect => simp [client] at h
  | release =>
    simp only [client] at h
    split_ifs at h
    cases h
    exact ⟨⟨rfl, rfl, rfl⟩, .same⟩

/-- A stranded call stays at its `await`, or is dropped there. -/
theorem Closing.stranded {ops : List Op} {call : Call} (h : Closing e ops)
    (hs : e.Stranded o call)
    (ho : e.ops[o]? = some ⟨call, .wait⟩ ∨ e.ops[o]? = some ⟨call, .dropped⟩) :
    ops[o]? = some ⟨call, .wait⟩ ∨ ops[o]? = some ⟨call, .dropped⟩ := by
  cases h with
  | same => exact ho
  | open_ call' =>
    have hlt : o < e.ops.length := by
      rcases ho with ho | ho <;> exact (List.getElem?_eq_some_iff.mp ho).1
    rwa [List.getElem?_append_left hlt]
  | drop j op hj hpc =>
    rw [setPc_get hj]
    split_ifs with hjo
    · subst hjo
      rcases ho with ho | ho <;> cases Option.some.inj (hj.symm.trans ho)
      · exact .inr rfl
      · cases hpc
    · exact ho
  | return_ j op result hj hf hns =>
    rw [setPc_get hj]
    split_ifs with hjo
    · subst hjo
      rcases ho with ho | ho <;> cases Option.some.inj (hj.symm.trans ho)
      · exact absurd ⟨rfl, hs⟩ hns
      · cases hf
    · exact ho

end Exchange

namespace System

variable {opts : ClientOpts} {token : String} {s s' t : System} {a : Action} {o : OpId} {op : Op}

/-! ## How the actor ends -/

/-- What has come of the actor task: it runs; it was stopped, and the `Stop` is the last
message that it has handled; its endpoint was refused before any attempt; an attempt
failed with nothing left of the budget; or it ran into the `todo!()` for `Auth::Zkp`. -/
inductive Ending (opts : ClientOpts) (s : System) : Prop where
  | running (hp : s.phase.isEnded = false) (hh : .stop ∉ s.exchange.handled)
      (ha : s.phase = .starting → s.attempt = 0)
  | stopped (before : List Msg) (hp : s.phase = .ended (.ok ()))
      (hh : s.exchange.handled = before ++ [.stop]) (hb : .stop ∉ before)
  | rejected (report : String) (hp : s.phase = .ended (.error (.other report)))
      (hh : .stop ∉ s.exchange.handled) (ha : s.attempt = 0)
  | spent (err : Err) (hp : s.phase = .ended (.error err)) (hh : .stop ∉ s.exchange.handled)
      (hb : opts.maxConnectionAttempts.le s.connAttempts = true)
  | panicked (hp : s.phase = .panicked) (hh : .stop ∉ s.exchange.handled) (hz : opts.auth = .zkp)

theorem kept_of_ended (hs : s.step opts a = some s') (hp : s.phase.isEnded = true) :
    s'.phase = s.phase ∧ s'.attempt = s.attempt ∧ s'.connAttempts = s.connAttempts ∧
      s'.exchange.handled = s.exchange.handled := by
  have hl : s.handles a = none := by
    by_contra h
    obtain ⟨msg, hmsg⟩ := Option.ne_none_iff_exists'.mp h
    exact Phase.ne_connected_of_isEnded hp (connected_of_handles hs hmsg)
  have hh := (moves_of_step hs).handled
  rw [hl, Option.toList_none, List.append_nil] at hh
  obtain ⟨-, hphase, hattempt⟩ := quiet_of_ended hs hp
  refine ⟨hphase, hattempt, ?_, hh⟩
  cases turn_of_step hs with
  | quiet _ _ _ _ hc => exact hc
  | advance _ _ _ _ hc => exact hc
  | stop _ _ _ _ _ _ hc => exact hc
  | reconnect _ _ _ _ _ _ hc => exact hc
  | fail err _ hp' _ _ =>
    rcases hp' with hp' | hp'
    · simp [Phase.not_connecting_of_isEnded hp] at hp'
    · exact absurd hp' (Phase.ne_connected_of_isEnded hp)
  | _ => rfl

theorem zkp_of_connectRequest {token : String} (h : connectRequest opts token = none) :
    opts.auth = .zkp := by
  unfold connectRequest at h
  split at h
  · cases h
  · cases h
  · assumption

/-- A running actor goes on, or comes to one of its ends. -/
theorem ending_of_running (hs : s.step opts a = some s') (hp : s.phase.isEnded = false)
    (hh : .stop ∉ s.exchange.handled) (ha : s.phase = .starting → s.attempt = 0) :
    s'.Ending opts := by
  have hhandled := (moves_of_step hs).handled
  have hkeep (hl : s.handles a ≠ some .stop) : .stop ∉ s'.exchange.handled := by
    rw [hhandled, List.mem_append, Option.mem_toList]
    exact fun h => h.elim hh hl
  have hfails {err : Err} (hf : s.failure opts a = some err) : s.handles a ≠ some .stop := by
    intro hl
    rw [failure_of_stop hl] at hf
    cases hf
  cases turn_of_step hs with
  | quiet hf hl hp' ha' hc =>
    exact .running (hp' ▸ hp) (hkeep hl) fun h => ha'.trans (ha (hp'.symm.trans h))
  | advance hf hp₀ hp' ha' hc =>
    have hl : s.handles a ≠ some .stop := by
      intro hl
      rw [connected_of_handles hs hl] at hp₀
      cases hp₀
    refine .running ?_ (hkeep hl) fun h => ?_
    · rcases hp' with hp' | hp'
      · exact Bool.eq_false_iff.mpr fun hend => by
          simp [Phase.not_connecting_of_isEnded hend] at hp'
      · rw [hp']
        rfl
    · rcases hp' with hp' | hp' <;> rw [h] at hp' <;> cases hp'
  | enter hf hp' => exact .running rfl hh fun h => by cases h
  | reject report hp' => exact .rejected report rfl hh (ha hp')
  | panic hp' hr => exact .panicked rfl hh (zkp_of_connectRequest hr)
  | stop rest hf hp' hq hp'' ha' hc =>
    refine .stopped s.exchange.handled hp'' ?_ hh
    rw [hhandled, handles, hq]
    rfl
  | reconnect rest hf hp' hq hp'' ha' hc =>
    refine .running (by rw [hp'']; rfl) (hkeep ?_) fun h => by simp [hp''] at h
    rw [handles, hq]
    simp
  | fail err hf hp' ha' hc =>
    cases hc with
    | last hb hp'' hc' => exact .spent err hp'' (hkeep (hfails hf)) (hc' ▸ hb)
    | one hb hp'' hc' =>
      exact .running (by rw [hp'']; rfl) (hkeep (hfails hf)) fun h => by simp [hp''] at h

/-- In every run the actor ends in one of these ways only, and stays so. With
`Amount::Infinite` attempts, an endpoint that is accepted and an implemented `Auth` this
leaves the `Stop`: nothing else ends it, be it that no client is left. -/
theorem ending_of_reachable (h : Reachable (step opts) (initial token) s) : s.Ending opts := by
  refine h.invariant (P := Ending opts) ?_ fun u v a hr hu hs => ?_
  · exact .running rfl (by simp [initial, Exchange.initial]) fun _ => rfl
  have hkept (hp : u.phase.isEnded = true) := kept_of_ended hs hp
  cases hu with
  | running hp hh ha => exact ending_of_running hs hp hh ha
  | stopped before hp hh hb =>
    obtain ⟨hp', -, -, hh'⟩ := hkept (by rw [hp]; rfl)
    exact .stopped before (hp'.trans hp) (hh'.trans hh) hb
  | rejected report hp hh ha =>
    obtain ⟨hp', ha', -, hh'⟩ := hkept (by rw [hp]; rfl)
    exact .rejected report (hp'.trans hp) (hh'.symm ▸ hh) (ha'.trans ha)
  | spent err hp hh hb =>
    obtain ⟨hp', -, hc', hh'⟩ := hkept (by rw [hp]; rfl)
    exact .spent err (hp'.trans hp) (hh'.symm ▸ hh) (hc'.symm ▸ hb)
  | panicked hp hh hz =>
    obtain ⟨hp', -, -, hh'⟩ := hkept (by rw [hp]; rfl)
    exact .panicked (hp'.trans hp) (hh'.symm ▸ hh) hz

theorem stopConnected_ending :
    ∃ s, Reachable (step twoAttempts) (initial "") s ∧ s.phase.isEnded = true ∧
      s.exchange.handled = [.stop] ∧ s.Ending twoAttempts := by
  have he : ((exec (step twoAttempts) (initial "") stopConnected).map fun s =>
      (s.phase.isEnded, s.exchange.handled)) = some (true, [.stop]) := by decide
  obtain ⟨tr, s, h, hp⟩ := Run.of_exec_map he
  obtain ⟨hend, hh⟩ := Prod.mk.inj hp
  exact ⟨s, ⟨tr, h⟩, hend, hh, ending_of_reachable ⟨tr, h⟩⟩

/-! ## Calls after the end -/

/-- After the end only the callers, the forwarders and the transports move. -/
theorem frozen_of_step (hs : s.step opts a = some s') (hp : s.phase.isEnded = true) :
    s'.phase = s.phase ∧ s.exchange.Frozen s'.exchange ∧
      s.exchange.Closing s'.exchange.ops := by
  refine ⟨(quiet_of_ended hs hp).2.1, ?_⟩
  have hne : ∀ p, s.phase = p → p.isEnded = true := fun p h => h ▸ hp
  cases a with
  | client a =>
    obtain ⟨e, he, heq⟩ := Option.bind_eq_some_iff.mp hs
    cases heq
    rw [hp] at he
    exact Exchange.closing_of_client he
  | fire i =>
    obtain ⟨msg, -, heq⟩ := Option.bind_eq_some_iff.mp hs
    simp [hp] at heq
  | tonic a =>
    obtain ⟨p, -, heq⟩ := Option.bind_eq_some_iff.mp hs
    cases heq
    exact ⟨⟨rfl, rfl, rfl⟩, .same⟩
  | setToken token =>
    cases hs
    exact ⟨⟨rfl, rfl, rfl⟩, .same⟩
  | timeout =>
    simp [step, Phase.not_connecting_of_isEnded hp] at hs
  | response ev =>
    simp only [step, response] at hs
    split at hs
    · cases hs
    split at hs
    · next h => cases hne _ h
    · next h => cases hne _ h
    · cases hs
  | take =>
    simp only [step] at hs
    split at hs
    · next h _ => cases hne _ h
    · cases hs
  | wake =>
    simp only [step] at hs
    split at hs
    · next h => cases hne _ h
    · cases hs
  | validate report =>
    simp only [step] at hs
    split at hs
    · next h => cases hne _ h
    · next h => cases hne _ h
    · cases hs
  | dial result =>
    simp only [step] at hs
    split at hs
    · next h => cases hne _ h
    · next h => cases hne _ h
    · next h => cases hne _ h
    · cases hs
  | relayConnect error =>
    simp only [step] at hs
    split at hs
    · next h => cases hne _ h
    · next h => cases hne _ h
    · cases hs

/-- What stays as it was when the actor ended. -/
structure AfterEnd (s t : System) : Prop where
  phase : t.phase = s.phase
  frozen : s.exchange.Frozen t.exchange
  stranded : ∀ o call, s.exchange.Stranded o call → s.exchange.ops[o]? = some ⟨call, .wait⟩ →
    t.exchange.ops[o]? = some ⟨call, .wait⟩ ∨ t.exchange.ops[o]? = some ⟨call, .dropped⟩

theorem afterEnd_of_reachable (hp : s.phase.isEnded = true) (h : Reachable (step opts) s t) :
    s.AfterEnd t := by
  refine h.invariant (P := s.AfterEnd) ⟨rfl, .refl _, fun o call _ ho => .inl ho⟩
    fun u v a _ hu hs => ?_
  obtain ⟨hphase, hfrozen, hclosing⟩ := frozen_of_step hs (by rw [hu.phase]; exact hp)
  exact ⟨hphase.trans hu.phase, hu.frozen.trans hfrozen, fun o call hst ho =>
    hclosing.stranded (hu.frozen.stranded hst) (hu.stranded o call hst ho)⟩

/-- Once the actor has ended, however it did, a call that has not returned yet can return
unless it is stranded: it waits without an outcome, and the message that registers it was
left in the actor's queue. A stranded call never returns. -/
theorem returns_iff (hr : Reachable (step opts) (initial token) s)
    (hp : s.phase.isEnded = true) (ho : s.exchange.ops[o]? = some op)
    (hf : op.finished = false) :
    (∃ t result, Reachable (step opts) s t ∧
        t.exchange.ops[o]? = some ⟨op.call, .returned result⟩) ↔
      ¬ (op.pc = .wait ∧ s.exchange.Stranded o op.call) := by
  constructor
  · rintro ⟨t, result, ht, hret⟩ ⟨hpc, hst⟩
    have hwait : s.exchange.ops[o]? = some ⟨op.call, .wait⟩ := by rw [ho, ← hpc]
    rcases (afterEnd_of_reachable hp ht).stranded o op.call hst hwait with h | h <;>
      cases Option.some.inj (h.symm.trans hret)
  · intro hns
    -- one poll is enough
    suffices ∃ result, s.exchange.poll opts true o op =
        some (s.exchange.setPc o op (.returned result)) by
      obtain ⟨result, hpoll⟩ := this
      refine ⟨{ s with exchange := s.exchange.setPc o op (.returned result) }, result,
        Reachable.refl.snoc (a := .client (.poll o)) ?_, by simp [Exchange.setPc_get ho]⟩
      simp [step, Exchange.client, ho, hp, hpoll]
    have hi := (accounted_of_reachable hr).calls o op ho
    unfold Exchange.poll
    cases hpc : op.pc with
    | enqueue => exact ⟨_, rfl⟩
    | register =>
      rw [hpc] at hi
      obtain ⟨r, hw⟩ := Option.isSome_iff_exists.mp hi.of_register.2
      rw [hw]
      rcases r with err | m <;> exact ⟨_, rfl⟩
    | wait =>
      cases hout : s.exchange.outcome o op.call with
      | some result => exact ⟨_, rfl⟩
      | none =>
        have hgone : s.exchange.senderAlive true o op.call = false := by
          by_contra ha
          exact hns ⟨hpc, hout, (Exchange.senderAlive_ended ..).mp (by simpa using ha)⟩
        simp only [hgone]
        exact ⟨_, rfl⟩
    | returned result => simp [Op.finished, hpc] at hf
    | dropped => simp [Op.finished, hpc] at hf

/-- A client that tries to connect once. -/
def oneAttempt : ClientOpts :=
  { ClientOpts.build .app "app" "ns" (.token "t") with maxConnectionAttempts := .val 1 }

/-- An ask is called while the only attempt is being made, and the attempt fails. -/
def askThenFail : List Action :=
  [.validate none, .client (.ask ⟨.orb, [1], "orb", "ns", .atLeastOnce⟩), .client (.poll 0),
    .client (.poll 0), .dial (.transport "refused")]

/-- The calls that are at their `await`. -/
def waitingAt (s : System) (o : OpId) : Option Call :=
  match s.exchange.ops[o]? with
  | some ⟨call, .wait⟩ => some call
  | _ => none

theorem waitingAt_eq_some {call : Call} (h : s.waitingAt o = some call) :
    s.exchange.ops[o]? = some ⟨call, .wait⟩ := by
  unfold waitingAt at h
  split at h
  · next call' ho =>
    cases h
    exact ho
  · cases h

theorem askThenFail_hangs :
    ∃ tr s, Run (step oneAttempt) (initial "") tr s ∧ s.phase.isEnded = true ∧
      ¬ ∃ t result, Reachable (step oneAttempt) s t ∧ t.exchange.ops[0]? =
        some ⟨.ask ⟨.orb, [1], "orb", "ns", .atLeastOnce⟩ 0, .returned result⟩ := by
  have he : ((exec (step oneAttempt) (initial "") askThenFail).map fun s =>
      (s.phase.isEnded, s.waitingAt 0, s.exchange.actorRx.getLast?,
        s.exchange.answered.length)) =
      some (true, some (.ask ⟨.orb, [1], "orb", "ns", .atLeastOnce⟩ 0),
        some (.waitForReply ⟨.orb, [1], "orb", "ns", .atLeastOnce⟩ 0 0), 0) := by decide
  obtain ⟨tr, s, h, hs⟩ := Run.of_exec_map he
  simp only [Prod.mk.injEq] at hs
  obtain ⟨hend, hwait, hlast, hans⟩ := hs
  have ho := waitingAt_eq_some hwait
  refine ⟨tr, s, h, hend, ?_⟩
  rw [returns_iff ⟨tr, h⟩ hend ho rfl, not_not]
  have hout : s.exchange.outcome 0 (.ask ⟨.orb, [1], "orb", "ns", .atLeastOnce⟩ 0) = none := by
    simp [Exchange.outcome, List.length_eq_zero_iff.mp hans]
  exact ⟨rfl, hout, _, List.mem_of_getLast? hlast, rfl⟩

end System
end OrbRelay.Client
