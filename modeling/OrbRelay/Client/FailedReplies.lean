import OrbRelay.Client.Attempts
import OrbRelay.Client.Books

/-!
# Replies that fail

`reply` hands its frame to the actor, and then converts the entity type of the sender for
the message that registers its waiter. As long as the actor runs, this conversion is all
that can fail on the way to the `await`.
-/
namespace OrbRelay.Client
open Encoding Transition

/-! ## Steps that are not of a caller -/

namespace System

variable {opts : ClientOpts} {s s' : System}

theorem handle_ops (opts : ClientOpts) (s : System) (msg : Msg) :
    (s.handle opts msg).exchange.ops = s.exchange.ops := by
  unfold handle
  split
  · next h => exact (handled_of_handleMsg h).ops
  · rw [fail_exchange]
    rfl

theorem callRelay_ops (opts : ClientOpts) (s : System) :
    (s.callRelay opts).exchange.ops = s.exchange.ops := by
  unfold callRelay
  split <;> rfl

theorem round_ops (opts : ClientOpts) (s : System) (ev : StreamEvent) :
    (s.round opts ev).exchange.ops = s.exchange.ops := by
  unfold round
  split
  · rfl
  · rfl
  · exact Exchange.startHeartbeat_ops s.exchange
  · rw [fail_exchange]

theorem listen_ops (opts : ClientOpts) (s : System) (ev : StreamEvent) :
    (s.listen opts ev).exchange.ops = s.exchange.ops := by
  unfold listen
  split
  · rw [fail_exchange]
  · rw [fail_exchange]
  · rfl
  · exact handle_ops opts s _

/-- Only the tasks of the callers change their calls. -/
theorem ops_of_step {a : Action} (ha : ∀ c, a ≠ .client c) (h : s.step opts a = some s') :
    s'.exchange.ops = s.exchange.ops := by
  cases a with
  | client c => exact absurd rfl (ha c)
  | fire i =>
    obtain ⟨msg, hm, h⟩ := Option.bind_eq_some_iff.mp h
    split_ifs at h
    cases h
    rfl
  | tonic a =>
    obtain ⟨p, hp, h⟩ := Option.bind_eq_some_iff.mp h
    cases h
    rfl
  | setToken token => cases h; rfl
  | validate report =>
    simp only [step] at h
    split at h <;> cases h <;> rfl
  | dial result =>
    simp only [step] at h
    split at h <;> cases h
    · exact callRelay_ops opts s
    · rw [fail_exchange]
    · rw [fail_exchange]
  | relayConnect error =>
    simp only [step] at h
    split at h <;> cases h
    · rfl
    · rw [fail_exchange]
  | timeout =>
    simp only [step] at h
    split_ifs at h
    cases h
    rw [fail_exchange]
  | response ev =>
    simp only [step, response] at h
    split at h
    · cases h
    split at h
    · cases h
      exact round_ops opts (s.note ev) ev
    · split_ifs at h
      cases h
      exact listen_ops opts s ev
    · cases h
  | take =>
    simp only [step] at h
    split at h
    · next msg rest hph hq => cases h; exact handle_ops opts _ msg
    · cases h
  | wake =>
    simp only [step] at h
    split at h <;> cases h
    rfl

end System

/-! ## Calls that are over -/

/-- How a call can be over while the actor runs: it waits for nothing, it could not make
its waiter, or it has enqueued it. -/
inductive Over (o : OpId) (trail : List Msg) (call : Call) : Pc → Prop where
  | sent (hw : call.waiter o = none) : Over o trail call (.returned (.ok none))
  | failed (err : Err) (hw : call.waiter o = some (.error err)) :
      Over o trail call (.returned (.error err))
  | waited (pc : Pc) (m : Msg) (hw : call.waiter o = some (.ok m)) (hm : m ∈ trail) :
      Over o trail call pc

theorem Over.mono {o : OpId} {call : Call} {pc : Pc} {l l' : List Msg} (h : Over o l call pc)
    (hl : l ⊆ l') : Over o l' call pc := by
  cases h with
  | sent hw => exact .sent hw
  | failed err hw => exact .failed err hw
  | waited pc m hw hm => exact .waited pc m hw (hl hm)

/-- Replies that cannot make their waiter. -/
theorem Call.reply_error_iff (o : OpId) (on : RecvMessage) (payload : Bytes) (qos : QoS) :
    (∃ err, (Call.reply on payload qos).waiter o = some (.error err)) ↔
      ¬ (qos = .atMostOnce ∨ (EntityType.tryFrom on.from_.entityType).isSome) := by
  cases qos with
  | atMostOnce => simp [Call.waiter]
  | atLeastOnce => cases ht : EntityType.tryFrom on.from_.entityType <;> simp [Call.waiter, ht]

namespace Exchange

variable {opts : ClientOpts} {e e' : Exchange} {l : Option Msg} {o : OpId} {op : Op} {m : Msg}

/-- Every call that is over has enqueued its frame. -/
def Completed (opts : ClientOpts) (e : Exchange) : Prop :=
  ∀ o op, e.ops[o]? = some op → op.finished = true →
    op.call.first opts o ∈ e.trail ∧ Over o e.trail op.call op.pc

theorem Completed.mono (h : e.Completed opts) (hops : e'.ops = e.ops)
    (ht : e.trail ⊆ e'.trail) : e'.Completed opts := by
  intro o op ho hf
  obtain ⟨hfirst, hover⟩ := h o op (hops ▸ ho) hf
  exact ⟨ht hfirst, hover.mono ht⟩

/-- A step in which one call goes on. -/
theorem Completed.setPc {pc : Pc} (h : e.Completed opts) (e₁ : Exchange)
    (ho : e.ops[o]? = some op) (hops : e₁.ops = e.ops) (ht : e.trail ⊆ e₁.trail)
    (hown : Op.finished ⟨op.call, pc⟩ = true →
      op.call.first opts o ∈ e₁.trail ∧ Over o e₁.trail op.call pc) :
    (e₁.setPc o op pc).Completed opts := by
  intro j opj hj hf
  rw [setPc_get (hops ▸ ho)] at hj
  split_ifs at hj with hoj
  · subst hoj
    cases hj
    exact hown hf
  · exact h.mono hops ht j opj hj hf

theorem Completed.open {call : Call} (h : e.Completed opts)
    (hops : e'.ops = e.ops ++ [⟨call, .enqueue⟩]) (ht : e'.trail = e.trail) :
    e'.Completed opts := by
  intro j opj hj hf
  rw [ht]
  rcases open_get hops hj with hj | ⟨-, rfl⟩
  · exact h j opj hj hf
  · cases hf

theorem subset_trail_post (e : Exchange) (m : Msg) : e.trail ⊆ (e.post m).trail := by
  rw [trail_post]
  exact List.subset_append_left _ _

/-- A call at its `await` has enqueued both its messages. -/
theorem over_of_wait {call : Call} (hi : Issued opts o call .wait (e.issued o)) (pc : Pc) :
    call.first opts o ∈ e.trail ∧ Over o e.trail call pc := by
  obtain ⟨m, hw, hl⟩ := hi.of_wait
  have hmem : ∀ x ∈ [call.first opts o, m], x ∈ e.trail := fun x hx =>
    (List.mem_filter.mp (hl ▸ hx : x ∈ e.issued o)).1
  exact ⟨hmem _ (by simp), .waited pc m hw (hmem _ (by simp))⟩

theorem Completed.poll (h : e.Completed opts) (ha : e.Accounted opts) (ho : e.ops[o]? = some op)
    (hp : e.poll opts false o op = some e') : e'.Completed opts := by
  have hi := ha.calls o op ho
  unfold Exchange.poll at hp
  split at hp
  · simp only [Bool.false_eq_true, if_false] at hp
    have hfirst : op.call.first opts o ∈ (e.post (op.call.first opts o)).trail := by
      simp [trail_post]
    split at hp
    · next hw =>
      cases hp
      exact h.setPc (e.post (op.call.first opts o)) ho rfl (subset_trail_post e _)
        fun _ => ⟨hfirst, .sent hw⟩
    · cases hp
      exact h.setPc (e.post (op.call.first opts o)) ho rfl (subset_trail_post e _)
        fun hf => by cases hf
  · next hpc =>
    rw [hpc] at hi
    split at hp
    · cases hp
    · next err hw =>
      cases hp
      have hfirst : op.call.first opts o ∈ e.issued o := by simp [hi.of_register.1]
      exact h.setPc e ho rfl (List.Subset.refl _) fun _ =>
        ⟨(List.mem_filter.mp hfirst).1, .failed err hw⟩
    · next m hw =>
      simp only [Bool.false_eq_true, if_false] at hp
      cases hp
      exact h.setPc (e.post m) ho rfl (subset_trail_post e m) fun hf => by cases hf
  · next hpc =>
    rw [hpc] at hi
    split at hp
    · cases hp
      exact h.setPc e ho rfl (List.Subset.refl _) fun _ => over_of_wait hi _
    · split_ifs at hp
      cases hp
      exact h.setPc e ho rfl (List.Subset.refl _) fun _ => over_of_wait hi _
  · cases hp
  · cases hp

theorem Completed.client {a : ClientAction} (h : e.Completed opts) (ha : e.Accounted opts)
    (hc : e.client opts false a = some e') : e'.Completed opts := by
  have hm : e.Moves opts none e' := .called (called_of_client hc)
  have hsame : e'.ops = e.ops → e'.Completed opts := fun hops => h.mono hops hm.trail_subset
  cases a with
  | poll o =>
    simp only [Exchange.client, Option.bind_eq_bind, Option.bind_eq_some_iff] at hc
    obtain ⟨op, ho, hc⟩ := hc
    exact h.poll ha ho hc
  | drop o =>
    simp only [Exchange.client, Option.bind_eq_bind, Option.bind_eq_some_iff] at hc
    obtain ⟨op, ho, hc⟩ := hc
    split at hc
    · next hpc =>
      cases hc
      have hi := ha.calls o op ho
      rw [hpc] at hi
      exact h.setPc e ho rfl (List.Subset.refl _) fun _ => over_of_wait hi _
    · cases hc
  | send msg =>
    simp only [Exchange.client] at hc
    split_ifs at hc
    cases hc
    exact h.open rfl rfl
  | ask msg =>
    simp only [Exchange.client] at hc
    split_ifs at hc
    cases hc
    exact h.open rfl rfl
  | reply i payload qos =>
    simp only [Exchange.client, Option.bind_eq_bind, Option.bind_eq_some_iff] at hc
    obtain ⟨on, hon, hc⟩ := hc
    split_ifs at hc
    cases hc
    exact h.open rfl rfl
  | recv =>
    refine hsame ?_
    simp only [Exchange.client] at hc
    split at hc
    · cases hc
    · split_ifs at hc
      cases hc
      rfl
  | stop | reconnect | release =>
    refine hsame ?_
    simp only [Exchange.client] at hc
    split_ifs at hc
    cases hc
    rfl

/-- A call that enqueues its waiter comes to its `await`. -/
theorem Moves.waits (h : e.Moves opts l e') (ht : ∀ m ∈ e.sleeping, m.timer = true)
    (hb : m.by? = some o) (hs : m.isSend = false) (hm : m ∈ e'.trail) :
    m ∈ e.trail ∨ ∃ call, e'.ops[o]? = some ⟨call, .wait⟩ := by
  rcases h.called_or ht with ⟨hc, -⟩ | ⟨-, hi⟩
  · cases hc with
    | enqueue j op pc hj hpc hpc' =>
      have hm : m ∈ (e.post _).trail := hm
      rw [trail_post] at hm
      rcases List.mem_append.mp hm with hm | hm
      · exact .inl hm
      · rw [List.mem_singleton.mp hm] at hs
        cases hs
    | register j op msg hj hpc hw =>
      have hm : m ∈ (e.post msg).trail := hm
      rw [trail_post] at hm
      rcases List.mem_append.mp hm with hm | hm
      · exact .inl hm
      · obtain rfl := List.mem_singleton.mp hm
        obtain rfl : j = o := Option.some.inj ((Call.waiter_by? hw).symm.trans hb)
        exact .inr ⟨op.call, by rw [setPc_get (e := e.post m) hj, if_pos rfl]⟩
    | control msg hc =>
      rw [trail_post] at hm
      rcases List.mem_append.mp hm with hm | hm
      · exact .inl hm
      · rw [List.mem_singleton.mp hm] at hb
        rcases hc with rfl | rfl <;> cases hb
    | _ => exact .inl hm
  · have hissued := mem_issued hm hb
    rw [hi] at hissued
    exact .inl (List.mem_filter.mp hissued).1

end Exchange

namespace System

variable {opts : ClientOpts} {token : String} {s t : System} {tr : List (System × Action)}
  {o : OpId} {op : Op} {m : Msg} {pc : Pc} {on : RecvMessage} {payload : Bytes} {qos : QoS}

theorem completed_of_reachable (h : Reachable (step opts) (initial token) s)
    (hrun : s.phase.isEnded = false) : s.exchange.Completed opts := by
  refine h.invariant (P := fun s => s.phase.isEnded = false → s.exchange.Completed opts)
    (fun _ => by simp [Exchange.Completed, initial, Exchange.initial])
    (fun u v a hr hp hs hv => ?_) hrun
  have hu : u.phase.isEnded = false := by
    by_contra hu
    rw [(quiet_of_ended hs (by simpa using hu)).2.1] at hv
    exact hu hv
  by_cases ha : ∃ c, a = .client c
  · obtain ⟨c, rfl⟩ := ha
    obtain ⟨e, he, hs⟩ := Option.bind_eq_some_iff.mp hs
    cases hs
    rw [hu] at he
    exact (hp hu).client (accounted_of_reachable hr) he
  · have hops := ops_of_step (fun c hc => ha ⟨c, hc⟩) hs
    exact (hp hu).mono hops (moves_of_step hs).trail_subset

/-- A call past its sends, while the actor runs. -/
theorem over_of_past (h : Reachable (step opts) (initial token) s)
    (hrun : s.phase.isEnded = false) (ho : s.exchange.ops[o]? = some op)
    (hpc : op.pc ≠ .enqueue ∧ op.pc ≠ .register) :
    op.call.first opts o ∈ s.exchange.trail ∧ Over o s.exchange.trail op.call op.pc := by
  have hdone := completed_of_reachable h hrun o op ho
  cases hpc' : op.pc with
  | enqueue => exact absurd hpc' hpc.1
  | register => exact absurd hpc' hpc.2
  | wait =>
    have hi := (accounted_of_reachable h).calls o op ho
    rw [hpc'] at hi
    exact Exchange.over_of_wait hi .wait
  | returned result => exact hpc' ▸ hdone (by simp [Op.finished, hpc'])
  | dropped => exact hpc' ▸ hdone (by simp [Op.finished, hpc'])

/-- Somewhere in the run the call has come to its `await`. -/
def Waited (tr : List (System × Action)) (t : System) (o : OpId) : Prop :=
  ∃ u ∈ visited tr t, ∃ call, u.exchange.ops[o]? = some ⟨call, .wait⟩

theorem waited_of_trail (h : Run (step opts) (initial token) tr t) (hm : m ∈ t.exchange.trail)
    (hb : m.by? = some o) (hs : m.isSend = false) : Waited tr t o := by
  refine h.invariant (P := fun tr t => m ∈ t.exchange.trail → Waited tr t o)
    (by simp [initial, Exchange.initial, Exchange.trail]) (fun tr u v a hrun hw hv hm => ?_) hm
  have ht := (accounted_of_reachable ⟨tr, hrun⟩).timers
  rcases (moves_of_step hv).waits ht hb hs hm with hm | hwait
  · obtain ⟨w, hmem, hwait⟩ := hw hm
    exact ⟨w, visited_snoc hmem, hwait⟩
  · exact ⟨v, by simp [visited], hwait⟩

/-- The call of a run has returned an error without ever coming to its `await`. -/
def FailedEarly (tr : List (System × Action)) (t : System) (o : OpId) : Prop :=
  (∃ call err, t.exchange.ops[o]? = some ⟨call, .returned (.error err)⟩) ∧ ¬ Waited tr t o

/-- A reply that has failed early has enqueued no frame, and an at-least-once reply
that has enqueued its frame has also enqueued its `WaitForAck`. -/
structure Whole (tr : List (System × Action)) (t : System) (o : OpId) (on : RecvMessage)
    (payload : Bytes) (qos : QoS) : Prop where
  failed : FailedEarly tr t o → ∀ f, .send f ∈ t.exchange.trail → f.origin ≠ .op o
  registered : qos = .atLeastOnce →
    (∃ f, .send f ∈ t.exchange.trail ∧ f.origin = .op o) → ∃ targetType,
      .waitForAck ⟨targetType, payload, on.from_.id, on.from_.namespace_, qos⟩ o on.seq ∈
        t.exchange.trail

/-- As long as the actor runs, a reply that is past its sends is whole exactly if it is
at-most-once or its sender has an entity type that this client knows. -/
theorem reply_whole_iff (h : Run (step opts) (initial token) tr t)
    (hrun : t.phase.isEnded = false)
    (ho : t.exchange.ops[o]? = some ⟨.reply on payload qos, pc⟩)
    (hpc : pc ≠ .enqueue ∧ pc ≠ .register) :
    Whole tr t o on payload qos ↔
      qos = .atMostOnce ∨ (EntityType.tryFrom on.from_.entityType).isSome := by
  have hr : Reachable (step opts) (initial token) t := ⟨tr, h⟩
  obtain ⟨hfirst, hover⟩ := over_of_past hr hrun ho hpc
  constructor
  · intro hwhole
    by_contra hcond
    obtain ⟨err, herr⟩ := (Call.reply_error_iff o on payload qos).mpr hcond
    have hq : qos = .atLeastOnce := by
      cases qos with
      | atMostOnce => exact absurd (.inl rfl) hcond
      | atLeastOnce => rfl
    obtain ⟨targetType, hmem⟩ := hwhole.registered hq ⟨_, hfirst, rfl⟩
    obtain ⟨op, ho', hw⟩ := (accounted_of_reachable hr).waiter_of_trail hmem rfl rfl
    cases ho.symm.trans ho'
    cases herr.symm.trans hw
  · intro hcond
    have hmake : ∀ err, (Call.reply on payload qos).waiter o ≠ some (.error err) := fun err herr =>
      (Call.reply_error_iff o on payload qos).mp ⟨err, herr⟩ hcond
    refine ⟨?_, fun hq _ => ?_⟩
    · rintro ⟨⟨call, err, hret⟩, hnot⟩
      cases ho.symm.trans hret
      cases hover with
      | failed err hw => exact absurd hw (hmake err)
      | waited pc m hw hm =>
        exact absurd (waited_of_trail h hm (Call.waiter_by? hw) (Call.waiter_isSend hw)) hnot
    · subst hq
      cases hover with
      | sent hw =>
        simp only [Call.waiter] at hw
        split at hw <;> cases hw
      | failed err hw => exact absurd hw (hmake err)
      | waited pc m hw hm =>
        rcases Call.waiter_eq_ok hw with ⟨_, hc, -⟩ | ⟨_, hc, -⟩ | ⟨_, _, targetType, hc, -, rfl⟩
        · cases hc
        · cases hc
        · cases hc
          exact ⟨targetType, hm⟩

/-- A message whose sender has the entity type `n`, as the client receives it. -/
def fromType (n : Int32) : RecvMessage := ⟨⟨"orb", n, "ns"⟩, [1], 7, ⟨"orb", 0⟩⟩

/-- A connected client receives this message and replies to it at-least-once. -/
def replyToType (n : Int32) : List Action :=
  [.validate none] ++ establish ++
    [.response (.message (some (.payload
        ⟨some (fromType n).from_, some ⟨"app", 1, "ns"⟩, 7, some ⟨"", [1]⟩⟩)) ⟨"orb", 0⟩),
      .client .recv, .client (.reply 0 [2] .atLeastOnce), .client (.poll 0), .client (.poll 0)]

theorem replyToOrb_whole :
    ∃ tr t, Run (step (.build .app "app" "ns" (.token "t"))) (initial "") tr t ∧
      t.exchange.ops = [⟨.reply (fromType 2) [2] .atLeastOnce, .wait⟩] ∧
      Whole tr t 0 (fromType 2) [2] .atLeastOnce := by
  have he : ((exec (step (.build .app "app" "ns" (.token "t"))) (initial "")
      (replyToType 2)).map fun s => (s.phase.isEnded, s.exchange.ops)) =
        some (false, [⟨.reply (fromType 2) [2] .atLeastOnce, .wait⟩]) := by rfl
  obtain ⟨tr, t, h, hp⟩ := Run.of_exec_map he
  obtain ⟨hrun, hops⟩ := Prod.mk.inj hp
  have ho : t.exchange.ops[0]? = some ⟨.reply (fromType 2) [2] .atLeastOnce, .wait⟩ := by
    rw [hops]
    rfl
  exact ⟨tr, t, h, hops, (reply_whole_iff h hrun ho (by simp)).mpr (.inr (by decide))⟩

/-- The reply to a sender of a newer entity type returns an error, with its frame in the
actor's queue and no waiter. -/
theorem replyToUnknown_not_whole :
    ∃ tr t, Run (step (.build .app "app" "ns" (.token "t"))) (initial "") tr t ∧
      t.phase.isEnded = false ∧
      t.exchange.ops = [⟨.reply (fromType 4) [2] .atLeastOnce,
        .returned (.error (.other "Failed to convert EntityType"))⟩] ∧
      t.exchange.actorRx = [(Call.reply (fromType 4) [2] .atLeastOnce).first
        (.build .app "app" "ns" (.token "t")) 0] ∧
      ¬ Whole tr t 0 (fromType 4) [2] .atLeastOnce := by
  have he : ((exec (step (.build .app "app" "ns" (.token "t"))) (initial "")
      (replyToType 4)).map fun s => (s.phase.isEnded, s.exchange.ops, s.exchange.actorRx,
        s.exchange.handled.map Msg.by?)) =
        some (false, [⟨.reply (fromType 4) [2] .atLeastOnce,
          .returned (.error (.other "Failed to convert EntityType"))⟩],
          [(Call.reply (fromType 4) [2] .atLeastOnce).first
            (.build .app "app" "ns" (.token "t")) 0], [none]) := by rfl
  obtain ⟨tr, t, h, hp⟩ := Run.of_exec_map he
  simp only [Prod.mk.injEq] at hp
  obtain ⟨hrun, hops, hq, hhandled⟩ := hp
  refine ⟨tr, t, h, hrun, hops, hq, fun hwhole => ?_⟩
  obtain ⟨targetType, hmem⟩ := hwhole.registered rfl
    ⟨_, List.mem_append_right _ (by rw [hq]; exact List.mem_singleton_self _), rfl⟩
  rcases List.mem_append.mp hmem with hmem | hmem
  · have hby := List.mem_map_of_mem (f := Msg.by?) hmem
    simp [hhandled, Msg.by?] at hby
  · rw [hq] at hmem
    cases List.mem_singleton.mp hmem

end System
end OrbRelay.Client
