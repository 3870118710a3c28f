import OrbRelay.Client.Books

/-!
# Frames and waiters

A call enqueues its `Send` before the message that registers its waiter, so the
actor pushes the frame first. Until the calling task has run on, an answer to the
frame meets no waiter.
-/
namespace OrbRelay.Client
open Transition

/-- Calls that wait for an ack or a reply. -/
def Call.waits : Call → Bool
  | .send msg _ => msg.qos = .atLeastOnce
  | .ask _ _ => true
  | .reply _ _ qos => qos = .atLeastOnce

namespace Exchange

variable {opts : ClientOpts} {e e' : Exchange} {l : Option Msg} {o : OpId} {op : Op} {m : Msg}

/-- The frame of a call has been pushed to `tonic_tx`. -/
def pushedFor (e : Exchange) (o : OpId) : Prop := ∃ f ∈ e.tonic.pushed, f.origin = .op o

/-- The waiter of a call has been inserted into one of the maps. -/
def registeredFor (e : Exchange) (o : OpId) : Prop :=
  ∃ msg k, .waitForAck msg o k ∈ e.handled ∨ .waitForReply msg o k ∈ e.handled

/-- No frame of a waiting call is out before its waiter is in. -/
def RegisteredFirst (e : Exchange) : Prop :=
  ∀ o op, e.ops[o]? = some op → op.call.waits = true → e.pushedFor o → e.registeredFor o

theorem Accounted.registeredFor_iff (h : e.Accounted opts) (ho : e.ops[o]? = some op) :
    e.registeredFor o ↔ ∃ m ∈ e.handled, op.call.waiter o = some (.ok m) := by
  constructor
  · rintro ⟨msg, k, hm⟩
    obtain ⟨w, hw, hb, hs⟩ : ∃ w ∈ e.handled, w.by? = some o ∧ w.isSend = false := by
      rcases hm with hm | hm
      · exact ⟨_, hm, rfl, rfl⟩
      · exact ⟨_, hm, rfl, rfl⟩
    obtain ⟨op', ho', hwait⟩ := h.waiter_of_handled hw hb hs
    obtain rfl := Option.some.inj (ho.symm.trans ho')
    exact ⟨w, hw, hwait⟩
  · rintro ⟨m, hm, hw⟩
    rcases op.call.waiter_eq_ok hw with ⟨_, -, -, rfl⟩ | ⟨_, -, rfl⟩ | ⟨_, _, _, -, -, rfl⟩
    · exact ⟨_, _, .inl hm⟩
    · exact ⟨_, _, .inr hm⟩
    · exact ⟨_, _, .inl hm⟩

/-- While the `Send` of a call is in the queue, its waiter has not been handled. -/
theorem Accounted.not_registered (h : e.Accounted opts) (ho : e.ops[o]? = some op) {f : Frame}
    (hf : .send f ∈ e.actorRx) (hof : f.origin = .op o) : ¬ e.registeredFor o := by
  rw [h.registeredFor_iff ho]
  rintro ⟨m, hm, hw⟩
  exact h.nothing_left ho hw hm _ hf (Msg.by?_send hof)

end Exchange

namespace System

variable {opts : ClientOpts} {token : String} {s s' t : System} {tr : List (System × Action)}
  {o : OpId} {op : Op}

/-- The step hands the `Send` of a waiting call to `handle_msg`. -/
def SendsWaiting (s : System) (a : Action) : Prop :=
  ∃ f o op, s.handles a = some (.send f) ∧ f.origin = .op o ∧ s.exchange.ops[o]? = some op ∧
    op.call.waits = true

/-- No `Send` of a waiting call has been handled. -/
def NothingSent (e : Exchange) : Prop :=
  ∀ f o op, .send f ∈ e.handled → f.origin = .op o → e.ops[o]? = some op → op.call.waits = false

theorem nothingSent_step {a : Action} (ha : s.exchange.Accounted opts)
    (h : NothingSent s.exchange) (hg : ¬ s.SendsWaiting a) (hs : s.step opts a = some s') :
    NothingSent s'.exchange := by
  have hm := moves_of_step hs
  intro f o op' hf hof hop'
  have htrail : .send f ∈ s.exchange.handled ∨ s.handles a = some (.send f) := by
    rw [hm.handled] at hf
    simpa using hf
  have hmem : .send f ∈ s.exchange.trail := by
    rcases htrail with hf | hf
    · exact List.mem_append_left _ hf
    · exact List.mem_append_right _ ((hf ▸ hm).queued (by simp))
  obtain ⟨op, hop, -⟩ := ha.of_trail hmem (Msg.by?_send hof)
  obtain ⟨pc, hpc⟩ := hm.call ha.timers hop
  obtain rfl := Option.some.inj (hpc.symm.trans hop')
  rcases htrail with hf | hf
  · exact h f o op hf hof hop
  · by_contra hw
    exact hg ⟨f, o, op, hf, hof, hop, by simpa using hw⟩

/-- Right after the `Send` of a waiting call, its frame is out and its waiter is not in. -/
theorem SendsWaiting.not_first {a : Action} (hg : s.SendsWaiting a)
    (ha : s.exchange.Accounted opts) (hb' : s'.exchange.Booked)
    (hs : s.step opts a = some s') : ¬ s'.exchange.RegisteredFirst := by
  obtain ⟨f, o, op, hf, hof, hop, hw⟩ := hg
  have hm := moves_of_step hs
  obtain ⟨pc, hpc⟩ := hm.call ha.timers hop
  have hnot := ha.not_registered hop ((hf ▸ hm).queued (by simp)) hof
  have hhandled : s'.exchange.handled = s.exchange.handled ++ [.send f] := by
    rw [hm.handled, hf]
    rfl
  intro hfirst
  obtain ⟨msg, k, hr⟩ := hfirst o _ hpc hw
    ⟨f, hb'.sends f (by rw [hhandled]; simp), hof⟩
  refine hnot ⟨msg, k, ?_⟩
  simpa [hhandled] using hr

theorem registeredFirst_iff (h : Run (step opts) (initial token) tr t) :
    (∀ u ∈ visited tr t, u.exchange.RegisteredFirst) ↔ ∀ x ∈ tr, ¬ x.1.SendsWaiting x.2 := by
  refine h.exact (P := fun s => NothingSent s.exchange)
    (by simp [NothingSent, initial, Exchange.initial])
    (fun _ _ _ hr hp hg hs => nothingSent_step (accounted_of_reachable hr) hp hg hs) ?_
    (fun _ _ _ hr hg hs =>
      hg.not_first (accounted_of_reachable hr) (booked_of_reachable (hr.snoc hs)) hs)
  rintro u hr hn o op hop hw ⟨f, hf, hof⟩
  have hsent := (booked_of_reachable hr).pushed f hf o hof
  simp [hn f o op hsent hof hop] at hw

/-- When the actor's queue is empty, a call has its waiter in exactly if its task has
come to the `await`. -/
theorem registered_iff_wait (ha : s.exchange.Accounted opts) (hq : s.exchange.actorRx = [])
    (ho : s.exchange.ops[o]? = some op) (hpc : op.pc = .register ∨ op.pc = .wait) :
    s.exchange.registeredFor o ↔ op.pc = .wait := by
  have htrail : s.exchange.trail = s.exchange.handled := by simp [Exchange.trail, hq]
  have hi := ha.calls o op ho
  rw [ha.registeredFor_iff ho]
  rcases hpc with hpc | hpc <;> rw [hpc] at hi ⊢
  · simp only [reduceCtorEq, iff_false, not_exists, not_and]
    intro m hm hw
    have hmem := Exchange.mem_issued (htrail ▸ hm) (Call.waiter_by? hw)
    rw [hi.of_register.1, List.mem_singleton] at hmem
    exact op.call.waiter_ne_send o _ (hmem ▸ hw)
  · obtain ⟨m, hw, hl⟩ := hi.of_wait
    simp only [iff_true]
    have hmem : m ∈ s.exchange.issued o := by simp [hl]
    exact ⟨m, htrail ▸ (List.mem_filter.mp hmem).1, hw⟩

/-- In a run, no frame of a waiting call is pushed before its waiter is registered
exactly if the frame of no such call is pushed at all. When the actor turns to the
response stream, the calls registered are those whose tasks have come to the `await`. -/
theorem registered_first_iff (h : Run (step opts) (initial token) tr t) :
    ((∀ u ∈ visited tr t, u.exchange.RegisteredFirst) ↔ ∀ x ∈ tr, ¬ x.1.SendsWaiting x.2) ∧
      ∀ u ∈ visited tr t, u.exchange.actorRx = [] → ∀ o op, u.exchange.ops[o]? = some op →
        op.pc = .register ∨ op.pc = .wait → (u.exchange.registeredFor o ↔ op.pc = .wait) := by
  refine ⟨registeredFirst_iff h, fun u hu hq o op ho hpc => ?_⟩
  obtain ⟨tr', -, hrun⟩ := h.of_visited hu
  exact registered_iff_wait (accounted_of_reachable ⟨tr', hrun⟩) hq ho hpc

/-- An ask whose frame is out while its task has not run on. -/
def askSent : List Action :=
  [.validate none, .dial .ok, .relayConnect none,
    .response (.message (some (.connectResponse "app" true "")) ⟨"", 0⟩),
    .client (.ask ⟨.orb, [1], "orb", "ns", .atMostOnce⟩), .client (.poll 0), .take]

/-- The ask is registered before the actor turns to the response stream, if not first. -/
theorem askSent_registered :
    ∃ tr t, Run (step (.build .app "app" "ns" (.token "t"))) (initial "") tr t ∧
      t.exchange.tonic.pushed.map Frame.origin = [.connect 1, .op 0] ∧
      t.exchange.registeredFor 0 ∧
      ((∀ u ∈ visited tr t, u.exchange.RegisteredFirst) ↔ ∀ x ∈ tr, ¬ x.1.SendsWaiting x.2) := by
  have he : ((exec (step (.build .app "app" "ns" (.token "t"))) (initial "")
      (askSent ++ [.client (.poll 0), .take])).map fun s =>
        (s.exchange.tonic.pushed.map Frame.origin, s.exchange.actorRx, s.exchange.ops)) =
      some ([.connect 1, .op 0], [],
        [⟨.ask ⟨.orb, [1], "orb", "ns", .atMostOnce⟩ 0, .wait⟩]) := by rfl
  obtain ⟨tr, t, h, hp⟩ := Run.of_exec_map he
  simp only [Prod.mk.injEq] at hp
  obtain ⟨hpushed, hq, hops⟩ := hp
  obtain ⟨hiff, hregistered⟩ := registered_first_iff h
  have ho : t.exchange.ops[0]? = some ⟨.ask ⟨.orb, [1], "orb", "ns", .atMostOnce⟩ 0, .wait⟩ := by
    rw [hops]
    rfl
  have hvisited : t ∈ visited tr t := by simp [visited]
  exact ⟨tr, t, h, hpushed, (hregistered t hvisited hq 0 _ ho (.inr rfl)).mpr rfl, hiff⟩

/-- The target of the ask answers at once, and only then the task runs on. -/
def earlyReply : List Action :=
  [.response (.message (some (.payload
      ⟨some ⟨"orb", 2, "ns"⟩, some ⟨"app", 1, "ns"⟩, 0, some ⟨"", [2]⟩⟩)) ⟨"orb", 0⟩),
    .client (.poll 0), .take]

/-- The reply goes to `recv`, and the ask is left waiting. -/
theorem earlyReply_diverted :
    ∃ tr t, Run (step (.build .app "app" "ns" (.token "t"))) (initial "") tr t ∧
      t.exchange.clientRx.map RecvdRelayPayload.payload = [[2]] ∧
      ¬ ∀ u ∈ visited tr t, u.exchange.RegisteredFirst := by
  have hsent : ((exec (step (.build .app "app" "ns" (.token "t"))) (initial "") askSent).map
      fun s => (s.exchange.ops.map fun op => op.call.waits,
        s.exchange.tonic.pushed.map Frame.origin, s.exchange.handled.map Msg.isSend)) =
          some ([true], [.connect 1, .op 0], [true]) := by decide
  have hdone : ((exec (step (.build .app "app" "ns" (.token "t"))) (initial "")
      (askSent ++ earlyReply)).map fun s =>
        s.exchange.clientRx.map RecvdRelayPayload.payload) = some [[2]] := by decide
  obtain ⟨u, hu, hp⟩ := Option.map_eq_some_iff.mp hsent
  obtain ⟨t, ht, hrx⟩ := Option.map_eq_some_iff.mp hdone
  rw [exec_append, hu, Option.bind_some] at ht
  obtain ⟨tr, h⟩ := Run.of_exec hu
  obtain ⟨tr', h', hmem⟩ := h.append_exec ht
  refine ⟨tr ++ tr', t, h', hrx, fun hfirst => ?_⟩
  have hfu := hfirst u (by rw [visited_append]; exact List.mem_append_right _ hmem)
  simp only [Prod.mk.injEq] at hp
  obtain ⟨hops, hpushed, hsends⟩ := hp
  have hop : (u.exchange.ops[0]?.map fun op => op.call.waits) = some true := by
    rw [← List.getElem?_map, hops]
    rfl
  obtain ⟨op, hop, hw⟩ := Option.map_eq_some_iff.mp hop
  have hf : Origin.op 0 ∈ u.exchange.tonic.pushed.map Frame.origin := by simp [hpushed]
  obtain ⟨f, hf, hof⟩ := List.mem_map.mp hf
  obtain ⟨msg, k, hr⟩ := hfu 0 op hop hw ⟨f, hf, hof⟩
  have hall : ∀ m ∈ u.exchange.handled, m.isSend = true := by
    intro m hm
    have := List.mem_map_of_mem (f := Msg.isSend) hm
    rw [hsends] at this
    exact List.mem_singleton.mp this
  rcases hr with hr | hr <;> cases hall _ hr

end System
end OrbRelay.Client
