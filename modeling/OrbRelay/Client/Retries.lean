import OrbRelay.Client.Orphans

/-!
# How often a frame is pushed

The frame of a call is pushed once when its `Send` is handled, and then by each retry
that finds its entry. `handle_msg` starts the timer of a retry from the full limit
again, so the timers that it has started bound nothing. Those started by registrations
do, as long as no more of them than the limit meet under one key.
-/
namespace OrbRelay.Client
open Transition

/-- The key whose entry a message may retry. -/
def Msg.retries? : Msg → Option Key
  | .retryAck k left => if left = .val 0 then none else some (.ack k)
  | .retryAsk id k left => if left = .val 0 then none else some (.ask id k)
  | _ => none

theorem Msg.retries?_eq_none {m : Msg} (h : m.timer = false) : m.retries? = none := by
  cases m <;> first | rfl | cases h

namespace Exchange

variable {opts : ClientOpts} {e e' : Exchange} {l : Option Msg} {m : Msg} {n : ℕ} {o : OpId}
  {k : Key}

/-! ## What a step pushes -/

/-- What a move hands to the tonic queue, by the message it handles. -/
inductive Pushes (opts : ClientOpts) (e e' : Exchange) : Option Msg → Prop where
  | none {l : Option Msg} (hl : ∀ f, l ≠ some (.send f))
      (hp : e'.tonic.pushed = e.tonic.pushed) : Pushes opts e e' l
  | own {l : Option Msg} (f : Frame) (hl : l = none ∨ l = some .heartbeat)
      (hf : ∀ o, f.origin ≠ .op o) (hp : e'.tonic.pushed = e.tonic.pushed ++ [f]) :
      Pushes opts e e' l
  | send (f : Frame) (hp : e'.tonic.pushed = e.tonic.pushed ++ [f]) :
      Pushes opts e e' (some (.send f))
  | retryAck (k : Seq) (left : Amount) (msg : SendMessage) (o : OpId)
      (hk : e.state.pendingAcks k = some (msg, o)) (hl : left ≠ .val 0)
      (hp : e'.tonic.pushed =
        e.tonic.pushed ++ [⟨.payload (relayPayload opts msg k), .op o⟩]) :
      Pushes opts e e' (some (.retryAck k left))
  | retryAsk (id : ClientId) (k : Seq) (left : Amount) (msg : SendMessage) (o : OpId)
      (hk : e.state.pendingReplies (id, k) = some (msg, o)) (hl : left ≠ .val 0)
      (hp : e'.tonic.pushed =
        e.tonic.pushed ++ [⟨.payload (relayPayload opts msg k), .op o⟩]) :
      Pushes opts e e' (some (.retryAsk id k left))

theorem pushes_of_handled {e₁ : Exchange} {m : Msg} (h : Handled opts e₁ m e')
    (hs : e₁.state = e.state) (ht : e₁.tonic.pushed = e.tonic.pushed) :
    Pushes opts e e' (some m) := by
  cases h with
  | send payload => exact .send payload (congrArg (· ++ [payload]) ht)
  | retryAck seq left msg o hp hl =>
    exact .retryAck seq left msg o (hs ▸ hp) hl (congrArg (· ++ [_]) ht)
  | retryAsk id seq left msg o hp hl =>
    exact .retryAsk id seq left msg o (hs ▸ hp) hl (congrArg (· ++ [_]) ht)
  | heartbeat => exact .own _ (.inr rfl) (by simp) (congrArg (· ++ [_]) ht)
  | _ => exact .none (by simp) ht

theorem Moves.pushed (h : e.Moves opts l e') : Pushes opts e e' l := by
  cases h with
  | stay => exact .none (by simp) rfl
  | tonic p hp => exact .none (by simp) hp
  | dial p request n hp => exact .own _ (.inl rfl) (by simp) hp
  | heartbeat => exact .none (by simp) rfl
  | called h => exact .none (by simp) (by cases h <;> rfl)
  | fire i msg hm => exact .none (by simp) rfl
  | forward msg tag => exact .none (by simp) rfl
  | take msg rest hq h => exact pushes_of_handled h rfl rfl
  | takeFail msg rest p hq hf hp =>
    obtain ⟨err, he⟩ := hf
    refine .none (fun f hm => ?_) hp
    cases hm
    rcases handleMsg_error he with h | h | ⟨_, _, _, _, _, h, -⟩ <;> cases h
  | read msg tag hq h => exact pushes_of_handled h rfl rfl
  | readFail msg tag p hq hf hp => exact .none (by simp) hp

/-- How often the frame of a call has been pushed. -/
def pushes (e : Exchange) (o : OpId) : ℕ := e.tonic.pushed.countP fun f => f.origin = .op o

/-- How often its `Send` has been handled. -/
def sends (e : Exchange) (o : OpId) : ℕ := e.handled.countP fun m => m.isSend && m.by? = some o

theorem pushes_append {f : Frame} (hp : e'.tonic.pushed = e.tonic.pushed ++ [f]) (o : OpId) :
    e'.pushes o = e.pushes o + if f.origin = .op o then 1 else 0 := by
  simp [pushes, hp, List.countP_append, List.countP_singleton]

theorem countP_isSend (hl : ∀ f, l ≠ some (.send f)) (o : OpId) :
    (l.toList.countP fun m => m.isSend && m.by? = some o) = 0 := by
  match l with
  | none => rfl
  | some (.send f) => exact absurd rfl (hl f)
  | some (.relayResponse _ _) | some (.waitForAck _ _ _) | some (.waitForReply _ _ _)
  | some (.retryAck _ _) | some (.retryAsk _ _ _) | some .stop | some .heartbeat
  | some .reconnect => rfl

/-- The frame of a call is pushed when its `Send` is handled, and else only by a retry
that finds its entry. -/
theorem Moves.balanced (h : e.Moves opts l e') (o : OpId) :
    e'.pushes o + e.sends o = e.pushes o + e'.sends o ∨
      ∃ m k left msg, l = some m ∧ m.retry? = some (k, left) ∧ left ≠ .val 0 ∧
        e.state.entry k = some (msg, o) ∧
          e'.pushes o + e.sends o = e.pushes o + e'.sends o + 1 := by
  have hsends : e'.sends o =
      e.sends o + l.toList.countP fun m => m.isSend && m.by? = some o := by
    rw [sends, h.handled, List.countP_append, sends]
  have hother : e'.pushes o = e.pushes o → (∀ f, l ≠ some (.send f)) →
      e'.pushes o + e.sends o = e.pushes o + e'.sends o := by
    intro hp hl
    rw [hp, hsends, countP_isSend hl o, Nat.add_zero]
  have hown {request : RelayConnectRequest}
      (hp : e'.tonic.pushed = e.tonic.pushed ++ [⟨request, .op o⟩])
      (hl : ∀ f, l ≠ some (.send f)) :
      e'.pushes o + e.sends o = e.pushes o + e'.sends o + 1 := by
    rw [pushes_append hp, hsends, countP_isSend hl o, if_pos rfl]
    omega
  cases h.pushed with
  | none hl hp => exact .inl (hother (congrArg (List.countP _) hp) hl)
  | own f hl hf hp =>
    refine .inl (hother (by rw [pushes_append hp, if_neg (hf o), Nat.add_zero]) ?_)
    rcases hl with rfl | rfl <;> simp
  | send f hp =>
    left
    rw [pushes_append hp, hsends]
    simp only [Option.toList_some, List.countP_singleton, Msg.isSend, Bool.true_and,
      decide_eq_true_eq, Msg.by?_send_iff]
    omega
  | retryAck k left msg o' hk hleft hp =>
    by_cases ho : o' = o
    · subst ho
      exact .inr ⟨_, .ack k, left, msg, rfl, rfl, hleft, hk, hown hp (by simp)⟩
    · exact .inl (hother (by rw [pushes_append hp]; simp [ho]) (by simp))
  | retryAsk id k left msg o' hk hleft hp =>
    by_cases ho : o' = o
    · subst ho
      exact .inr ⟨_, .ask id k, left, msg, rfl, rfl, hleft, hk, hown hp (by simp)⟩
    · exact .inl (hother (by rw [pushes_append hp]; simp [ho]) (by simp))

/-- The `Send` of a call is handled at most once. -/
theorem Accounted.sends_le (h : e.Accounted opts) (o : OpId) : e.sends o ≤ 1 := by
  have hle : e.sends o ≤ (e.issued o).countP Msg.isSend := by
    rw [issued, List.countP_filter, trail, List.countP_append]
    exact Nat.le_add_right _ _
  refine hle.trans ?_
  cases ho : e.ops[o]? with
  | none => simp [h.absent o ho]
  | some op =>
    rcases (h.calls o op ho).shape with hs | hs | ⟨m, hw, hs⟩ <;> rw [hs]
    · simp
    · simp [Call.first, Msg.isSend]
    · have hm : m.isSend = false := op.call.waiter_isSend hw
      have hf : (op.call.first opts o).isSend = true := rfl
      simp [hf, hm]

/-! ## What a call is pushed for -/

/-- The tokens for a key that carry the full limit. -/
def fullTokens (n : ℕ) (e : Exchange) (k : Key) : ℕ := e.tokensFor k fun left => left = .val n

/-- The account of a call: it is retried only once its waiter is registered, and while it
pends its retries so far and the full tokens for its key are within the limit. -/
structure Allotted (n : ℕ) (e : Exchange) (o : OpId) : Prop where
  fresh : (∀ m ∈ e.handled, m.by? = some o → m.isSend = true) → e.pushes o = e.sends o
  pending : ∀ k msg, e.state.entry k = some (msg, o) →
    e.pushes o = e.sends o ∨ e.pushes o + e.fullTokens n k ≤ e.sends o + n
  bounded : e.pushes o ≤ e.sends o + n

/-- Retries of at-least-once calls are for full tokens, of which no more than the limit
are out for the key. -/
def Affordable (n : ℕ) (e : Exchange) (l : Option Msg) : Prop :=
  ∀ m k left msg o, l = some m → m.retry? = some (k, left) → left ≠ .val 0 →
    e.state.entry k = some (msg, o) → msg.qos = .atLeastOnce →
      left = .val n ∧ e.fullTokens n k ≤ n

/-- A waiter that is registered now has not been registered before. -/
theorem Accounted.only_sends (h : e.Accounted opts) (hm : m ∈ e.actorRx) (hb : m.by? = some o) :
    ∀ m' ∈ e.handled, m'.by? = some o → m'.isSend = true := by
  intro m' hm' hb'
  by_contra hs'
  obtain ⟨op, ho, hw⟩ := h.waiter_of_handled hm' hb' (by simpa using hs')
  exact h.nothing_left ho hw hm' m hm hb

/-- The entries of a call that is sent at least once say so. -/
theorem Booked.atLeastOnce_of_entry (hb : e.Booked) (ha : e.Accounted opts)
    (hq : ∀ op, e.ops[o]? = some op → op.call.qos = .atLeastOnce) {msg : SendMessage}
    (hk : e.state.entry k = some (msg, o)) : msg.qos = .atLeastOnce := by
  obtain ⟨op, m, ho, -, -, -, hmsg⟩ := hb.owner ha hk
  exact hmsg.symm.trans (hq op ho)

/-- A call has one entry. -/
theorem Booked.entry_unique (hb : e.Booked) (ha : e.Accounted opts) {k k' : Key}
    {msg msg' : SendMessage} (hk : e.state.entry k = some (msg, o))
    (hk' : e.state.entry k' = some (msg', o)) : k = k' := by
  obtain ⟨op, m, ho, -⟩ := hb.owner ha hk
  exact (hb.key_of_entry ha hk ho).1.symm.trans (hb.key_of_entry ha hk' ho).1

theorem Allotted.fresh_moves (h : e.Allotted n o) (hb : e.Booked) (ha : e.Accounted opts)
    (hm : e.Moves opts l e')
    (hfresh : ∀ m ∈ e'.handled, m.by? = some o → m.isSend = true) : e'.pushes o = e'.sends o := by
  have hbefore := h.fresh fun m hmem hby =>
    hfresh m (by rw [hm.handled]; exact List.mem_append_left _ hmem) hby
  rcases hm.balanced o with heq | ⟨m, k, left, msg, -, -, -, hk, -⟩
  · omega
  · -- a registered call has a waiter among the handled messages
    obtain ⟨op, m, -, hw, hmem, -⟩ := hb.owner ha hk
    have hsend := hfresh m (by rw [hm.handled]; exact List.mem_append_left _ hmem)
      (Call.waiter_by? hw)
    rw [Call.waiter_isSend hw] at hsend
    cases hsend

theorem Allotted.pending_moves (h : e.Allotted n o) (hlimit : opts.maxMessageAttempts = .val n)
    (hb : e.Booked) (ha : e.Accounted opts)
    (hq : ∀ op, e.ops[o]? = some op → op.call.qos = .atLeastOnce)
    (hg : e.Affordable n l) (hm : e.Moves opts l e') {msg : SendMessage}
    (hk : e'.state.entry k = some (msg, o)) :
    e'.pushes o = e'.sends o ∨ e'.pushes o + e'.fullTokens n k ≤ e'.sends o + n := by
  have hbal := hm.balanced o
  cases hm.atKey k with
  | other hl he ht =>
    have hold := (he.resolve_right (by simp [hk])).symm.trans hk
    have hcount : e'.fullTokens n k = e.fullTokens n k := ht _
    rcases hbal with heq | ⟨m, k', left, msg', rfl, hr, -, hk', -⟩
    · have := h.pending k msg hold
      omega
    · obtain rfl := hb.entry_unique ha hold hk'
      exact absurd hr (hl m left rfl)
  | register m msg' o' first hreg hby he hf ht =>
    cases he.symm.trans hk
    have hqueue : m ∈ e.actorRx := hm.queued fun x tag heq => by subst heq; cases hby
    have hbefore := h.fresh (ha.only_sends hqueue hby)
    rcases hbal with heq | ⟨m', k', left, msg', hl, hr, -⟩
    · left
      omega
    · cases hl
      rw [Msg.retry?_of_registers hreg] at hr
      cases hr
  | giveUp m left hr hn he ht =>
    have hold := he.symm.trans hk
    have hcount := ht fun left => left = .val n
    change e.fullTokens n k = e'.fullTokens n k + _ at hcount
    rcases hbal with heq | ⟨m', k', left', msg', hl, hr', hleft, hk', -⟩
    · have := h.pending k msg hold
      omega
    · cases hl
      cases hr.symm.trans hr'
      exact absurd (hn.resolve_left (by simp [hold])) hleft
  | retry m left v hr hleft he he' ht =>
    cases he'.symm.trans hk
    obtain ⟨rfl, hfull⟩ := hg m k left msg o rfl hr hleft he (hb.atLeastOnce_of_entry ha hq he)
    have hn : n ≠ 0 := fun hz => hleft (by rw [hz])
    have hnext : opts.maxMessageAttempts.decrement ≠ .val n := by
      rw [hlimit]
      cases n with
      | zero => exact absurd rfl hn
      | succ n => simp [Amount.decrement]
    have hcount := ht fun left => left = .val n
    simp only [decide_true, if_true, hnext, decide_false, Bool.false_eq_true, if_false] at hcount
    change e'.fullTokens n k + 1 = e.fullTokens n k + 0 at hcount
    have hbefore := h.pending k msg he
    rcases hbal with heq | ⟨-, -, -, -, -, -, -, -, heq⟩ <;> omega

theorem Allotted.bounded_moves (h : e.Allotted n o) (hb : e.Booked) (ha : e.Accounted opts)
    (hq : ∀ op, e.ops[o]? = some op → op.call.qos = .atLeastOnce)
    (hg : e.Affordable n l) (hm : e.Moves opts l e') : e'.pushes o ≤ e'.sends o + n := by
  rcases hm.balanced o with heq | ⟨m, k, left, msg, rfl, hr, hleft, hk, heq⟩
  · have := h.bounded
    omega
  · obtain ⟨rfl, hfull⟩ := hg m k left msg o rfl hr hleft hk (hb.atLeastOnce_of_entry ha hq hk)
    have hpos : 0 < e.fullTokens n k := by
      have hmem : m ∈ e.tokens := List.mem_append_right _
        (hm.queued fun x tag heq => by subst heq; cases hr)
      exact List.countP_pos_iff.mpr ⟨m, hmem, by simp [hr]⟩
    have hbefore := h.pending k msg hk
    omega

theorem Allotted.moves (h : e.Allotted n o) (hlimit : opts.maxMessageAttempts = .val n)
    (hb : e.Booked) (ha : e.Accounted opts)
    (hq : ∀ op, e.ops[o]? = some op → op.call.qos = .atLeastOnce)
    (hg : e.Affordable n l) (hm : e.Moves opts l e') : e'.Allotted n o where
  fresh := h.fresh_moves hb ha hm
  pending _ _ hk := h.pending_moves hlimit hb ha hq hg hm hk
  bounded := h.bounded_moves hb ha hq hg hm

theorem allotted_initial (n : ℕ) (o : OpId) : initial.Allotted n o := by
  refine ⟨fun _ => rfl, fun k msg hk => ?_, ?_⟩
  · cases k <;> cases hk
  · simp [pushes, initial, Tonic.empty]

end Exchange

namespace System

variable {opts : ClientOpts} {token : String} {s t : System} {tr : List (System × Action)}
  {n : ℕ} {a : Action}

/-- The step retries an at-least-once call with a timer that does not carry the full
limit, so that a retry has started it; or with one of more than `n` timers that do. -/
def overspends (n : ℕ) (s : System) (a : Action) : Bool :=
  ((s.handles a).bind Msg.retry?).any fun r =>
    r.2 ≠ .val 0 && (s.exchange.state.entry r.1).any fun v =>
      v.1.qos = .atLeastOnce && (r.2 ≠ .val n || n < s.exchange.fullTokens n r.1)

theorem affordable_of_not_overspends (h : s.overspends n a = false) :
    s.exchange.Affordable n (s.handles a) := by
  intro m k left msg o hl hr hleft hk hq
  simp only [overspends, hl, Option.bind_some, hr, Option.any_some, hk, hq, decide_true,
    Bool.true_and, ne_eq, hleft, not_false_eq_true, Bool.or_eq_false_iff, decide_eq_false_iff_not,
    not_not, Nat.not_lt] at h
  exact h

/-- In a run in which no step overspends, at-least-once calls are pushed once and then once
more for each retry that the limit allows, at most. -/
theorem boundedRetries_of_run (hlimit : opts.maxMessageAttempts = .val n)
    (h : Run (step opts) (initial token) tr t) (hg : ∀ x ∈ tr, x.1.overspends n x.2 = false) :
    ∀ u ∈ visited tr t, ∀ o op, u.exchange.ops[o]? = some op → op.call.qos = .atLeastOnce →
      u.exchange.pushes o ≤ n + 1 := by
  intro u hu o op ho hq
  obtain ⟨tr', -, hrun⟩ := h.of_visited hu
  have hallot := h.guarded_visited (P := fun u => (∀ op, u.exchange.ops[o]? = some op →
    op.call.qos = .atLeastOnce) → u.exchange.Allotted n o)
    (G := fun s a => s.overspends n a = false) hg (fun _ => Exchange.allotted_initial n o)
    (fun v w a hr hp hga hs hq' => ?_) hu fun op' ho' => by
      rwa [← Option.some.inj (ho.symm.trans ho')]
  · have hbound := hallot.bounded
    have hsends := (accounted_of_reachable ⟨tr', hrun⟩).sends_le o
    omega
  · have hm := moves_of_step hs
    have ha := accounted_of_reachable hr
    have hqv : ∀ op, v.exchange.ops[o]? = some op → op.call.qos = .atLeastOnce := by
      intro op' ho'
      obtain ⟨pc, hpc⟩ := hm.call ha.timers ho'
      exact hq' ⟨op'.call, pc⟩ hpc
    exact (hp hqv).moves hlimit (booked_of_reachable hr) ha hqv
      (affordable_of_not_overspends hga) hm

/-- Connected, with one at-least-once send pushed and registered. -/
def oneSend : List Action :=
  [.validate none, .dial .ok, .relayConnect none,
    .response (.message (some (.connectResponse "app" true "")) ⟨"", 0⟩),
    .client (.send ⟨.orb, [1], "orb", "ns", .atLeastOnce⟩), .client (.poll 0), .client (.poll 0),
    .take, .take]

/-- A send that is acked after its first retry, and then another one under way. -/
def ackedRetry : List Action :=
  oneSend ++ [.fire 1, .take, .response (.message (some (.ack 0 none)) ⟨"", 0⟩), .fire 1, .take,
    .client (.send ⟨.orb, [2], "orb", "ns", .atLeastOnce⟩), .client (.poll 1), .client (.poll 1),
    .take, .take, .fire 1, .take]

theorem ackedRetry_bounded :
    ∃ tr t, Run (step (limited (.val 2))) (initial "") tr t ∧
      (t.exchange.pushes 0, t.exchange.pushes 1) = (2, 2) ∧
      ∀ u ∈ visited tr t, ∀ o op, u.exchange.ops[o]? = some op → op.call.qos = .atLeastOnce →
        u.exchange.pushes o ≤ 2 + 1 := by
  have he : ((exec (step (limited (.val 2))) (initial "") ackedRetry).map fun s =>
      (s.exchange.pushes 0, s.exchange.pushes 1)) = some (2, 2) := by decide
  have hg : (trace (step (limited (.val 2))) (initial "") ackedRetry).all
      (fun x => !x.1.overspends 2 x.2) = true := by decide
  obtain ⟨t, ht, hp⟩ := Option.map_eq_some_iff.mp he
  have hrun := Run.of_exec_trace ht
  refine ⟨_, t, hrun, hp, boundedRetries_of_run rfl hrun fun x hx => ?_⟩
  simpa using List.all_eq_true.mp hg x hx

/-- With a limit of two, a send is pushed a fourth time. -/
theorem thirdRetry_pushed :
    ∃ t, Reachable (step (limited (.val 2))) (initial "") t ∧
      t.exchange.ops.map (fun op => op.call.qos) = [.atLeastOnce] ∧
      t.exchange.pushes 0 = 4 := by
  have he : ((exec (step (limited (.val 2))) (initial "")
      (oneSend ++ (List.replicate 3 [.fire 1, .take]).flatten)).map fun s =>
        (s.exchange.ops.map (fun op => op.call.qos), s.exchange.pushes 0)) =
          some ([.atLeastOnce], 4) := by decide
  obtain ⟨tr, t, h, hp⟩ := Run.of_exec_map he
  exact ⟨t, ⟨tr, h⟩, Prod.mk.inj hp⟩

end System
end OrbRelay.Client
