import OrbRelay.Client.Acks
import OrbRelay.Client.Inbound
import OrbRelay.Client.Outbound
import OrbRelay.Client.Retries

/-!
# What retries send again

A retry sends the frame of the call whose entry it finds, and finds none once that
call is completed. The entry of an at-most-once ask has a timer without retries, so
only the timer of another ask under its key could send it again.
-/
namespace OrbRelay.Client
open Transition

namespace Exchange

variable {opts : ClientOpts} {e e' : Exchange} {l : Option Msg} {o : OpId} {op : Op}

/-! ## Timers of asks -/

/-- A timer that may resend an ask was started for an at-least-once ask under its key. -/
def AskTimers (e : Exchange) : Prop :=
  ∀ id k left, .retryAsk id k left ∈ e.tokens → left ≠ .val 0 →
    ∃ msg o, .waitForReply msg o k ∈ e.handled ∧ msg.targetId = id ∧ msg.qos = .atLeastOnce

theorem mem_tokens_of_sleep {m t : Msg} (h : m ∈ (e.sleep t).tokens) : m = t ∨ m ∈ e.tokens := by
  simp only [tokens, sleep, List.mem_append, List.mem_singleton] at h ⊢
  tauto

theorem mem_tokens_of_post {m t : Msg} (h : m ∈ (e.post t).tokens) : m = t ∨ m ∈ e.tokens := by
  simp only [tokens, post, List.mem_append, List.mem_singleton] at h ⊢
  tauto

theorem askRetries_ne {qos : QoS} (h : askRetries opts qos ≠ .val 0) : qos = .atLeastOnce := by
  cases qos with
  | atMostOnce => exact absurd rfl h
  | atLeastOnce => rfl

/-- Where a token of an ask with retries left comes from, when a message is handled. -/
theorem token_of_handled {m : Msg} (h : Handled opts e m e') {id : ClientId} {k : Seq}
    {left : Amount} (hm : .retryAsk id k left ∈ e'.tokens) (hl : left ≠ .val 0) :
    .retryAsk id k left ∈ e.tokens ∨
      (∃ left', left' ≠ .val 0 ∧ m = .retryAsk id k left') ∨
      ∃ msg o, m = .waitForReply msg o k ∧ msg.targetId = id ∧ msg.qos = .atLeastOnce := by
  cases h with
  | waitForAck msg o seq => exact .inl ((mem_tokens_of_sleep hm).resolve_left (by simp))
  | waitForReply msg o seq =>
    rcases mem_tokens_of_sleep hm with heq | hm
    · cases heq
      exact .inr (.inr ⟨msg, o, rfl, rfl, askRetries_ne hl⟩)
    · exact .inl hm
  | retryAck seq left msg o hp hl => exact .inl ((mem_tokens_of_sleep hm).resolve_left (by simp))
  | retryAsk id seq left' msg o hp hl' =>
    rcases mem_tokens_of_sleep hm with heq | hm
    · cases heq
      exact .inr (.inl ⟨left', hl', rfl⟩)
    · exact .inl hm
  | heartbeat => exact .inl ((mem_tokens_of_sleep hm).resolve_left (by simp))
  | _ => exact .inl hm

theorem AskTimers.handled {e₁ : Exchange} {m : Msg} (h : e.AskTimers)
    (hh : Handled opts e₁ m e') (ht : ∀ x ∈ e₁.tokens, x ∈ e.tokens)
    (hm : m ∈ e.actorRx ∨ m.retries? = none) (hd : e'.handled = e.handled ++ [m]) :
    e'.AskTimers := by
  intro id k left hmem hl
  have hold : ∀ left', .retryAsk id k left' ∈ e.tokens → left' ≠ .val 0 →
      ∃ msg o, .waitForReply msg o k ∈ e'.handled ∧ msg.targetId = id ∧
        msg.qos = .atLeastOnce := by
    intro left' hmem' hl'
    obtain ⟨msg, o, hw, hid, hq⟩ := h id k left' hmem' hl'
    exact ⟨msg, o, hd ▸ List.mem_append_left _ hw, hid, hq⟩
  rcases token_of_handled hh hmem hl with hmem | ⟨left', hl', rfl⟩ | ⟨msg, o, rfl, hid, hq⟩
  · exact hold left (ht _ hmem) hl
  · rcases hm with hm | hm
    · exact hold left' (List.mem_append_right _ hm) hl'
    · simp [Msg.retries?, hl'] at hm
  · exact ⟨msg, o, by simp [hd], hid, hq⟩

theorem AskTimers.mono (h : e.AskTimers) (ht : ∀ x ∈ e'.tokens, x ∈ e.tokens ∨ x.retries? = none)
    (hd : e.handled ⊆ e'.handled) : e'.AskTimers := by
  intro id k left hm hl
  rcases ht _ hm with hm | hm
  · obtain ⟨msg, o, hw, hrest⟩ := h id k left hm hl
    exact ⟨msg, o, hd hw, hrest⟩
  · simp [Msg.retries?, hl] at hm

theorem AskTimers.moves (h : e.AskTimers) (hm : e.Moves opts l e') : e'.AskTimers := by
  have hd := hm.handled
  have hpost : ∀ m : Msg, m.retries? = none → ∀ x ∈ (e.post m).tokens,
      x ∈ e.tokens ∨ x.retries? = none := by
    intro m hr x hx
    rcases mem_tokens_of_post hx with rfl | hx
    · exact .inr hr
    · exact .inl hx
  have hrest : ∀ {msg rest}, e.actorRx = msg :: rest →
      ∀ x ∈ ({ e with actorRx := rest }.note msg).tokens, x ∈ e.tokens := by
    intro msg rest hq x hx
    simp only [tokens, note, hq, List.mem_append, List.mem_cons] at hx ⊢
    tauto
  cases hm with
  | stay => exact h
  | tonic p hp => exact h
  | dial p request n hp => exact h
  | heartbeat =>
    refine h.mono (fun x hx => ?_) (List.Subset.refl _)
    rcases mem_tokens_of_sleep hx with rfl | hx
    · exact .inr rfl
    · exact .inl hx
  | called hc =>
    cases hc with
    | enqueue o op pc ho hpc hpc' => exact h.mono (hpost _ rfl) (List.Subset.refl _)
    | register o op msg ho hpc hw =>
      exact h.mono (hpost msg (Msg.retries?_eq_none (op.call.waiter_timer hw))) (List.Subset.refl _)
    | control msg hc =>
      exact h.mono (hpost msg (by rcases hc with rfl | rfl <;> rfl)) (List.Subset.refl _)
    | _ => exact h
  | fire i msg hi =>
    refine h.mono (fun x hx => .inl ?_) (List.Subset.refl _)
    rcases mem_tokens_of_post hx with rfl | hx
    · exact List.mem_append_left _ (List.mem_of_getElem? hi)
    · simp only [tokens, List.mem_append] at hx ⊢
      exact hx.imp_left List.mem_of_mem_eraseIdx
  | forward msg tag => exact h.mono (hpost _ rfl) (List.Subset.refl _)
  | take msg rest hq hh => exact h.handled hh (hrest hq) (.inl (by simp [hq])) hd
  | takeFail msg rest p hq hf hp =>
    exact h.mono (fun x hx => .inl (hrest hq x hx)) (hd ▸ List.subset_append_left _ _)
  | read msg tag hq hh => exact h.handled hh (fun x hx => hx) (.inr rfl) hd
  | readFail msg tag p hq hf hp =>
    exact h.mono (fun x hx => .inl hx) (hd ▸ List.subset_append_left _ _)

/-- Under one key, a numbered ask and the at-least-once ask of a timer are one, as long
as no number has been used twice. -/
theorem AskTimers.atLeastOnce (h : e.AskTimers) (hb : e.Booked) (ha : e.Accounted opts)
    (hn : e.Numbered) (hcalls : e.calls.countP Call.own ≤ 2 ^ 64) {id : ClientId} {k : Seq}
    {msg : SendMessage} {left : Amount}
    (hp : e.state.pendingReplies (id, k) = some (msg, o)) (hm : .retryAsk id k left ∈ e.tokens)
    (hl : left ≠ .val 0) : msg.qos = .atLeastOnce := by
  obtain ⟨msg', o', hw', -, hq⟩ := h id k left hm hl
  obtain ⟨-, op, ho, hcall⟩ := hb.call_of_ask ha hp
  obtain ⟨op', ho', hwait⟩ := ha.waiter_of_handled hw' rfl rfl
  have hask := op'.call.ask_of_waiter hwait
  have hget : e.calls[o]? = some (.ask msg k) := hcall ▸ calls_get ho
  have hget' : e.calls[o']? = some (.ask msg' k) := hask ▸ calls_get ho'
  have hlt := ownBefore_lt_count hget rfl
  have hlt' := ownBefore_lt_count hget' rfl
  obtain rfl : o = o' := hn.eq_of_near hget hget' rfl rfl rfl (by constructor <;> omega)
  cases hget.symm.trans hget'
  exact hq

/-- The call that waits for an ack is at-least-once, and its retry is its first frame. -/
theorem Booked.call_of_ack (hb : e.Booked) (ha : e.Accounted opts) {k : Seq}
    {msg : SendMessage} (hp : e.state.pendingAcks k = some (msg, o)) :
    ∃ op, e.ops[o]? = some op ∧ op.call.qos = .atLeastOnce ∧
      relayPayload opts msg k = op.call.relayPayload opts := by
  obtain ⟨op, ho, hw⟩ := ha.waiter_of_handled (hb.acks k msg o hp) rfl rfl
  refine ⟨op, ho, ?_, Call.relayPayload_of_waiter (.inl hw)⟩
  rcases op.call.waiter_eq_ok hw with ⟨msg', hc, hq, -⟩ | ⟨msg', -, hm⟩ | ⟨on, payload, t, hc, -⟩
  · rw [hc]
    exact hq
  · cases hm
  · rw [hc]
    rfl

/-! ## At most once -/

/-- How often streams have yielded the frame of a call. -/
def yieldedTimes (e : Exchange) (o : OpId) : ℕ :=
  (e.tonic.streams.flatMap Forwarder.yielded).countP fun f => f.origin = .op o

/-- An at-most-once call has no more pushes than handled `Send`s. -/
def NoResends (e : Exchange) : Prop :=
  ∀ o, (∀ op, e.ops[o]? = some op → op.call.qos = .atMostOnce) → e.pushes o ≤ e.sends o

theorem NoResends.moves (h : e.NoResends) (ht : e.AskTimers) (hb : e.Booked)
    (ha : e.Accounted opts) (hn : e.Numbered) (hcalls : e.calls.countP Call.own ≤ 2 ^ 64)
    (hm : e.Moves opts l e') : e'.NoResends := by
  intro o hq'
  have hq : ∀ op, e.ops[o]? = some op → op.call.qos = .atMostOnce := by
    intro op ho
    obtain ⟨pc, hpc⟩ := hm.call ha.timers ho
    exact hq' ⟨op.call, pc⟩ hpc
  have hold := h o hq
  rcases hm.balanced o with heq | ⟨m, k, left, msg, rfl, hr, hleft, hk, -⟩
  · omega
  · cases k with
    | ack k =>
      obtain ⟨op, ho, hqos, -⟩ := hb.call_of_ack ha hk
      simp [hq op ho] at hqos
    | ask id k =>
      obtain rfl := Msg.retryAsk_of_retry? hr
      have hqueue := List.mem_append_right e.sleeping (hm.queued (by simp))
      have hqos := ht.atLeastOnce hb ha hn hcalls hk hqueue hleft
      obtain ⟨-, op, ho, hcall⟩ := hb.call_of_ask ha hk
      have := hq op ho
      rw [hcall] at this
      cases hqos.symm.trans this

theorem flatMap_sublist {α β : Type*} {l : List α} {f g : α → List β}
    (h : ∀ a ∈ l, (f a).Sublist (g a)) : (l.flatMap f).Sublist (l.flatMap g) := by
  induction l with
  | nil => exact List.Sublist.slnil
  | cons a l ih =>
    rw [List.flatMap_cons, List.flatMap_cons]
    exact (h a (by simp)).append (ih fun b hb => h b (by simp [hb]))

/-- What streams yield was pushed, and each push is yielded once. -/
theorem yieldedTimes_le (hi : e.tonic.Inv) (o : OpId) : e.yieldedTimes o ≤ e.pushes o := by
  rw [pushes, ← hi.conserved, yieldedTimes]
  refine List.Sublist.countP_le ?_
  refine (flatMap_sublist fun w hw => ?_).trans (List.sublist_append_left _ _)
  exact (hi.ordered w hw).yields.sublist

end Exchange

namespace System

variable {opts : ClientOpts} {token : String} {s t : System} {o : OpId} {op : Op}

theorem askTimers_of_reachable (h : Reachable (step opts) (initial token) s) :
    s.exchange.AskTimers :=
  h.invariant (P := fun s => s.exchange.AskTimers)
    (by simp [Exchange.AskTimers, initial, Exchange.initial, Exchange.tokens])
    fun _ _ _ _ hp hs => hp.moves (moves_of_step hs)

theorem noResends_of_reachable (h : Reachable (step opts) (initial token) s)
    (hcalls : s.exchange.calls.countP Call.own ≤ 2 ^ 64) : s.exchange.NoResends := by
  refine h.invariant (P := fun s => s.exchange.calls.countP Call.own ≤ 2 ^ 64 →
    s.exchange.NoResends) ?_ (fun u v a hr hp hs hv => ?_) hcalls
  · intro _ o _
    simp [Exchange.pushes, initial, Exchange.initial, Tonic.empty]
  · have hm := moves_of_step hs
    have hu := (hm.calls_kept.sublist.countP_le (p := Call.own)).trans hv
    exact (hp hu).moves (askTimers_of_reachable hr) (booked_of_reachable hr)
      (accounted_of_reachable hr) (numbered_of_reachable hr) hu hm

/-- The frame of an at-most-once call is pushed and yielded at most once, over all
connections, before the numbers of sends and asks repeat. -/
theorem atMostOnce_of_reachable (h : Reachable (step opts) (initial token) s)
    (hcalls : s.exchange.calls.countP Call.own < 2 ^ 64) (ho : s.exchange.ops[o]? = some op)
    (hq : op.call.qos = .atMostOnce) :
    s.exchange.pushes o ≤ 1 ∧ s.exchange.yieldedTimes o ≤ 1 := by
  have hpushes : s.exchange.pushes o ≤ 1 := by
    refine (noResends_of_reachable h hcalls.le o fun op' ho' => ?_).trans
      ((accounted_of_reachable h).sends_le o)
    rw [← Option.some.inj (ho.symm.trans ho')]
    exact hq
  exact ⟨hpushes,
    (Exchange.yieldedTimes_le (serving_of_reachable h).inv o).trans hpushes⟩

/-- An at-most-once ask goes out, and its timer goes off before any reply. -/
def askUnanswered : List Action :=
  askPending ++ [.tonic (.poll 0), .tonic (.handOver 0), .tonic (.poll 0), .tonic (.handOver 0),
    .tonic (.yield_ 0), .tonic (.yield_ 0), .fire 1, .take]

theorem askUnanswered_once :
    ∃ s op, Reachable (step (.build .app "app" "ns" (.token "t"))) (initial "") s ∧
      s.exchange.ops[0]? = some op ∧ op.call = .ask ⟨.orb, [1], "orb", "ns", .atMostOnce⟩ 0 ∧
      s.yields = [[.connect 1, .op 0]] ∧
      s.exchange.pushes 0 ≤ 1 ∧ s.exchange.yieldedTimes 0 ≤ 1 := by
  have he : ((exec (step (.build .app "app" "ns" (.token "t"))) (initial "") askUnanswered).map
      fun s => (s.exchange.calls, s.yields)) =
        some ([.ask ⟨.orb, [1], "orb", "ns", .atMostOnce⟩ 0], [[.connect 1, .op 0]]) := by decide
  obtain ⟨tr, s, h, hp⟩ := Run.of_exec_map he
  obtain ⟨hc, hy⟩ := Prod.mk.inj hp
  obtain ⟨op, hop, hcall⟩ : ∃ op, s.exchange.ops[0]? = some op ∧
      op.call = .ask ⟨.orb, [1], "orb", "ns", .atMostOnce⟩ 0 := by
    have h0 := congrArg (·[0]?) hc
    simpa [Exchange.calls] using h0
  exact ⟨s, op, ⟨tr, h⟩, hop, hcall, hy,
    atMostOnce_of_reachable ⟨tr, h⟩ (by rw [hc]; decide) hop (by rw [hcall]; rfl)⟩

/-! ## Retransmissions -/

end System

def Msg.isRetry : Msg → Bool
  | .retryAck _ _ | .retryAsk _ _ _ => true
  | _ => false

/-- The entry of a call is in one of the maps. -/
def Exchange.PendingCall (e : Exchange) (o : OpId) : Prop :=
  (∃ k msg, e.state.pendingAcks k = some (msg, o)) ∨
    ∃ key msg, e.state.pendingReplies key = some (msg, o)

/-- The frame `f` is the first frame of call `o`, which was pushed before, and the call
is still pending: it was neither acknowledged nor answered. -/
structure Exchange.Resendable (opts : ClientOpts) (e : Exchange) (f : Frame) (o : OpId) (op : Op) :
    Prop where
  call : e.ops[o]? = some op
  frame : f = ⟨.payload (op.call.relayPayload opts), .op o⟩
  sent : .send f ∈ e.handled ∧ f ∈ e.tonic.pushed
  pending : e.PendingCall o
  uncompleted : o ∉ e.acked ∧ o ∉ e.answered.map Prod.fst

namespace System

variable {opts : ClientOpts} {token : String} {s v t : System} {a : Action} {f : Frame}
  {tr : List (System × Action)} {m : Msg}

/-- Whatever a retry pushes is the frame of a pending call that `Q` holds of. -/
def Resends (opts : ClientOpts) (s : System) (a : Action) (Q : Call → Prop) : Prop :=
  ∀ v m new, s.step opts a = some v → s.handles a = some m → m.isRetry = true →
    v.exchange.tonic.pushed = s.exchange.tonic.pushed ++ new →
      ∀ f ∈ new, ∃ o op, s.exchange.Resendable opts f o op ∧ Q op.call

theorem resendable_of_ack (hr : Reachable (step opts) (initial token) s) {k : Seq}
    {msg : SendMessage} {o : OpId} (hk : s.exchange.state.pendingAcks k = some (msg, o)) :
    ∃ op, s.exchange.Resendable opts ⟨.payload (relayPayload opts msg k), .op o⟩ o op ∧
      op.call.qos = .atLeastOnce := by
  have hb := booked_of_reachable hr
  have ha := accounted_of_reachable hr
  obtain ⟨op, ho, hq, hpay⟩ := hb.call_of_ack ha hk
  have hw := hb.acks k msg o hk
  have hsent := ha.retry_handled (.inl hw)
  refine ⟨op, ⟨ho, by rw [hpay], ⟨hsent, hb.sends _ hsent⟩, .inl ⟨k, msg, hk⟩,
    pendingOpen_of_reachable hr k msg o hk, fun hmem => ?_⟩, hq⟩
  obtain ⟨x, hx, rfl⟩ := List.mem_map.mp hmem
  obtain ⟨msg', hw', -⟩ := hb.answered x hx
  cases ha.same_waiter hw rfl rfl hw' rfl rfl

theorem resendable_of_ask (hr : Reachable (step opts) (initial token) s) {id : ClientId} {k : Seq}
    {msg : SendMessage} {o : OpId}
    (hk : s.exchange.state.pendingReplies (id, k) = some (msg, o)) :
    ∃ op, s.exchange.Resendable opts ⟨.payload (relayPayload opts msg k), .op o⟩ o op ∧
      op.call = .ask msg k := by
  have hb := booked_of_reachable hr
  have ha := accounted_of_reachable hr
  obtain ⟨-, op, ho, hcall⟩ := hb.call_of_ask ha hk
  have hw := (hb.replies id k msg o hk).1
  have hsent := ha.retry_handled (.inr hw)
  refine ⟨op, ⟨ho, by rw [hcall]; rfl, ⟨hsent, hb.sends _ hsent⟩, .inr ⟨(id, k), msg, hk⟩,
    fun hmem => ?_, (askedOnce_of_reachable hr).pending id k msg o hk⟩, hcall⟩
  obtain ⟨msg', k', hw'⟩ := hb.acked o hmem
  cases ha.same_waiter hw rfl rfl hw' rfl rfl

/-- What a retry pushes is the first frame of a call that was pushed before and is still
pending. It is an at-least-once call as long as no number has been used twice. -/
theorem resends_of_reachable (hr : Reachable (step opts) (initial token) s) (a : Action) :
    s.Resends opts a fun call =>
      s.exchange.calls.countP Call.own ≤ 2 ^ 64 → call.qos = .atLeastOnce := by
  intro v m new hs hm hretry hnew f hf
  have hmoves := moves_of_step hs
  rw [hm] at hmoves
  have hsingle : ∀ {g : Frame}, v.exchange.tonic.pushed = s.exchange.tonic.pushed ++ [g] →
      f = g := by
    intro g hg
    obtain rfl := List.append_cancel_left (hnew.symm.trans hg)
    exact List.mem_singleton.mp hf
  cases hmoves.pushed with
  | none hl hp =>
    obtain rfl : new = [] := by simpa [hp] using hnew
    cases hf
  | own g hl hg hp =>
    rcases hl with hl | hl <;> cases hl
    cases hretry
  | send g hp => cases hretry
  | retryAck k left msg o hk hl hp =>
    obtain ⟨op, hres, hq⟩ := resendable_of_ack hr hk
    exact ⟨o, op, hsingle hp ▸ hres, fun _ => hq⟩
  | retryAsk id k left msg o hk hl hp =>
    obtain ⟨op, hres, hcall⟩ := resendable_of_ask hr hk
    have hqueue := List.mem_append_right s.exchange.sleeping (hmoves.queued (by simp))
    refine ⟨o, op, hsingle hp ▸ hres, fun hcalls => ?_⟩
    rw [hcall]
    exact (askTimers_of_reachable hr).atLeastOnce (booked_of_reachable hr)
      (accounted_of_reachable hr) (numbered_of_reachable hr) hcalls hk hqueue hl

theorem oneSend_resends :
    ∃ s, Reachable (step (limited .infinite)) (initial "") s ∧
      s.handles .take = some (.retryAck 0 .infinite) ∧
      s.Resends (limited .infinite) .take fun call =>
        s.exchange.calls.countP Call.own ≤ 2 ^ 64 → call.qos = .atLeastOnce := by
  have he : ((exec (step (limited .infinite)) (initial "") (oneSend ++ [.fire 1])).map fun s =>
      s.handles .take) = some (some (.retryAck 0 .infinite)) := by decide
  obtain ⟨tr, s, h, hp⟩ := Run.of_exec_map he
  exact ⟨s, ⟨tr, h⟩, hp, resends_of_reachable ⟨tr, h⟩ .take⟩

/-! ## A number that comes around again -/

/-- An at-least-once ask is answered while its timer sleeps. -/
def answeredAsk : List Action :=
  [.validate none, .dial .ok, .relayConnect none,
    .response (.message (some (.connectResponse "app" true "")) ⟨"", 0⟩),
    .client (.ask ⟨.orb, [1], "orb", "ns", .atLeastOnce⟩), .client (.poll 0), .client (.poll 0),
    .take, .take, fromOrb 0]

/-- The client works, the counter is at `n`, nothing is queued, and the timer of that
ask is still asleep. -/
structure TimerAsleep (s : System) (n : Seq) : Prop where
  connected : s.phase = .connected
  alive : s.exchange.clientsAlive = true
  queue : s.exchange.actorRx = []
  timers : s.exchange.sleeping = [.heartbeat, .retryAsk "orb" 0 .infinite]
  seq : s.exchange.seq = n

/-- Sends that no task has begun to work on change nothing but the counter. -/
theorem timerAsleep_sends {n : Seq} (h : s.TimerAsleep n) (msg : SendMessage) (k : ℕ) :
    ∃ t, exec (step opts) s (List.replicate k (.client (.send msg))) = some t ∧
      t.TimerAsleep (n + UInt64.ofNat k) := by
  induction k generalizing s n with
  | zero => exact ⟨s, rfl, by simpa using h⟩
  | succ k ih =>
    let e : Exchange := { s.exchange with
      seq := s.exchange.seq + 1
      ops := s.exchange.ops ++ [⟨.send msg s.exchange.seq, .enqueue⟩] }
    have hstep : s.step opts (.client (.send msg)) = some { s with exchange := e } := by
      simp [step, Exchange.client, h.alive, e]
    obtain ⟨t, ht, hasleep⟩ := ih (s := { s with exchange := e }) (n := n + 1)
      ⟨h.connected, h.alive, h.queue, h.timers, congrArg (· + 1) h.seq⟩
    refine ⟨t, by simp [List.replicate_succ, exec, hstep, ht], ?_⟩
    have hn : n + UInt64.ofNat (k + 1) = n + 1 + UInt64.ofNat k := by
      rw [UInt64.ofNat_add, UInt64.add_comm (UInt64.ofNat k), UInt64.add_assoc]
      rfl
    rw [hn]
    exact hasleep

/-- An at-most-once ask to the orb. -/
def lateAsk : SendMessage := ⟨.orb, [2], "orb", "ns", .atMostOnce⟩

/-- With the counter back at zero, an at-most-once ask takes over the key of that timer. -/
theorem timerAsleep_lateAsk (h : s.TimerAsleep 0) {n : OpId} (hn : s.exchange.ops.length = n) :
    ∃ t op, exec (step opts) s [.client (.ask lateAsk), .client (.poll n), .client (.poll n),
        .take, .take, .fire 1] = some t ∧
      t.phase = .connected ∧ t.exchange.actorRx = [.retryAsk "orb" 0 .infinite] ∧
      t.exchange.state.pendingReplies ("orb", 0) = some (lateAsk, n) ∧
      t.exchange.ops[n]? = some op ∧ op.call = .ask lateAsk 0 := by
  obtain ⟨hc, halive, hq, ht, hseq⟩ := h
  let call : Call := .ask lateAsk 0
  let f : Frame := ⟨.payload (call.relayPayload opts), .op n⟩
  let e₁ : Exchange := { s.exchange with
    seq := s.exchange.seq + 1, ops := s.exchange.ops ++ [⟨call, .enqueue⟩] }
  let e₂ : Exchange := (e₁.post (.send f)).setPc n ⟨call, .enqueue⟩ .register
  let e₃ : Exchange := (e₂.post (.waitForReply lateAsk n 0)).setPc n ⟨call, .register⟩ .wait
  let e₄ : Exchange := ({ e₃ with actorRx := [.waitForReply lateAsk n 0] }.note (.send f)).tonicTx f
  let e₅ : Exchange := { e₄ with actorRx := [] }.note (.waitForReply lateAsk n 0)
  let e₆ : Exchange := { e₅ with state := e₅.state.insertReply ("orb", 0) (lateAsk, n) }.sleep
    (.retryAsk "orb" 0 (.val 0))
  let e₇ : Exchange := { e₆ with sleeping := e₆.sleeping.eraseIdx 1 }.post
    (.retryAsk "orb" 0 .infinite)
  have ho₁ : e₁.ops[n]? = some ⟨call, .enqueue⟩ := by simp [e₁, ← hn]
  have ho₂ : e₂.ops[n]? = some ⟨call, .register⟩ := by
    have hget : e₂.ops[n]? = _ := Exchange.setPc_get (e := e₁.post (.send f)) ho₁ n
    simpa using hget
  have ho₃ : e₃.ops[n]? = some ⟨call, .wait⟩ := by
    have hget : e₃.ops[n]? = _ :=
      Exchange.setPc_get (e := e₂.post (.waitForReply lateAsk n 0)) ho₂ n
    simpa using hget
  have hask : s.step opts (.client (.ask lateAsk)) = some { s with exchange := e₁ } := by
    simp [step, Exchange.client, halive, hseq, e₁, call]
  have hfirst : step opts { s with exchange := e₁ } (.client (.poll n)) =
      some { s with exchange := e₂ } := by
    simp [step, Exchange.client, ho₁, Exchange.poll, hc, Phase.isEnded, Call.waiter, e₂, f, call]
  have hsecond : step opts { s with exchange := e₂ } (.client (.poll n)) =
      some { s with exchange := e₃ } := by
    simp [step, Exchange.client, ho₂, Exchange.poll, hc, Phase.isEnded, Call.waiter, e₃, call]
  have hq₃ : e₃.actorRx = [.send f, .waitForReply lateAsk n 0] := by
    simp [e₃, e₂, e₁, Exchange.post, Exchange.setPc, hq]
  have htake : step opts { s with exchange := e₃ } .take = some { s with exchange := e₄ } := by
    simp [step, hc, hq₃, handle, handleMsg, e₄]
  have htake' : step opts { s with exchange := e₄ } .take = some { s with exchange := e₆ } := by
    have hq₄ : e₄.actorRx = [.waitForReply lateAsk n 0] := rfl
    simp [step, hc, hq₄, handle, handleMsg, e₆, e₅, lateAsk, askRetries]
  have ht₆ : e₆.sleeping[1]? = some (.retryAsk "orb" 0 .infinite) := by
    have hs : e₆.sleeping = s.exchange.sleeping ++ [.retryAsk "orb" 0 (.val 0)] := rfl
    simp [hs, ht]
  have hfire : step opts { s with exchange := e₆ } (.fire 1) = some { s with exchange := e₇ } := by
    simp [step, hc, ht₆, Phase.isEnded, e₇]
  refine ⟨{ s with exchange := e₇ }, ⟨call, .wait⟩, ?_, hc, rfl, ?_, ho₃, rfl⟩
  · simp only [exec, hask, hfirst, hsecond, htake, htake', hfire, Option.bind_some]
  · simp [e₇, e₆, Exchange.post, Exchange.sleep, State.insertReply]

/-- After `2 ^ 64` calls the timer of an answered ask resends an at-most-once ask. -/
theorem lateAsk_resent :
    ∃ s, Reachable (step (limited .infinite)) (initial "") s ∧
      ¬ s.Resends (limited .infinite) .take fun call => call.qos = .atLeastOnce := by
  have he : ((exec (step (limited .infinite)) (initial "") answeredAsk).map fun s =>
      (s.phase.isConnected, s.exchange.clientsAlive, s.exchange.actorRx, s.exchange.sleeping,
        s.exchange.seq)) =
          some (true, true, [], [.heartbeat, .retryAsk "orb" 0 .infinite], 1) := by decide
  obtain ⟨tr, s₀, h₀, hp⟩ := Run.of_exec_map he
  simp only [Prod.mk.injEq] at hp
  obtain ⟨hc, halive, hq, ht, hseq⟩ := hp
  have hasleep : s₀.TimerAsleep 1 := ⟨Phase.isConnected_iff.mp hc, halive, hq, ht, hseq⟩
  obtain ⟨s₁, h₁, hasleep⟩ : ∃ s, Reachable (step (limited .infinite)) (initial "") s ∧
      s.TimerAsleep 0 := by
    obtain ⟨s₁, hx, h₁⟩ := timerAsleep_sends hasleep lateAsk (2 ^ 64 - 1)
    exact ⟨s₁, Reachable.exec ⟨tr, h₀⟩ hx, by simpa using h₁⟩
  obtain ⟨s, op, hx, hph, hrx, hk, hop, hcall⟩ := timerAsleep_lateAsk hasleep rfl
  have hr : Reachable (step (limited .infinite)) (initial "") s := h₁.exec hx
  refine ⟨s, hr, fun hres => ?_⟩
  let f : Frame := ⟨.payload (relayPayload (limited .infinite) lateAsk 0),
    .op s₁.exchange.ops.length⟩
  let e : Exchange := (({ s.exchange with actorRx := [] }.note
    (.retryAsk "orb" 0 .infinite)).tonicTx f).sleep (.retryAsk "orb" 0 .infinite)
  have hstep : s.step (limited .infinite) .take = some { s with exchange := e } := by
    simp only [step, hph, hrx, handle, handleMsg, Exchange.note, hk]
    rfl
  obtain ⟨o, op', hsend, hqos⟩ :=
    hres _ (.retryAsk "orb" 0 .infinite) [f] hstep (by simp [handles, hrx]) rfl rfl f
      (List.mem_singleton_self f)
  obtain rfl : s₁.exchange.ops.length = o := Origin.op.inj (congrArg Frame.origin hsend.frame)
  obtain rfl := Option.some.inj (hop.symm.trans hsend.call)
  rw [hcall] at hqos
  cases hqos

end System
end OrbRelay.Client
