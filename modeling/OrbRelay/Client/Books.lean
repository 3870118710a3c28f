import OrbRelay.Client.Trail

/-!
# What the actor does with the messages of a call

The maps, the tonic queue and the channels of the calls hold nothing but what comes
from handled messages. The first message of a call is handled before its waiter, and
what the call returns came through its channel.
-/
namespace OrbRelay.Client
open Transition

namespace Exchange

variable {opts : ClientOpts} {e e' : Exchange} {l : Option Msg} {o : OpId} {op : Op} {m : Msg}

theorem mem_issued (hm : m ∈ e.trail) (ho : m.by? = some o) : m ∈ e.issued o := by
  simp [issued, hm, ho]

/-- A message of a call is one of its two. -/
theorem Accounted.of_trail (h : e.Accounted opts) (hm : m ∈ e.trail) (hb : m.by? = some o) :
    ∃ op, e.ops[o]? = some op ∧ (m = op.call.first opts o ∨ op.call.waiter o = some (.ok m)) := by
  have hi := mem_issued hm hb
  cases ho : e.ops[o]? with
  | none => simp [h.absent o ho] at hi
  | some op =>
    refine ⟨op, rfl, ?_⟩
    rcases (h.calls o op ho).shape with hs | hs | ⟨w, hw, hs⟩ <;> rw [hs] at hi
    · cases hi
    · exact .inl (List.mem_singleton.mp hi)
    · rcases List.mem_cons.mp hi with hi | hi
      · exact .inl hi
      · exact .inr (List.mem_singleton.mp hi ▸ hw)

/-- A message of a call that is not its `Send` is its waiter. -/
theorem Accounted.waiter_of_trail (h : e.Accounted opts) (hm : m ∈ e.trail)
    (hb : m.by? = some o) (hs : m.isSend = false) :
    ∃ op, e.ops[o]? = some op ∧ op.call.waiter o = some (.ok m) := by
  obtain ⟨op, ho, rfl | hw⟩ := h.of_trail hm hb
  · cases hs
  · exact ⟨op, ho, hw⟩

theorem Accounted.waiter_of_handled (h : e.Accounted opts) (hm : m ∈ e.handled)
    (hb : m.by? = some o) (hs : m.isSend = false) :
    ∃ op, e.ops[o]? = some op ∧ op.call.waiter o = some (.ok m) :=
  h.waiter_of_trail (List.mem_append_left _ hm) hb hs

/-- The actor handles the `Send` of a call before its waiter. -/
theorem Accounted.first_handled (h : e.Accounted opts) (ho : e.ops[o]? = some op)
    (hw : op.call.waiter o = some (.ok m)) (hm : m ∈ e.handled) :
    op.call.first opts o ∈ e.handled := by
  have hi := mem_issued (List.mem_append_left _ hm) (Call.waiter_by? hw)
  have hne : m ≠ op.call.first opts o := fun heq => op.call.waiter_ne_send o _ (heq ▸ hw)
  have hsplit : e.issued o = e.handled.filter (fun m => m.by? = some o) ++
      e.actorRx.filter fun m => m.by? = some o := List.filter_append ..
  have hfm : m ∈ e.handled.filter fun m => m.by? = some o := by
    simp [hm, Call.waiter_by? hw]
  suffices op.call.first opts o ∈ e.handled.filter fun m => m.by? = some o from
    (List.mem_filter.mp this).1
  rcases (h.calls o op ho).shape with hs | hs | ⟨w, -, hs⟩ <;> rw [hs] at hi hsplit
  · cases hi
  · exact absurd (List.mem_singleton.mp hi) hne
  · -- the handled part is not empty, so it starts with the first message
    cases hf : e.handled.filter fun m => m.by? = some o with
    | nil => simp [hf] at hfm
    | cons x rest =>
      rw [hf, List.cons_append] at hsplit
      simp [(List.cons.inj hsplit).1]

/-- Once the waiter of a call has been handled, nothing of the call is left in the queue. -/
theorem Accounted.nothing_left (h : e.Accounted opts) (ho : e.ops[o]? = some op)
    (hw : op.call.waiter o = some (.ok m)) (hm : m ∈ e.handled) :
    ∀ m' ∈ e.actorRx, m'.by? ≠ some o := by
  intro m' hm' hb
  have hsplit : e.issued o = e.handled.filter (fun m => m.by? = some o) ++
      e.actorRx.filter fun m => m.by? = some o := List.filter_append ..
  have hfirst : op.call.first opts o ∈ e.handled.filter fun m => m.by? = some o := by
    simp [h.first_handled ho hw hm]
  have hsecond : m ∈ e.handled.filter fun m => m.by? = some o := by
    simp [hm, Call.waiter_by? hw]
  have hthird : m' ∈ e.actorRx.filter fun m => m.by? = some o := by simp [hm', hb]
  have hne : op.call.first opts o ≠ m := fun heq => op.call.waiter_ne_send o _ (heq ▸ hw)
  have htwo : 2 ≤ (e.handled.filter fun m => m.by? = some o).length := by
    generalize e.handled.filter (fun m => m.by? = some o) = hd at hfirst hsecond
    rcases hd with _ | ⟨x, _ | ⟨y, rest⟩⟩
    · cases hfirst
    · exact absurd ((List.mem_singleton.mp hfirst).trans (List.mem_singleton.mp hsecond).symm) hne
    · simp
  have hlen : (e.issued o).length ≤ 2 := by
    rcases (h.calls o op ho).shape with hs | hs | ⟨_, -, hs⟩ <;> simp [hs]
  have hpos := List.length_pos_of_mem hthird
  rw [hsplit, List.length_append] at hlen
  omega

/-- A call has one waiter. -/
theorem Accounted.same_waiter (h : e.Accounted opts) {m' : Msg} (hm : m ∈ e.handled)
    (hb : m.by? = some o) (hs : m.isSend = false) (hm' : m' ∈ e.handled)
    (hb' : m'.by? = some o) (hs' : m'.isSend = false) : m = m' := by
  obtain ⟨op, ho, hw⟩ := h.waiter_of_handled hm hb hs
  obtain ⟨op', ho', hw'⟩ := h.waiter_of_handled hm' hb' hs'
  obtain rfl := Option.some.inj (ho.symm.trans ho')
  cases hw.symm.trans hw'
  rfl

theorem Moves.handled (h : e.Moves opts l e') : e'.handled = e.handled ++ l.toList := by
  cases h with
  | called h => cases h <;> simp [setPc, post]
  | take msg rest hq h => simp [h.handled, note]
  | takeFail msg rest p hq hf hp => simp [note]
  | read msg tag hq h => simp [h.handled, note]
  | readFail msg tag p hq hf hp => simp [note]
  | _ => simp [sleep, post]

theorem Moves.trail_subset (h : e.Moves opts l e') : e.trail ⊆ e'.trail := by
  have hh := h.handled
  intro m hm
  rcases List.mem_append.mp hm with hm | hm
  · exact List.mem_append_left _ (by rw [hh]; exact List.mem_append_left _ hm)
  · rcases h.queue with hq | ⟨x, rfl, hq⟩
    · exact List.mem_append_right _ (hq.subset hm)
    · rw [hq] at hm
      rcases List.mem_cons.mp hm with rfl | hm
      · exact List.mem_append_left _ (by rw [hh]; simp)
      · exact List.mem_append_right _ hm

/-- Whatever is handled and is no response comes out of the actor's queue. -/
theorem Moves.queued (h : e.Moves opts (some m) e') (hr : ∀ msg tag, m ≠ .relayResponse msg tag) :
    m ∈ e.actorRx := by
  cases h with
  | take msg rest hq h => simp [hq]
  | takeFail msg rest p hq hf hp => simp [hq]
  | read msg tag hq h => exact absurd rfl (hr msg tag)
  | readFail msg tag p hq hf hp => exact absurd rfl (hr msg tag)

/-- Calls are never forgotten or changed. -/
theorem Moves.call (h : e.Moves opts l e') (ht : ∀ m ∈ e.sleeping, m.timer = true)
    (ho : e.ops[o]? = some op) : ∃ pc, e'.ops[o]? = some ⟨op.call, pc⟩ := by
  rcases h.called_or ht with ⟨hc, -⟩ | ⟨hops, -⟩
  · have hlt := (List.getElem?_eq_some_iff.mp ho).1
    have hset : ∀ j opj pc, e.ops[j]? = some opj →
        ∃ pc', (e.setPc j opj pc).ops[o]? = some ⟨op.call, pc'⟩ := by
      intro j opj pc hj
      rw [setPc_get hj]
      split_ifs with hjo
      · subst hjo
        obtain rfl := Option.some.inj (ho.symm.trans hj)
        exact ⟨pc, rfl⟩
      · exact ⟨op.pc, ho⟩
    cases hc with
    | own call hc hs => exact ⟨op.pc, by rw [List.getElem?_append_left hlt]; exact ho⟩
    | reply on payload qos hr => exact ⟨op.pc, by rw [List.getElem?_append_left hlt]; exact ho⟩
    | enqueue j opj pc hj hpc hpc' => exact hset j opj pc hj
    | register j opj msg hj hpc hw => exact hset j opj .wait hj
    | finish j opj result hj hpc hr => exact hset j opj _ hj
    | abandon j opj pc hj hpc hpc' => exact hset j opj pc hj
    | recv msg rest hm => exact ⟨op.pc, ho⟩
    | control msg hm => exact ⟨op.pc, ho⟩
    | release => exact ⟨op.pc, ho⟩
  · exact ⟨op.pc, hops ▸ ho⟩

/-- What the maps, the tonic queue and the channels hold comes from messages that the
actor has handled. -/
structure Booked (e : Exchange) : Prop where
  acks : ∀ k msg o, e.state.pendingAcks k = some (msg, o) → .waitForAck msg o k ∈ e.handled
  replies : ∀ id k msg o, e.state.pendingReplies (id, k) = some (msg, o) →
    .waitForReply msg o k ∈ e.handled ∧ id = msg.targetId
  pushed : ∀ f ∈ e.tonic.pushed, ∀ o, f.origin = .op o → .send f ∈ e.handled
  sends : ∀ f, .send f ∈ e.handled → f ∈ e.tonic.pushed
  acked : ∀ o ∈ e.acked, ∃ msg k, .waitForAck msg o k ∈ e.handled
  answered : ∀ x ∈ e.answered, ∃ msg, .waitForReply msg x.1 x.2.seq ∈ e.handled ∧
    x.2.from_.id = msg.targetId

/-- Before a message is handled, its own registration is the only thing owed. -/
theorem Booked.note (h : e.Booked) (m : Msg) (hs : ∀ f, m ≠ .send f) : (e.note m).Booked := by
  have hm : ∀ x ∈ e.handled, x ∈ (e.note m).handled := fun x hx => List.mem_append_left _ hx
  refine ⟨fun k msg o hk => hm _ (h.acks k msg o hk), fun id k msg o hk => ?_,
    fun f hf o ho => hm _ (h.pushed f hf o ho), fun f hf => ?_, fun o ho => ?_, fun x hx => ?_⟩
  · exact (h.replies id k msg o hk).imp_left (hm _)
  · rcases List.mem_append.mp hf with hf | hf
    · exact h.sends f hf
    · exact absurd (List.mem_singleton.mp hf).symm (hs f)
  · obtain ⟨msg, k, hk⟩ := h.acked o ho
    exact ⟨msg, k, hm _ hk⟩
  · obtain ⟨msg, hk, hid⟩ := h.answered x hx
    exact ⟨msg, hm _ hk, hid⟩

theorem booked_initial : initial.Booked := by
  constructor <;> simp [initial, State.default, Tonic.empty]

/-- A retry pushes the frame of the `Send` that came first. -/
theorem Accounted.retry_handled (h : e.Accounted opts) {msg : SendMessage} {k : Seq}
    (hm : .waitForAck msg o k ∈ e.handled ∨ .waitForReply msg o k ∈ e.handled) :
    .send ⟨.payload (relayPayload opts msg k), .op o⟩ ∈ e.handled := by
  rcases hm with hm | hm
  · obtain ⟨op, ho, hw⟩ := h.waiter_of_handled hm rfl rfl
    rw [Call.relayPayload_of_waiter (.inl hw)]
    exact h.first_handled ho hw hm
  · obtain ⟨op, ho, hw⟩ := h.waiter_of_handled hm rfl rfl
    rw [Call.relayPayload_of_waiter (.inr hw)]
    exact h.first_handled ho hw hm

theorem Booked.retry (h : e.Booked) (ha : e.Accounted opts) {msg : SendMessage} {k : Seq}
    (hm : .waitForAck msg o k ∈ e.handled ∨ .waitForReply msg o k ∈ e.handled) (t : Msg) :
    ((e.tonicTx ⟨.payload (relayPayload opts msg k), .op o⟩).sleep t).Booked := by
  refine ⟨h.acks, h.replies, fun f hf o' ho => ?_, fun f hf => ?_, h.acked, h.answered⟩
  · rcases List.mem_append.mp hf with hf | hf
    · exact h.pushed f hf o' ho
    · rw [List.mem_singleton.mp hf]
      exact ha.retry_handled hm
  · exact List.mem_append_left _ (h.sends f hf)

theorem Booked.sent (h : e.Booked) (f : Frame) : ((e.note (.send f)).tonicTx f).Booked := by
  have hm : ∀ x ∈ e.handled, x ∈ (e.note (.send f)).handled := fun x hx =>
    List.mem_append_left _ hx
  refine ⟨fun k msg o hk => hm _ (h.acks k msg o hk), fun id k msg o hk => ?_,
    fun g hg o ho => ?_, fun g hg => ?_, fun o ho => ?_, fun x hx => ?_⟩
  · exact (h.replies id k msg o hk).imp_left (hm _)
  · rcases List.mem_append.mp hg with hg | hg
    · exact hm _ (h.pushed g hg o ho)
    · rw [List.mem_singleton.mp hg]
      exact List.mem_append_right _ (List.mem_singleton_self _)
  · rcases List.mem_append.mp hg with hg | hg
    · exact List.mem_append_left _ (h.sends g hg)
    · cases List.mem_singleton.mp hg
      exact List.mem_append_right _ (List.mem_singleton_self _)
  · obtain ⟨msg, k, hk⟩ := h.acked o ho
    exact ⟨msg, k, hm _ hk⟩
  · obtain ⟨msg, hk, hid⟩ := h.answered x hx
    exact ⟨msg, hm _ hk, hid⟩

theorem Booked.handled (h : e.Booked) (ha : e.Accounted opts) (hm : m ∈ e.handled)
    (hs : ∀ f, m ≠ .send f) (hh : Handled opts e m e') : e'.Booked := by
  cases hh with
  | answer entity dst seq payload tag msg o hp =>
    refine ⟨h.acks, fun id k msg o hk => ?_, h.pushed, h.sends, h.acked, fun x hx => ?_⟩
    · exact h.replies id k msg o (State.removeReply_eq_some hk).2
    · rcases List.mem_append.mp hx with hx | hx
      · exact h.answered x hx
      · rw [List.mem_singleton.mp hx]
        exact ⟨msg, h.replies _ _ _ _ hp⟩
  | deliver entity dst seq payload tag hp =>
    exact ⟨h.acks, h.replies, h.pushed, h.sends, h.acked, h.answered⟩
  | ack seq n tag msg o hp =>
    refine ⟨fun k msg o hk => ?_, h.replies, h.pushed, h.sends, fun o ho => ?_, h.answered⟩
    · exact h.acks k msg o (State.removeAck_eq_some hk).2
    · rcases List.mem_append.mp ho with ho | ho
      · exact h.acked o ho
      · rw [List.mem_singleton.mp ho]
        exact ⟨msg, seq, h.acks _ _ _ hp⟩
  | ignore msg tag hn hp => exact h
  | send payload => exact absurd rfl (hs payload)
  | waitForAck msg o seq =>
    refine ⟨fun k msg' o' hk => ?_, h.replies, h.pushed, h.sends, h.acked, h.answered⟩
    rcases State.insertAck_eq_some hk with ⟨rfl, heq⟩ | hk
    · cases heq
      exact hm
    · exact h.acks k msg' o' hk
  | waitForReply msg o seq =>
    refine ⟨h.acks, fun id k msg' o' hk => ?_, h.pushed, h.sends, h.acked, h.answered⟩
    rcases State.insertReply_eq_some hk with ⟨hkey, heq⟩ | hk
    · cases heq
      cases hkey
      exact ⟨hm, rfl⟩
    · exact h.replies id k msg' o' hk
  | giveUpAck seq left hp => exact h
  | retryAck seq left msg o hp hl => exact h.retry ha (.inl (h.acks _ _ _ hp)) _
  | giveUpAsk id seq left hp => exact h
  | retryAsk id seq left msg o hp hl => exact h.retry ha (.inr (h.replies _ _ _ _ hp).1) _
  | heartbeat =>
    refine ⟨h.acks, h.replies, fun f hf o ho => ?_, fun f hf => ?_, h.acked, h.answered⟩
    · rcases List.mem_append.mp hf with hf | hf
      · exact h.pushed f hf o ho
      · rw [List.mem_singleton.mp hf] at ho
        cases ho
    · exact List.mem_append_left _ (h.sends f hf)

/-- One message handled, out of a state `e₁` that differs from `e` in the queue only. -/
theorem Booked.noted {e₁ : Exchange} (h : e₁.Booked) (ha : (e₁.note m).Accounted opts)
    (hh : Handled opts (e₁.note m) m e') : e'.Booked := by
  by_cases hs : ∃ f, m = .send f
  · obtain ⟨f, rfl⟩ := hs
    cases hh
    exact h.sent f
  · have hs : ∀ f, m ≠ .send f := fun f hf => hs ⟨f, hf⟩
    exact (h.note m hs).handled ha (List.mem_append_right _ (List.mem_singleton_self _)) hs hh

theorem Booked.called (h : e.Booked) (hc : Called opts e e') : e'.Booked := by
  cases hc <;> exact ⟨h.acks, h.replies, h.pushed, h.sends, h.acked, h.answered⟩

theorem Booked.tonic (h : e.Booked) {p : Tonic Frame} (hp : p.pushed = e.tonic.pushed) :
    { e with tonic := p }.Booked :=
  ⟨h.acks, h.replies, hp ▸ h.pushed, hp ▸ h.sends, h.acked, h.answered⟩

theorem Booked.queue (h : e.Booked) (queue : List Msg) : { e with actorRx := queue }.Booked :=
  ⟨h.acks, h.replies, h.pushed, h.sends, h.acked, h.answered⟩

theorem Booked.moves (h : e.Booked) (ha : e.Accounted opts) (hm : e.Moves opts l e') :
    e'.Booked := by
  cases hm with
  | stay => exact h
  | tonic p hp => exact h.tonic hp
  | dial p request n hp =>
    refine ⟨h.acks, h.replies, fun f hf o ho => ?_, fun f hf => ?_, h.acked, h.answered⟩
    · rw [hp] at hf
      rcases List.mem_append.mp hf with hf | hf
      · exact h.pushed f hf o ho
      · rw [List.mem_singleton.mp hf] at ho
        cases ho
    · rw [hp]
      exact List.mem_append_left _ (h.sends f hf)
  | heartbeat => exact ⟨h.acks, h.replies, h.pushed, h.sends, h.acked, h.answered⟩
  | called hc => exact h.called hc
  | fire i msg hi => exact ⟨h.acks, h.replies, h.pushed, h.sends, h.acked, h.answered⟩
  | forward msg tag => exact h.queue _
  | take msg rest hq hh =>
    refine (h.queue rest).noted (ha.congr ha.timers rfl fun o => ?_) hh
    rw [issued, trail_take hq, issued]
  | takeFail msg rest p hq hf hp =>
    have hs : ∀ f, msg ≠ .send f := by
      obtain ⟨err, he⟩ := hf
      rcases handleMsg_error he with rfl | rfl | ⟨src, dst, seq, payload, tag, rfl, -⟩ <;> simp
    exact ((h.queue rest).note msg hs).tonic hp
  | read msg tag hq hh => exact h.noted (ha.congr ha.timers rfl (issued_read hq)) hh
  | readFail msg tag p hq hf hp => exact (h.note _ (by simp)).tonic hp

/-- A pending ask is a call of the client, under the id of its target and its number. -/
theorem Booked.call_of_ask (hb : e.Booked) (ha : e.Accounted opts) {id : ClientId} {k : Seq}
    {msg : SendMessage} (hp : e.state.pendingReplies (id, k) = some (msg, o)) :
    id = msg.targetId ∧ ∃ op, e.ops[o]? = some op ∧ op.call = .ask msg k := by
  obtain ⟨hw, hid⟩ := hb.replies id k msg o hp
  obtain ⟨op, ho, hwait⟩ := ha.waiter_of_handled hw rfl rfl
  exact ⟨hid, op, ho, op.call.ask_of_waiter hwait⟩

/-! ## What calls return -/

/-- A call that waited and returned `Ok` was sent what it returned. -/
def Settled (e : Exchange) : Prop :=
  ∀ o op result, e.ops[o]? = some op → op.pc = .returned (.ok result) →
    (op.call.waiter o).isSome → (∃ x ∈ e.answered, x.1 = o ∧ result = some x.2.payload) ∧
      (∃ msg seq, op.call = .ask msg seq) ∨ o ∈ e.acked

theorem Moves.channels (h : e.Moves opts l e') :
    (∀ x ∈ e.answered, x ∈ e'.answered) ∧ ∀ o ∈ e.acked, o ∈ e'.acked := by
  cases h with
  | called h => cases h <;> exact ⟨fun _ hx => hx, fun _ hx => hx⟩
  | take msg rest hq h =>
    have hc := h.channels
    exact hc
  | read msg tag hq h =>
    have hc := h.channels
    exact hc
  | _ => exact ⟨fun _ hx => hx, fun _ hx => hx⟩

theorem outcome_eq_some {call : Call} {result : Option Encoding.Bytes}
    (h : e.outcome o call = some result) :
    (∃ x ∈ e.answered, x.1 = o ∧ result = some x.2.payload) ∧ (∃ msg seq, call = .ask msg seq) ∨
      o ∈ e.acked := by
  have hack : ∀ {r : Option Encoding.Bytes}, (if o ∈ e.acked then some r else none) = some result →
      o ∈ e.acked := by
    intro r h
    split_ifs at h with ho
    exact ho
  cases call with
  | ask msg seq =>
    obtain ⟨x, hx, hr⟩ := Option.map_eq_some_iff.mp h
    exact .inl ⟨⟨x, List.mem_of_find?_eq_some hx, by simpa using List.find?_some hx, hr.symm⟩,
      msg, seq, rfl⟩
  | send msg seq => exact .inr (hack h)
  | reply on payload qos => exact .inr (hack h)

theorem Settled.setPc (e₁ : Exchange) {pc : Pc} (h : e.Settled) (hops : e₁.ops = e.ops)
    (hans : e₁.answered = e.answered) (hack : e₁.acked = e.acked) (ho : e.ops[o]? = some op)
    (hnew : ∀ result, pc = .returned (.ok result) → (op.call.waiter o).isSome →
      (∃ x ∈ e.answered, x.1 = o ∧ result = some x.2.payload) ∧
        (∃ msg seq, op.call = .ask msg seq) ∨ o ∈ e.acked) : (e₁.setPc o op pc).Settled := by
  intro j opj result hj hpc hw
  rw [setPc_get (hops ▸ ho)] at hj
  change (∃ x ∈ e₁.answered, _) ∧ _ ∨ j ∈ e₁.acked
  rw [hans, hack]
  split_ifs at hj with hjo
  · subst hjo
    cases hj
    exact hnew result hpc hw
  · exact h j opj result (hops ▸ hj) hpc hw

theorem Settled.open {e₁ : Exchange} {call : Call} (h : e.Settled)
    (hops : e₁.ops = e.ops ++ [⟨call, .enqueue⟩]) (hans : e₁.answered = e.answered)
    (hack : e₁.acked = e.acked) : e₁.Settled := by
  intro j opj result hj hpc hw
  rw [hans, hack]
  rcases open_get hops hj with hj | ⟨-, rfl⟩
  · exact h j opj result hj hpc hw
  · cases hpc

theorem Settled.called (h : e.Settled) (hc : Called opts e e') : e'.Settled := by
  cases hc with
  | own call hc hs => exact h.open rfl rfl rfl
  | reply on payload qos hr => exact h.open rfl rfl rfl
  | enqueue j opj pc hj hpc hpc' =>
    refine h.setPc (e.post _) rfl rfl rfl hj fun result hr hw => ?_
    rcases hpc' with ⟨rfl, -⟩ | ⟨-, hnone⟩
    · cases hr
    · simp [hnone] at hw
  | register j opj msg hj hpc hw =>
    exact h.setPc (e.post msg) rfl rfl rfl hj (by simp)
  | finish j opj result hj hpc hr =>
    refine h.setPc e rfl rfl rfl hj fun result' hr' _ => ?_
    cases hr'
    exact outcome_eq_some hr
  | abandon j opj pc hj hpc hpc' =>
    refine h.setPc e rfl rfl rfl hj fun result hr _ => ?_
    rcases hpc' with rfl | ⟨err, rfl⟩ <;> cases hr
  | recv msg rest hm => exact h
  | control msg hm => exact h
  | release => exact h

theorem Settled.moves (h : e.Settled) (ha : e.Accounted opts) (hm : e.Moves opts l e') :
    e'.Settled := by
  rcases hm.called_or ha.timers with ⟨hc, -⟩ | ⟨hops, -⟩
  · exact h.called hc
  · obtain ⟨hans, hack⟩ := hm.channels
    intro o op result ho hpc hw
    rcases h o op result (hops ▸ ho) hpc hw with ⟨⟨x, hx, hxo⟩, hask⟩ | hacked
    · exact .inl ⟨⟨x, hans x hx, hxo⟩, hask⟩
    · exact .inr (hack o hacked)

end Exchange

theorem System.booked_of_reachable {opts : ClientOpts} {token : String} {s : System}
    (h : Reachable (System.step opts) (initial token) s) : s.exchange.Booked :=
  h.invariant (P := fun s => s.exchange.Booked) Exchange.booked_initial fun _ _ _ hr hp hs =>
    hp.moves (System.accounted_of_reachable hr) (moves_of_step hs)

theorem System.settled_of_reachable {opts : ClientOpts} {token : String} {s : System}
    (h : Reachable (System.step opts) (initial token) s) : s.exchange.Settled :=
  h.invariant (P := fun s => s.exchange.Settled)
    (by simp [Exchange.Settled, initial, Exchange.initial]) fun _ _ _ hr hp hs =>
    hp.moves (System.accounted_of_reachable hr) (moves_of_step hs)

end OrbRelay.Client
