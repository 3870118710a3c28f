import OrbRelay.Client.FlumeReceiverStream
import OrbRelay.Client.Types

/-!
# The actor's message handlers

`handle_msg` works on the actor's maps and on channels. `Exchange` holds these
with the calls that use them. Unbounded channels whose receiving end the actor
keeps cannot fail, so `handleMsg` has only the errors that can occur.
-/
namespace OrbRelay.Client
open Encoding

structure State where
  pendingAcks : Seq → Option (SendMessage × OpId)
  pendingReplies : ClientId × Seq → Option (SendMessage × OpId)
  heartbeatStarted : Bool

namespace State

def default : State := ⟨fun _ => none, fun _ => none, false⟩

def insertAck (s : State) (seq : Seq) (v : SendMessage × OpId) : State :=
  { s with pendingAcks := Function.update s.pendingAcks seq (some v) }

def removeAck (s : State) (seq : Seq) : State :=
  { s with pendingAcks := Function.update s.pendingAcks seq none }

def insertReply (s : State) (key : ClientId × Seq) (v : SendMessage × OpId) : State :=
  { s with pendingReplies := Function.update s.pendingReplies key (some v) }

def removeReply (s : State) (key : ClientId × Seq) : State :=
  { s with pendingReplies := Function.update s.pendingReplies key none }

variable {s : State} {seq k : Seq} {key key' : ClientId × Seq} {v w : SendMessage × OpId}

theorem insertAck_eq_some (h : (s.insertAck seq v).pendingAcks k = some w) :
    k = seq ∧ w = v ∨ s.pendingAcks k = some w := by
  simp only [insertAck, Function.update_apply] at h
  split_ifs at h with hk
  · exact .inl ⟨hk, (Option.some.inj h).symm⟩
  · exact .inr h

theorem removeAck_eq_some (h : (s.removeAck seq).pendingAcks k = some w) :
    k ≠ seq ∧ s.pendingAcks k = some w := by
  simp only [removeAck, Function.update_apply] at h
  split_ifs at h with hk
  exact ⟨hk, h⟩

theorem insertReply_eq_some (h : (s.insertReply key v).pendingReplies key' = some w) :
    key' = key ∧ w = v ∨ s.pendingReplies key' = some w := by
  simp only [insertReply, Function.update_apply] at h
  split_ifs at h with hk
  · exact .inl ⟨hk, (Option.some.inj h).symm⟩
  · exact .inr h

theorem removeReply_eq_some (h : (s.removeReply key).pendingReplies key' = some w) :
    key' ≠ key ∧ s.pendingReplies key' = some w := by
  simp only [removeReply, Function.update_apply] at h
  split_ifs at h with hk
  exact ⟨hk, h⟩

end State

/-- Where the task of a call stands: before its first `actor_tx.send`, before the
second, at the `await`, returned (`ask` with a payload), or dropped at the `await`. -/
inductive Pc where
  | enqueue
  | register
  | wait
  | returned (result : Except Err (Option Bytes))
  | dropped

structure Op where
  call : Call
  pc : Pc

/-- The calls on a client, its channels and the actor's maps. `actorRx` is the
actor's queue and `sleeping` the messages that timers hold for it. `acked` and
`answered` are what the actor sent on the channels of single calls; `handled` is the
history of the messages given to `handle_msg`. -/
structure Exchange where
  seq : Seq
  ops : List Op
  clientsAlive : Bool
  clientRx : List RecvdRelayPayload
  received : List RecvMessage
  actorRx : List Msg
  sleeping : List Msg
  state : State
  tonic : Tonic Frame
  handled : List Msg
  acked : List OpId
  answered : List (OpId × RecvdRelayPayload)

namespace Exchange

def initial : Exchange where
  seq := 0
  ops := []
  clientsAlive := true
  clientRx := []
  received := []
  actorRx := []
  sleeping := []
  state := .default
  tonic := .empty
  handled := []
  acked := []
  answered := []

/-- `tonic_tx.send`. -/
def tonicTx (e : Exchange) (payload : Frame) : Exchange :=
  { e with tonic := e.tonic.push payload }

/-- The history with one more message. -/
def note (e : Exchange) (msg : Msg) : Exchange := { e with handled := e.handled ++ [msg] }

/-- A spawned task that sends `msg` to the actor after a while. -/
def sleep (e : Exchange) (msg : Msg) : Exchange :=
  { e with sleeping := e.sleeping ++ [msg] }

end Exchange

def handlePayload (e : Exchange) (recvMsg : RecvdRelayPayload) : Except Err Exchange :=
  match e.state.pendingReplies (recvMsg.from_.id, recvMsg.seq) with
  | some (_, reply) => .ok { e with
      state := e.state.removeReply (recvMsg.from_.id, recvMsg.seq)
      answered := e.answered ++ [(reply, recvMsg)] }
  | none =>
    if e.clientsAlive then .ok { e with clientRx := e.clientRx ++ [recvMsg] }
    else .error (.other "Failed to send message to client_rx")

def handleAck (e : Exchange) (seq : Seq) : Exchange :=
  match e.state.pendingAcks seq with
  | some (_, ackTx) => { e with
      state := e.state.removeAck seq
      acked := e.acked ++ [ackTx] }
  | none => e

/-- `retries_left` of the first timer of an ask. -/
def askRetries (opts : ClientOpts) : QoS → Amount
  | .atMostOnce => .val 0
  | .atLeastOnce => opts.maxMessageAttempts

def handleMsg (opts : ClientOpts) (e : Exchange) : Msg → Except Err Exchange
  | .relayResponse (.payload ⟨some entity, _, seq, some payload⟩) tag =>
    handlePayload e ⟨entity, payload.value, seq, tag⟩
  | .relayResponse (.ack seq _) _ => .ok (handleAck e seq)
  | .relayResponse _ _ => .ok e
  | .send payload => .ok (e.tonicTx payload)
  | .stop => .error .stopRequest
  | .reconnect => .error .reconnectRequest
  | .waitForAck originalMsg ackTx seq =>
    .ok ({ e with state := e.state.insertAck seq (originalMsg, ackTx) }.sleep
      (.retryAck seq opts.maxMessageAttempts))
  | .waitForReply originalMsg recvMsgTx seq =>
    .ok ({ e with
      state := e.state.insertReply (originalMsg.targetId, seq) (originalMsg, recvMsgTx) }.sleep
        (.retryAsk originalMsg.targetId seq (askRetries opts originalMsg.qos)))
  | .retryAck seq retriesLeft =>
    match e.state.pendingAcks seq with
    | some (msg, sender) =>
      if retriesLeft.isZero then .ok e
      else
        -- `retries_left` is bound again here, to the full limit
        let retriesLeft := opts.maxMessageAttempts
        .ok ((e.tonicTx ⟨.payload (relayPayload opts msg seq), .op sender⟩).sleep
          (.retryAck seq retriesLeft.decrement))
    | none => .ok e
  | .retryAsk fromClient seq retriesLeft =>
    match e.state.pendingReplies (fromClient, seq) with
    | some (msg, sender) =>
      if retriesLeft.isZero then .ok e
      else
        let retriesLeft := opts.maxMessageAttempts
        .ok ((e.tonicTx ⟨.payload (relayPayload opts msg seq), .op sender⟩).sleep
          (.retryAsk fromClient seq retriesLeft.decrement))
    | none => .ok e
  | .heartbeat => .ok ((e.tonicTx ⟨.heartbeat 0, .heartbeat⟩).sleep .heartbeat)

/-- Everything that handling one message without an error can do. -/
inductive Handled (opts : ClientOpts) (e : Exchange) : Msg → Exchange → Prop where
  | answer (entity : Entity) (dst : Option Entity) (seq : Seq) (payload : Any) (tag : Tag)
      (msg : SendMessage) (o : OpId)
      (hp : e.state.pendingReplies (entity.id, seq) = some (msg, o)) :
      Handled opts e (.relayResponse (.payload ⟨some entity, dst, seq, some payload⟩) tag)
        { e with
          state := e.state.removeReply (entity.id, seq)
          answered := e.answered ++ [(o, ⟨entity, payload.value, seq, tag⟩)] }
  | deliver (entity : Entity) (dst : Option Entity) (seq : Seq) (payload : Any) (tag : Tag)
      (hp : e.state.pendingReplies (entity.id, seq) = none) :
      Handled opts e (.relayResponse (.payload ⟨some entity, dst, seq, some payload⟩) tag)
        { e with clientRx := e.clientRx ++ [⟨entity, payload.value, seq, tag⟩] }
  | ack (seq : Seq) (n : Option UInt32) (tag : Tag) (msg : SendMessage) (o : OpId)
      (hp : e.state.pendingAcks seq = some (msg, o)) :
      Handled opts e (.relayResponse (.ack seq n) tag)
        { e with state := e.state.removeAck seq, acked := e.acked ++ [o] }
  | ignore (msg : ResponseMsg) (tag : Tag)
      (hm : ∀ seq n, msg = .ack seq n → e.state.pendingAcks seq = none)
      (hp : ∀ entity dst seq payload, msg ≠ .payload ⟨some entity, dst, seq, some payload⟩) :
      Handled opts e (.relayResponse msg tag) e
  | send (payload : Frame) : Handled opts e (.send payload) (e.tonicTx payload)
  | waitForAck (msg : SendMessage) (o : OpId) (seq : Seq) :
      Handled opts e (.waitForAck msg o seq)
        ({ e with state := e.state.insertAck seq (msg, o) }.sleep
          (.retryAck seq opts.maxMessageAttempts))
  | waitForReply (msg : SendMessage) (o : OpId) (seq : Seq) :
      Handled opts e (.waitForReply msg o seq)
        ({ e with state := e.state.insertReply (msg.targetId, seq) (msg, o) }.sleep
          (.retryAsk msg.targetId seq (askRetries opts msg.qos)))
  | giveUpAck (seq : Seq) (left : Amount)
      (hp : e.state.pendingAcks seq = none ∨ left = .val 0) :
      Handled opts e (.retryAck seq left) e
  | retryAck (seq : Seq) (left : Amount) (msg : SendMessage) (o : OpId)
      (hp : e.state.pendingAcks seq = some (msg, o)) (hl : left ≠ .val 0) :
      Handled opts e (.retryAck seq left)
        ((e.tonicTx ⟨.payload (relayPayload opts msg seq), .op o⟩).sleep
          (.retryAck seq opts.maxMessageAttempts.decrement))
  | giveUpAsk (id : ClientId) (seq : Seq) (left : Amount)
      (hp : e.state.pendingReplies (id, seq) = none ∨ left = .val 0) :
      Handled opts e (.retryAsk id seq left) e
  | retryAsk (id : ClientId) (seq : Seq) (left : Amount) (msg : SendMessage) (o : OpId)
      (hp : e.state.pendingReplies (id, seq) = some (msg, o)) (hl : left ≠ .val 0) :
      Handled opts e (.retryAsk id seq left)
        ((e.tonicTx ⟨.payload (relayPayload opts msg seq), .op o⟩).sleep
          (.retryAsk id seq opts.maxMessageAttempts.decrement))
  | heartbeat :
      Handled opts e .heartbeat ((e.tonicTx ⟨.heartbeat 0, .heartbeat⟩).sleep .heartbeat)

theorem Handled.actorRx {opts : ClientOpts} {e e' : Exchange} {m : Msg}
    (h : Handled opts e m e') : e'.actorRx = e.actorRx := by
  cases h <;> rfl

theorem Handled.ops {opts : ClientOpts} {e e' : Exchange} {m : Msg}
    (h : Handled opts e m e') : e'.ops = e.ops := by
  cases h <;> rfl

theorem Handled.handled {opts : ClientOpts} {e e' : Exchange} {m : Msg}
    (h : Handled opts e m e') : e'.handled = e.handled := by
  cases h <;> rfl

/-- What was sent to a call stays in its channel. -/
theorem Handled.channels {opts : ClientOpts} {e e' : Exchange} {m : Msg}
    (h : Handled opts e m e') :
    (∀ x ∈ e.answered, x ∈ e'.answered) ∧ ∀ o ∈ e.acked, o ∈ e'.acked := by
  cases h <;> first
    | exact ⟨fun _ hx => hx, fun _ hx => hx⟩
    | exact ⟨fun _ hx => List.mem_append_left _ hx, fun _ hx => hx⟩
    | exact ⟨fun _ hx => hx, fun _ hx => List.mem_append_left _ hx⟩

theorem Handled.heartbeatStarted {opts : ClientOpts} {e e' : Exchange} {m : Msg}
    (h : Handled opts e m e') : e'.state.heartbeatStarted = e.state.heartbeatStarted := by
  cases h <;> rfl

theorem handled_of_handleMsg {opts : ClientOpts} {e e' : Exchange} {m : Msg}
    (h : handleMsg opts e m = .ok e') : Handled opts e m e' := by
  cases m with
  | relayResponse msg tag =>
    match msg with
    | .payload ⟨some entity, dst, seq, some payload⟩ =>
      simp only [handleMsg, handlePayload] at h
      split at h
      · next hp => cases h; exact .answer entity dst seq payload tag _ _ hp
      · next hp =>
        split_ifs at h
        cases h
        exact .deliver entity dst seq payload tag hp
    | .ack seq n =>
      simp only [handleMsg, handleAck] at h
      split at h
      · next hp => cases h; exact .ack seq n tag _ _ hp
      · next hp =>
        cases h
        refine .ignore _ tag (fun seq' n' heq => ?_) (by simp)
        cases heq
        exact hp
    | .connectResponse id success error =>
      cases h
      exact .ignore _ tag (by simp) (by simp)
    | .payload ⟨none, dst, seq, payload⟩ =>
      cases h
      exact .ignore _ tag (by simp) (by simp)
    | .payload ⟨some entity, dst, seq, none⟩ =>
      cases h
      exact .ignore _ tag (by simp) (by simp)
  | send payload => cases h; exact .send payload
  | waitForAck msg o seq => cases h; exact .waitForAck msg o seq
  | waitForReply msg o seq => cases h; exact .waitForReply msg o seq
  | retryAck seq left =>
    simp only [handleMsg] at h
    split at h
    · next msg o hp =>
      split_ifs at h with hz
      · cases h
        exact .giveUpAck seq left (.inr ((Amount.isZero_iff left).mp hz))
      · cases h
        exact .retryAck seq left msg o hp (mt (Amount.isZero_iff left).mpr hz)
    · next hp => cases h; exact .giveUpAck seq left (.inl hp)
  | retryAsk id seq left =>
    simp only [handleMsg] at h
    split at h
    · next msg o hp =>
      split_ifs at h with hz
      · cases h
        exact .giveUpAsk id seq left (.inr ((Amount.isZero_iff left).mp hz))
      · cases h
        exact .retryAsk id seq left msg o hp (mt (Amount.isZero_iff left).mpr hz)
    · next hp => cases h; exact .giveUpAsk id seq left (.inl hp)
  | stop => cases h
  | heartbeat => cases h; exact .heartbeat
  | reconnect => cases h

end OrbRelay.Client
