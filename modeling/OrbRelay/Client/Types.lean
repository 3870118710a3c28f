import OrbRelay.Library.Encoding

/-!
# Messages, options and operations of the relay client

The frames of `relay.proto` and the types of the client library. A frame that
passes through a client carries a tag with the operation it stems from: no
function reads it, it only lets statements speak about one frame of many equal
ones. Durations are left out, since nothing here measures time.
-/
namespace OrbRelay.Client
open Encoding

/-! ## `relay.proto` -/

inductive EntityType where
  | unspecified
  | app
  | orb
  | service
deriving DecidableEq, Repr

def EntityType.toI32 : EntityType → Int32
  | .unspecified => 0
  | .app => 1
  | .orb => 2
  | .service => 3

def EntityType.tryFrom (n : Int32) : Option EntityType :=
  if n = 0 then some .unspecified
  else if n = 1 then some .app
  else if n = 2 then some .orb
  else if n = 3 then some .service
  else none

theorem EntityType.toI32_of_tryFrom {n : Int32} {t : EntityType} (h : tryFrom n = some t) :
    t.toI32 = n := by
  unfold tryFrom at h
  split_ifs at h with h0 h1 h2 h3 <;> cases h <;> simp [toI32, *]

abbrev ClientId := String
abbrev Seq := UInt64

structure Entity where
  id : ClientId
  entityType : Int32
  namespace_ : String
deriving DecidableEq, Repr

structure Any where
  typeUrl : String
  value : Bytes
deriving DecidableEq, Repr

structure RelayPayload where
  src : Option Entity
  dst : Option Entity
  seq : Seq
  payload : Option Any
deriving DecidableEq, Repr

inductive AuthMethod where
  | token (token : String)
deriving DecidableEq, Repr

structure ConnectRequest where
  clientId : Option Entity
  authMethod : Option AuthMethod
deriving DecidableEq, Repr

/-- A request frame; the client always sets its `msg`. -/
inductive RelayConnectRequest where
  | heartbeat (seq : Seq)
  | connectRequest (request : ConnectRequest)
  | payload (payload : RelayPayload)
deriving DecidableEq, Repr

/-- The `msg` of a response frame. -/
inductive ResponseMsg where
  | ack (seq : Seq) (subscriberCount : Option UInt32)
  | connectResponse (clientId : String) (success : Bool) (error : String)
  | payload (payload : RelayPayload)
deriving DecidableEq, Repr

/-! ## `amount.rs` -/

inductive Amount where
  | val (v : ℕ)
  | infinite
deriving DecidableEq, Repr

namespace Amount

/-- `self <= other` for a number. -/
def le : Amount → ℕ → Bool
  | val v, other => v ≤ other
  | infinite, _ => false

def isZero : Amount → Bool
  | val 0 => true
  | _ => false

def decrement : Amount → Amount
  | val (v + 1) => val v
  | a => a

@[simp] theorem isZero_iff (a : Amount) : a.isZero = true ↔ a = val 0 := by
  rcases a with (_ | v) | _ <;> simp [isZero]

end Amount

/-! ## `lib.rs` -/

inductive QoS where
  | atMostOnce
  | atLeastOnce
deriving DecidableEq, Repr

structure SendMessage where
  targetType : EntityType
  data : Bytes
  targetId : ClientId
  targetNamespace : String
  qos : QoS
deriving DecidableEq, Repr

inductive Auth where
  | token (token : String)
  | tokenReceiver
  | zkp
deriving DecidableEq, Repr

structure ClientOpts where
  entityType : EntityType
  clientId : ClientId
  namespace_ : String
  auth : Auth
  maxConnectionAttempts : Amount
  maxMessageAttempts : Amount
deriving DecidableEq, Repr

inductive Err where
  | stopRequest
  | reconnectRequest
  | streamEnded
  | channel
  | transport (error : String)
  | tonic (status : String)
  | other (report : String)
deriving DecidableEq, Repr

/-- An operation of one client, by its place among those the client issued. It
also names the reply or ack channel that the operation creates. -/
abbrev OpId := ℕ

/-- The client and the operation that a frame from the relay is about. -/
structure Tag where
  client : ClientId
  op : OpId
deriving DecidableEq, Repr

structure RecvdRelayPayload where
  from_ : Entity
  payload : Bytes
  seq : Seq
  tag : Tag
deriving DecidableEq, Repr

/-- A received message; its `client` is the one that received it. -/
structure RecvMessage where
  from_ : Entity
  payload : Bytes
  seq : Seq
  tag : Tag
deriving DecidableEq, Repr

/-- What the builder of `ClientOpts` makes of its required values. -/
def ClientOpts.build (entityType : EntityType) (id namespace_ : String) (auth : Auth) :
    ClientOpts where
  entityType := entityType
  clientId := id
  namespace_ := namespace_
  auth := auth
  maxConnectionAttempts := .infinite
  maxMessageAttempts := .infinite

/-- The entity of the client itself. -/
def ClientOpts.entity (opts : ClientOpts) : Entity :=
  ⟨opts.clientId, opts.entityType.toI32, opts.namespace_⟩

def relayPayload (opts : ClientOpts) (msg : SendMessage) (seq : Seq) : RelayPayload where
  src := some opts.entity
  dst := some ⟨msg.targetId, msg.targetType.toI32, msg.targetNamespace⟩
  seq := seq
  payload := some ⟨"", msg.data⟩

/-- What is put into `tonic_tx` belongs to an operation, or is a heartbeat or the
connect request of an attempt. -/
inductive Origin where
  | op (o : OpId)
  | heartbeat
  | connect (attempt : ℕ)
deriving DecidableEq, Repr

/-- A request on its way to the relay, with its origin. -/
structure Frame where
  request : RelayConnectRequest
  origin : Origin
deriving DecidableEq, Repr

/-- The messages of the actor's queue. -/
inductive Msg where
  | relayResponse (msg : ResponseMsg) (tag : Tag)
  | send (payload : Frame)
  | waitForAck (originalMsg : SendMessage) (ackTx : OpId) (seq : Seq)
  | waitForReply (originalMsg : SendMessage) (recvMsgTx : OpId) (seq : Seq)
  | retryAck (seq : Seq) (retriesLeft : Amount)
  | retryAsk (fromClient : ClientId) (seq : Seq) (retriesLeft : Amount)
  | stop
  | heartbeat
  | reconnect
deriving DecidableEq, Repr

/-- The messages that sleeping timers hold. -/
def Msg.timer : Msg → Bool
  | .retryAck _ _ | .retryAsk _ _ _ | .heartbeat => true
  | _ => false

/-- A call of `Client::send`, `Client::ask` or `RecvMessage::reply`; the first two
carry the number that `fetch_add` gave them. -/
inductive Call where
  | send (msg : SendMessage) (seq : Seq)
  | ask (msg : SendMessage) (seq : Seq)
  | reply (on : RecvMessage) (payload : Bytes) (qos : QoS)
deriving DecidableEq, Repr

namespace Call

def seq : Call → Seq
  | send _ seq => seq
  | ask _ seq => seq
  | reply on _ _ => on.seq

def qos : Call → QoS
  | send msg _ => msg.qos
  | ask msg _ => msg.qos
  | reply _ _ qos => qos

/-- The payload that the call hands to the actor first. -/
def relayPayload (opts : ClientOpts) : Call → RelayPayload
  | send msg seq => Client.relayPayload opts msg seq
  | ask msg seq => Client.relayPayload opts msg seq
  | reply on payload _ =>
    { src := some opts.entity
      dst := some ⟨on.from_.id, on.from_.entityType, on.from_.namespace_⟩
      seq := on.seq
      payload := some ⟨"", payload⟩ }

/-- The message that registers the waiter of the call on channel `o`, if the call
waits for anything. A reply converts the entity type of the sender first. -/
def waiter (o : OpId) : Call → Option (Except Err Msg)
  | send msg seq =>
    match msg.qos with
    | .atLeastOnce => some (.ok (.waitForAck msg o seq))
    | .atMostOnce => none
  | ask msg seq => some (.ok (.waitForReply msg o seq))
  | reply on payload qos =>
    match qos with
    | .atLeastOnce =>
      match EntityType.tryFrom on.from_.entityType with
      | none => some (.error (.other "Failed to convert EntityType"))
      | some targetType => some (.ok (.waitForAck
          ⟨targetType, payload, on.from_.id, on.from_.namespace_, qos⟩ o on.seq))
    | .atMostOnce => none

theorem waiter_ne_send (call : Call) (o : OpId) (f : Frame) :
    call.waiter o ≠ some (.ok (.send f)) := by
  unfold waiter
  split
  · split <;> simp
  · simp
  · split
    · split <;> simp
    · simp

end Call

end OrbRelay.Client
