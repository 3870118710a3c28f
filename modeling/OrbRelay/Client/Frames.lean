import OrbRelay.Client.Types
import OrbRelay.Library.Codec

/-!
# The frames of `relay.proto` as bytes

One codec for each message of the schema. The relay understands every request of the
schema, a client sends some of them; both ends read all responses. A payload has the
same field in requests and in responses, so a relay can pass on the bytes of a frame.
-/
namespace OrbRelay.Client
open Encoding Protobuf

/-! ## Messages -/

def Entity.codec : Codec Entity :=
  ((Codec.implicit 1 .string).prod
    ((Codec.implicit 2 Varint.int32.scalar).prod (Codec.implicit 3 .string))).map
    { toFun := fun p => ⟨p.1, p.2.1, p.2.2⟩
      invFun := fun e => (e.id, e.entityType, e.namespace_)
      left_inv := fun _ => rfl
      right_inv := fun _ => rfl }

/-- `google.protobuf.Any`. -/
def Any.codec : Codec Any :=
  ((Codec.implicit 1 .string).prod (Codec.implicit 2 .bytes)).map
    { toFun := fun p => ⟨p.1, p.2⟩
      invFun := fun a => (a.typeUrl, a.value)
      left_inv := fun _ => rfl
      right_inv := fun _ => rfl }

def RelayPayload.codec : Codec RelayPayload :=
  ((Codec.message 1 Entity.codec).prod ((Codec.message 2 Entity.codec).prod
    ((Codec.implicit 3 Varint.uint64.scalar).prod (Codec.message 4 Any.codec)))).map
    { toFun := fun p => ⟨p.1, p.2.1, p.2.2.1, p.2.2.2⟩
      invFun := fun p => (p.src, p.dst, p.seq, p.payload)
      left_inv := fun _ => rfl
      right_inv := fun _ => rfl }

structure ZkpAuthRequest where
  root : String
  signal : String
  nullifierHash : String
  proof : String
deriving DecidableEq, Repr

def ZkpAuthRequest.codec : Codec ZkpAuthRequest :=
  ((Codec.implicit 1 .string).prod ((Codec.implicit 2 .string).prod
    ((Codec.implicit 3 .string).prod (Codec.implicit 4 .string)))).map
    { toFun := fun p => ⟨p.1, p.2.1, p.2.2.1, p.2.2.2⟩
      invFun := fun z => (z.root, z.signal, z.nullifierHash, z.proof)
      left_inv := fun _ => rfl
      right_inv := fun _ => rfl }

/-- The `auth_method` of a `ConnectRequest`, a token or a proof. -/
def authMethod : Variant (String ⊕ ZkpAuthRequest) :=
  (Variant.scalar 2 .string).or (Variant.message 3 ZkpAuthRequest.codec)

/-- A `ConnectRequest` with all that the schema allows. -/
abbrev AnyConnectRequest := Option Entity × Option (String ⊕ ZkpAuthRequest)

def connectRequestCodec : Codec AnyConnectRequest :=
  (Codec.message 1 Entity.codec).prod (Codec.oneof authMethod)

/-- `Heartbeat`, with its `seq`. -/
def heartbeatCodec : Codec Seq := Codec.implicit 1 Varint.uint64.scalar

/-- The `msg` of a `RelayConnectRequest`: a heartbeat, a connect request or a payload. -/
abbrev AnyRequest := Seq ⊕ AnyConnectRequest ⊕ RelayPayload

def RelayConnectRequest.codec : Codec (Option AnyRequest) :=
  Codec.oneof ((Variant.message 1 heartbeatCodec).or
    ((Variant.message 2 connectRequestCodec).or (Variant.message 3 RelayPayload.codec)))

/-- What a client puts into `msg`. -/
def RelayConnectRequest.msg : RelayConnectRequest → AnyRequest
  | .heartbeat seq => .inl seq
  | .connectRequest r =>
    .inr (.inl (r.clientId, r.authMethod.map fun | .token token => .inl token))
  | .payload p => .inr (.inr p)

def ackCodec : Codec (Seq × Option UInt32) :=
  (Codec.implicit 1 Varint.uint64.scalar).prod (Codec.optional 2 Varint.uint32.scalar)

/-- `ConnectResponse`: client id, success and error. -/
def connectResponseCodec : Codec (String × Bool × String) :=
  (Codec.implicit 1 .string).prod
    ((Codec.implicit 2 Varint.bool.scalar).prod (Codec.implicit 3 .string))

def responseVariant : Variant ResponseMsg :=
  ((Variant.message 1 ackCodec).or
    ((Variant.message 2 connectResponseCodec).or (Variant.message 3 RelayPayload.codec))).map
    { toFun := fun
        | .inl a => .ack a.1 a.2
        | .inr (.inl r) => .connectResponse r.1 r.2.1 r.2.2
        | .inr (.inr p) => .payload p
      invFun := fun
        | .ack seq n => .inl (seq, n)
        | .connectResponse id success error => .inr (.inl (id, success, error))
        | .payload p => .inr (.inr p)
      left_inv := by rintro (_ | _ | _) <;> rfl
      right_inv := by rintro (_ | _ | _) <;> rfl }

/-- A `RelayConnectResponse` is its `msg`, if it is set. -/
def ResponseMsg.codec : Codec (Option ResponseMsg) := Codec.oneof responseVariant

/-! ## Bytes -/

/-- The bytes of a request frame. -/
def RelayConnectRequest.encode (r : RelayConnectRequest) : Bytes :=
  RelayConnectRequest.codec.encode (some r.msg)

/-- The frame fits a length of 64 bits. -/
def RelayConnectRequest.Sized (r : RelayConnectRequest) : Prop := r.encode.length < 2 ^ 64

theorem RelayConnectRequest.decode_encode {r : RelayConnectRequest} (h : r.Sized) :
    RelayConnectRequest.codec.decode r.encode = some (some r.msg) :=
  Codec.decode_encode h

/-- A payload has the same bytes on its way to the relay and on its way back. -/
theorem encode_payload (p : RelayPayload) :
    ResponseMsg.codec.encode (some (.payload p)) = (RelayConnectRequest.payload p).encode := rfl

end OrbRelay.Client
