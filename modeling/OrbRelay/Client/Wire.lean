import OrbRelay.Client.Frames
import OrbRelay.Client.Network

/-!
# Clients on one relay, over bytes

The network again, with a relay that sees bytes. It decodes the frames of its clients,
looks at the destination of the payloads, and encodes a response for the client it is
addressed to, which decodes that. As long as no frame is longer than what the two ends
decode this is the network of the messages themselves.
-/
namespace OrbRelay.Client
open Encoding Protobuf Transition

/-- The limit for messages that come in, for a channel or a server that sets none. -/
def defaultMaxRecvMessageSize : ℕ := 4 * 1024 * 1024

/-- A message of a stream, or the error that ends the stream in its place. -/
def receive {α : Type} (c : Codec α) (x : Bytes) : Except String α :=
  if defaultMaxRecvMessageSize < x.length then .error "Error, decoded message length too large"
  else
    match c.decode x with
    | some a => .ok a
    | none => .error "failed to decode Protobuf message"

/-- The frame is within the limit. -/
def RelayConnectRequest.Receivable (r : RelayConnectRequest) : Prop :=
  r.encode.length ≤ defaultMaxRecvMessageSize

theorem RelayConnectRequest.Receivable.sized {r : RelayConnectRequest} (h : r.Receivable) :
    r.Sized :=
  h.trans_lt (by norm_num [defaultMaxRecvMessageSize])

theorem receive_encode {r : RelayConnectRequest} (h : r.Receivable) :
    receive RelayConnectRequest.codec r.encode = .ok (some r.msg) := by
  rw [receive, if_neg (Nat.not_lt.mpr h), RelayConnectRequest.decode_encode h.sized]

variable {ι : Type*} [DecidableEq ι] (M : Members ι)

namespace Members

/-- What a client reads from the bytes of a response. -/
def reads (x : Bytes) (tag : Tag) : StreamEvent :=
  match receive ResponseMsg.codec x with
  | .ok msg => .message msg tag
  | .error error => .status error

/-- `act`, with the bytes of the frame in place of the frame. -/
def wireAct (n : ι → System) : NetAction ι → Option (ι × Action)
  | .own i a => if a.hearsPayload then none else some (i, a)
  | .deliver i j k m =>
    match (n j).exchange.tonic.streams[k]?.bind fun w => w.yielded[m]? with
    | some ⟨request, .op o⟩ =>
      match receive RelayConnectRequest.codec request.encode with
      | .ok (some (.inr (.inr p))) =>
        if p.dst.map Entity.id = some (M.opts i).clientId then
          some (i, .response
            (reads (ResponseMsg.codec.encode (some (.payload p))) ⟨(M.opts j).clientId, o⟩))
        else none
      | _ => none
    | _ => none

def wireStep (n : ι → System) (a : NetAction ι) : Option (ι → System) :=
  (M.wireAct n a).bind fun (i, b) => ((n i).step (M.opts i) b).map fun s => Function.update n i s

/-- The frames of all calls are within the limit. -/
def Fit (n : ι → System) : Prop :=
  ∀ i, ∀ call ∈ (n i).exchange.calls, (RelayConnectRequest.payload
    (call.relayPayload (M.opts i))).Receivable

variable {M} {n n' t : ι → System} {a : NetAction ι} {tr : List ((ι → System) × NetAction ι)}

theorem reads_encode {p : RelayPayload} (h : (RelayConnectRequest.payload p).Receivable)
    (tag : Tag) :
    reads (ResponseMsg.codec.encode (some (.payload p))) tag =
      .message (some (.payload p)) tag := by
  have hlimit : ¬ defaultMaxRecvMessageSize <
      (ResponseMsg.codec.encode (some (.payload p))).length := by
    rw [encode_payload]
    exact Nat.not_lt.mpr h
  have hs : ResponseMsg.codec.Sized (some (.payload p)) := by
    rw [Codec.Sized, encode_payload]
    exact h.sized
  rw [reads, receive, if_neg hlimit, Codec.decode_encode hs]

/-- Over bytes the relay does what it does with messages. -/
theorem wireAct_eq (hr : Reachable M.step M.initial n) (hfit : M.Fit n) :
    M.wireAct n a = M.act n a := by
  cases a with
  | own i b => rfl
  | deliver i j k m =>
    simp only [wireAct, act]
    rcases hf : (n j).exchange.tonic.streams[k]?.bind fun w => w.yielded[m]? with
      _ | ⟨request, o | _ | attempt⟩
    · rfl
    · obtain ⟨w, hw, hy⟩ := Option.bind_eq_some_iff.mp hf
      obtain ⟨op, hop, heq⟩ := System.said_of_reachable (client_reachable hr j)
        (List.mem_of_getElem? hw) (List.mem_of_getElem? hy) rfl
      cases heq
      have hs := hfit j op.call (List.mem_of_getElem? (Exchange.calls_get hop))
      simp only [receive_encode hs, RelayConnectRequest.msg, reads_encode hs]
    · cases request <;> rfl
    · cases request <;> rfl

theorem Fit.of_step (h : M.Fit n') (hs : M.wireStep n a = some n') : M.Fit n := by
  intro i call hc
  refine h i call ?_
  obtain ⟨⟨j, b⟩, -, hmap⟩ := Option.bind_eq_some_iff.mp hs
  obtain ⟨s, hstep, rfl⟩ := Option.map_eq_some_iff.mp hmap
  by_cases hij : i = j
  · subst hij
    rw [Function.update_self]
    exact (System.moves_of_step hstep).calls_kept.subset hc
  · rw [Function.update_of_ne hij]
    exact hc

theorem wireStep_eq (hr : Reachable M.step M.initial n) (hfit : M.Fit n) :
    M.wireStep n a = M.step n a := by
  rw [wireStep, step, wireAct_eq hr hfit]

/-- The runs over bytes in which all calls fit are the runs over messages in which they
do. So whatever holds in all runs of the network holds of clients whose relay decodes
and encodes every frame. -/
theorem wire_run_iff (hfit : M.Fit t) :
    Run M.wireStep M.initial tr t ↔ Run M.step M.initial tr t := by
  constructor
  · intro h
    induction h with
    | nil => exact .nil
    | snoc h hs ih =>
      have hbefore := hfit.of_step hs
      have hrun := ih hbefore
      exact hrun.snoc (wireStep_eq ⟨_, hrun⟩ hbefore ▸ hs)
  · intro h
    induction h with
    | nil => exact .nil
    | snoc h hs ih =>
      have hbefore : M.Fit _ := fun i call hc => hfit i call ((calls_kept hs i).subset hc)
      exact (ih hbefore).snoc ((wireStep_eq ⟨_, h⟩ hbefore).trans hs)

/-- The orb replies to the ask of the app, and the reply comes back, all over bytes. -/
theorem orbReplies_over_bytes :
    ∃ tr t, Run appAndOrb.wireStep appAndOrb.initial tr t ∧
      appAnswers t = [(0, [2], ⟨"orb", 0⟩)] := by
  have he : (exec appAndOrb.step appAndOrb.initial (appAsks ++ orbReplies)).map (fun n =>
      (appAnswers n, (n .app).exchange.calls, (n .orb).exchange.calls)) =
      some ([(0, [2], ⟨"orb", 0⟩)], [.ask ⟨.orb, [1], "orb", "ns", .atLeastOnce⟩ 0],
        [.reply ⟨⟨"app", 1, "ns"⟩, [1], 0, ⟨"app", 0⟩⟩ [2] .atLeastOnce]) := by decide
  obtain ⟨tr, t, h, hp⟩ := Run.of_exec_map he
  obtain ⟨hans, happ, horb⟩ := by simpa only [Prod.mk.injEq] using hp
  refine ⟨tr, t, (wire_run_iff ?_).mpr h, hans⟩
  have hshort : ∀ p : RelayPayload, p = ⟨some ⟨"app", 1, "ns"⟩, some ⟨"orb", 2, "ns"⟩, 0,
      some ⟨"", [1]⟩⟩ ∨ p = ⟨some ⟨"orb", 2, "ns"⟩, some ⟨"app", 1, "ns"⟩, 0, some ⟨"", [2]⟩⟩ →
      (RelayConnectRequest.payload p).Receivable := by
    have hns : utf8 "ns" = [110, 115] := by decide
    have happ : utf8 "app" = [97, 112, 112] := by decide
    have horb : utf8 "orb" = [111, 114, 98] := by decide
    have hone : (1 : Int32).toInt = 1 := by decide
    have htwo : (2 : Int32).toInt = 2 := by decide
    rintro p (rfl | rfl) <;>
      simp [RelayConnectRequest.Receivable, defaultMaxRecvMessageSize, RelayConnectRequest.encode,
        RelayConnectRequest.codec, RelayConnectRequest.msg, RelayPayload.codec, Entity.codec,
        Any.codec, Codec.encode, Codec.oneof, Codec.map, Codec.prod, Codec.message,
        Codec.implicit, Variant.or, Variant.message, Record.encode, Record.key, Content.payload,
        Content.wireType, Scalar.string, Scalar.bytes, Varint.scalar, Varint.int32,
        Varint.uint64, varint_of_lt, hns, happ, horb, hone, htwo]
  intro i call hc
  cases i with
  | app =>
    rw [happ] at hc
    obtain rfl := List.mem_singleton.mp hc
    exact hshort _ (.inl rfl)
  | orb =>
    rw [horb] at hc
    obtain rfl := List.mem_singleton.mp hc
    exact hshort _ (.inr rfl)

end Members
end OrbRelay.Client
