import OrbRelay.Client.Books
import OrbRelay.Client.FirstFrame

/-!
# What a client hears and what it says

Responses come to the actor's queue and to `handle_msg` from the response stream
only, and the payload frames that a stream yields are those of the calls.
-/
namespace OrbRelay.Client
open Transition

/-! ## Responses -/

/-- All responses but the answer to a `ConnectRequest`. -/
def ResponseMsg.relayed : ResponseMsg → Bool
  | .connectResponse _ _ _ => false
  | _ => true

/-- The response in a message of the actor's queue. -/
def Msg.heard? : Msg → Option (ResponseMsg × Tag)
  | .relayResponse msg tag => if msg.relayed then some (msg, tag) else none
  | _ => none

/-- The response that an action reads from the stream. -/
def Action.hears? : Action → Option (ResponseMsg × Tag)
  | .response (.message (some msg) tag) => if msg.relayed then some (msg, tag) else none
  | _ => none

theorem Msg.heard?_timer {m : Msg} (h : m.timer = true) : m.heard? = none := by
  cases m <;> first | rfl | cases h

theorem Call.heard?_waiter {call : Call} {o : OpId} {m : Msg}
    (h : call.waiter o = some (.ok m)) : m.heard? = none := by
  rcases call.waiter_eq_ok h with ⟨_, -, -, rfl⟩ | ⟨_, -, rfl⟩ | ⟨_, _, _, -, -, rfl⟩ <;> rfl

namespace Exchange

variable {opts : ClientOpts} {e e' : Exchange}

/-- The responses among what was put into the actor's queue or handled. -/
def heard (e : Exchange) : List (ResponseMsg × Tag) := e.trail.filterMap Msg.heard?

theorem heard_post (e : Exchange) (m : Msg) : (e.post m).heard = e.heard ++ m.heard?.toList := by
  rw [heard, trail_post, List.filterMap_append, heard]
  cases h : m.heard? <;> simp [h]

theorem heard_post_none (e : Exchange) {m : Msg} (hm : m.heard? = none) :
    (e.post m).heard = e.heard := by
  rw [heard_post, hm, Option.toList_none, List.append_nil]

/-- What calls put into the queue is no response. -/
theorem Called.heard (h : e.Called opts e') : e'.heard = e.heard := by
  cases h with
  | enqueue o op pc ho hpc hpc' =>
    have hh := heard_post_none e (m := .send ⟨.payload (op.call.relayPayload opts), .op o⟩) rfl
    exact hh
  | register o op m ho hpc hw =>
    have hh := heard_post_none e (op.call.heard?_waiter hw)
    exact hh
  | control m hc => exact heard_post_none e (by rcases hc with rfl | rfl <;> rfl)
  | _ => rfl

end Exchange

namespace System

variable {opts : ClientOpts} {token : String} {s s' t : System} {a : Action}

theorem trail_fail (s : System) (err : Err) :
    (s.fail opts err).exchange.trail = s.exchange.trail := by
  rw [fail_exchange]
  rfl

theorem trail_handle (s : System) (msg : Msg) :
    (s.handle opts msg).exchange.trail = (s.exchange.note msg).trail := by
  unfold handle
  split
  · next h =>
    have h := handled_of_handleMsg h
    simp only [Exchange.trail, h.handled, h.actorRx]
  · exact trail_fail _ _

theorem heard_fail (s : System) (err : Err) :
    (s.fail opts err).exchange.heard = s.exchange.heard :=
  congrArg (List.filterMap Msg.heard?) (trail_fail s err)

theorem heard_round (s : System) (ev : StreamEvent) :
    (s.round opts ev).exchange.heard = s.exchange.heard ++ (Action.response ev).hears?.toList := by
  match ev with
  | .message none _ => exact (List.append_nil _).symm
  | .message (some (.ack _ _)) _ => exact s.exchange.heard_post _
  | .message (some (.payload _)) _ => exact s.exchange.heard_post _
  | .message (some (.connectResponse _ true _)) _ =>
    change s.exchange.startHeartbeat.heard = _
    unfold Exchange.startHeartbeat
    split_ifs <;> exact (List.append_nil _).symm
  | .message (some (.connectResponse _ false _)) _ =>
    exact (heard_fail s _).trans (List.append_nil _).symm
  | .status _ => exact (heard_fail s _).trans (List.append_nil _).symm
  | .eof =>
    change s.exchange.startHeartbeat.heard = _
    unfold Exchange.startHeartbeat
    split_ifs <;> exact (List.append_nil _).symm

theorem heard_listen (s : System) (ev : StreamEvent) (hq : s.exchange.actorRx = []) :
    (s.listen opts ev).exchange.heard = s.exchange.heard ++ (Action.response ev).hears?.toList := by
  match ev with
  | .eof => exact (heard_fail s _).trans (List.append_nil _).symm
  | .status error => exact (heard_fail s _).trans (List.append_nil _).symm
  | .message none _ => exact (List.append_nil _).symm
  | .message (some m) tag =>
    have ht : (s.exchange.note (.relayResponse m tag)).trail =
        s.exchange.trail ++ [.relayResponse m tag] := by
      simp [Exchange.trail, Exchange.note, hq]
    simp only [listen, Exchange.heard, trail_handle, ht, List.filterMap_append]
    simp only [Action.hears?, Msg.heard?]
    cases hr : m.relayed <;> simp [Msg.heard?, hr]

theorem heard_response {ev : StreamEvent} (h : s.response opts ev = some s') :
    s'.exchange.heard = s.exchange.heard ++ (Action.response ev).hears?.toList := by
  unfold response at h
  split at h
  · cases h
  split at h
  · cases h
    exact heard_round (s.note ev) ev
  · split_ifs at h with hq
    cases h
    exact heard_listen s ev hq
  · cases h

/-- The responses in the trail are those that the steps have read, in order. -/
theorem heard_of_step (h : s.step opts a = some s')
    (ht : ∀ m ∈ s.exchange.sleeping, m.timer = true) :
    s'.exchange.heard = s.exchange.heard ++ a.hears?.toList := by
  have hnone : ∀ {e : Exchange}, e.heard = s.exchange.heard →
      e.heard = s.exchange.heard ++ (none : Option (ResponseMsg × Tag)).toList := fun h =>
    h.trans (List.append_nil _).symm
  cases a with
  | client a =>
    obtain ⟨e, he, h⟩ := Option.bind_eq_some_iff.mp h
    cases h
    exact hnone (Exchange.called_of_client he).heard
  | fire i =>
    obtain ⟨m, hi, h⟩ := Option.bind_eq_some_iff.mp h
    split_ifs at h
    cases h
    have hm := Msg.heard?_timer (ht m (List.mem_of_getElem? hi))
    exact hnone (Exchange.heard_post_none _ hm)
  | tonic a =>
    obtain ⟨p, hp, h⟩ := Option.bind_eq_some_iff.mp h
    cases h
    exact hnone rfl
  | setToken token => cases h; exact hnone rfl
  | validate report =>
    simp only [step] at h
    split at h <;> cases h <;> exact hnone rfl
  | dial result =>
    simp only [step] at h
    split at h <;> cases h
    · refine hnone ?_
      unfold callRelay
      split <;> rfl
    · exact hnone (heard_fail s _)
    · exact hnone (heard_fail s _)
  | relayConnect error =>
    simp only [step] at h
    split at h <;> cases h
    · exact hnone rfl
    · exact hnone (heard_fail s _)
  | timeout =>
    simp only [step] at h
    split_ifs at h
    cases h
    exact hnone (heard_fail s _)
  | response ev => exact heard_response h
  | take =>
    simp only [step] at h
    split at h
    · next m rest hph hq =>
      cases h
      refine hnone ?_
      simp only [Exchange.heard, trail_handle]
      exact congrArg (List.filterMap Msg.heard?) (Exchange.trail_take hq)
    · cases h
  | wake =>
    simp only [step] at h
    split at h <;> cases h
    exact hnone rfl

/-- A response that a step adds to the trail is the one that the step reads. -/
theorem response_of_step (h : s.step opts a = some s')
    (ht : ∀ m ∈ s.exchange.sleeping, m.timer = true) {msg : ResponseMsg} {tag : Tag}
    (hr : msg.relayed = true) (hm : .relayResponse msg tag ∈ s'.exchange.trail) :
    .relayResponse msg tag ∈ s.exchange.trail ∨ a = .response (.message (some msg) tag) := by
  have hh : (msg, tag) ∈ s'.exchange.heard :=
    List.mem_filterMap.mpr ⟨_, hm, by simp [Msg.heard?, hr]⟩
  rw [heard_of_step h ht] at hh
  rcases List.mem_append.mp hh with hh | hh
  · left
    obtain ⟨m, hm, heq⟩ := List.mem_filterMap.mp hh
    unfold Msg.heard? at heq
    split at heq
    · split_ifs at heq
      cases heq
      exact hm
    · cases heq
  · right
    have heq := Option.mem_toList.mp hh
    unfold Action.hears? at heq
    split at heq
    · split_ifs at heq
      cases heq
      rfl
    · cases heq

/-- A step handles what is in the queue, or what it reads itself. -/
theorem handles_eq_some {m : Msg} (h : s.handles a = some m) :
    m ∈ s.exchange.actorRx ∨ ∃ msg tag, m = .relayResponse msg tag ∧
      a = .response (.message (some msg) tag) := by
  match a with
  | .take => exact .inl (List.mem_of_mem_head? h)
  | .response (.message (some msg) tag) =>
    simp only [handles] at h
    split_ifs at h
    cases h
    exact .inr ⟨msg, tag, rfl, rfl⟩

/-! ## Payload frames -/

/-- A frame that a stream yields on behalf of a call is the frame of that call. -/
theorem said_of_reachable (h : Reachable (step opts) (initial token) s) {w : Forwarder Frame}
    (hw : w ∈ s.exchange.tonic.streams) {f : Frame} (hf : f ∈ w.yielded) {o : OpId}
    (ho : f.origin = .op o) :
    ∃ op, s.exchange.ops[o]? = some op ∧ f = ⟨.payload (op.call.relayPayload opts), .op o⟩ := by
  have hi := (serving_of_reachable h).inv
  have hpushed : f ∈ s.exchange.tonic.pushed := by
    rw [← hi.conserved]
    exact List.mem_append_left _
      (List.mem_flatMap.mpr ⟨w, hw, (hi.ordered w hw).yields.subset hf⟩)
  have hsent := (booked_of_reachable h).pushed f hpushed o ho
  obtain ⟨op, hop, hfirst | hwait⟩ :=
    (accounted_of_reachable h).of_trail (List.mem_append_left _ hsent) (Msg.by?_send ho)
  · exact ⟨op, hop, Msg.send.inj hfirst⟩
  · exact absurd hwait (op.call.waiter_ne_send o f)

end System
end OrbRelay.Client
