import OrbRelay.Client.Actor

/-!
# Calls on a client

`lib.rs` seen from the tasks that use a client. A call on an `actor_tx` whose
actor has ended fails; otherwise the two sends of `send`, `ask` and `reply` are
two steps, and other tasks can run between them.
-/
namespace OrbRelay.Client
open Encoding

/-- What the tasks that own a client and its clones can do. `reply` names one of
the received messages, `poll` and `drop` name a call. -/
inductive ClientAction where
  | send (msg : SendMessage)
  | ask (msg : SendMessage)
  | reply (i : ℕ) (payload : Bytes) (qos : QoS)
  | poll (o : OpId)
  | drop (o : OpId)
  | recv
  | stop
  | reconnect
  | release
deriving DecidableEq, Repr

def Op.finished (op : Op) : Bool :=
  match op.pc with
  | .returned _ | .dropped => true
  | _ => false

namespace Exchange

/-- `actor_tx.send`, while the actor runs. -/
def post (e : Exchange) (msg : Msg) : Exchange := { e with actorRx := e.actorRx ++ [msg] }

def setPc (e : Exchange) (o : OpId) (op : Op) (pc : Pc) : Exchange :=
  { e with ops := e.ops.set o { op with pc := pc } }

/-- What the channel of a call holds. -/
def outcome (e : Exchange) (o : OpId) : Call → Option (Option Bytes)
  | .ask _ _ => (e.answered.find? (·.1 = o)).map fun x => some x.2.payload
  | _ => if o ∈ e.acked then some none else none

/-- Some sending end of the channel of a call is still there: in the actor's queue,
or in its maps. -/
def senderAlive (ended : Bool) (e : Exchange) (o : OpId) : Call → Bool
  | .ask msg seq => e.actorRx.contains (.waitForReply msg o seq) ||
      (!ended && (e.state.pendingReplies (msg.targetId, seq)).any (·.2 = o))
  | call => e.actorRx.any (fun m => call.waiter o = some (.ok m)) ||
      (!ended && (e.state.pendingAcks call.seq).any (·.2 = o))

/-- Let the task of a call run to its next stop. -/
def poll (opts : ClientOpts) (ended : Bool) (e : Exchange) (o : OpId) (op : Op) :
    Option Exchange :=
  match op.pc with
  | .enqueue =>
    if ended then
      some (e.setPc o op (.returned (.error (.other "Failed to send message to tonic"))))
    else
      let e := e.post (.send ⟨.payload (op.call.relayPayload opts), .op o⟩)
      match op.call.waiter o with
      | none => some (e.setPc o op (.returned (.ok none)))
      | some _ => some (e.setPc o op .register)
  | .register =>
    match op.call.waiter o with
    | none => none
    | some (.error err) => some (e.setPc o op (.returned (.error err)))
    | some (.ok msg) =>
      if ended then
        some (e.setPc o op (.returned (.error (.other "Error reaching actor loop"))))
      else some ((e.post msg).setPc o op .wait)
  | .wait =>
    match e.outcome o op.call with
    | some result => some (e.setPc o op (.returned (.ok result)))
    | none =>
      if e.senderAlive ended o op.call then none
      else some (e.setPc o op (.returned (.error (.other "Error when waiting for ack"))))
  | .returned _ => none
  | .dropped => none

/-- One step of the tasks that own the client; `ended` says that the actor's end of
`actor_tx` is gone. -/
def client (opts : ClientOpts) (ended : Bool) (e : Exchange) : ClientAction → Option Exchange
  | .send msg =>
    if e.clientsAlive then
      some { e with seq := e.seq + 1, ops := e.ops ++ [⟨.send msg e.seq, .enqueue⟩] }
    else none
  | .ask msg =>
    if e.clientsAlive then
      some { e with seq := e.seq + 1, ops := e.ops ++ [⟨.ask msg e.seq, .enqueue⟩] }
    else none
  | .reply i payload qos => do
    let on ← e.received[i]?
    if e.clientsAlive then some { e with ops := e.ops ++ [⟨.reply on payload qos, .enqueue⟩] }
    else none
  | .poll o => do
    let op ← e.ops[o]?
    e.poll opts ended o op
  | .drop o => do
    let op ← e.ops[o]?
    match op.pc with
    | .wait => some (e.setPc o op .dropped)
    | _ => none
  | .recv =>
    match e.clientRx with
    | [] => none
    | msg :: rest =>
      if e.clientsAlive then some { e with
        clientRx := rest
        received := e.received ++ [⟨msg.from_, msg.payload, msg.seq, msg.tag⟩] }
      else none
  | .stop => if e.clientsAlive && !ended then some (e.post .stop) else none
  | .reconnect => if e.clientsAlive && !ended then some (e.post .reconnect) else none
  | .release =>
    -- the last `Client` can go once no call borrows it
    if e.clientsAlive && e.ops.all Op.finished then some { e with clientsAlive := false } else none

end Exchange

/-! ## What a step of the callers changes -/

/-- Calls that get their number from the client's own counter. -/
def Call.own : Call → Bool
  | .reply _ _ _ => false
  | _ => true

/-- Everything that a step of the callers can do. -/
inductive Exchange.Called (opts : ClientOpts) (e : Exchange) : Exchange → Prop where
  | own (call : Call) (hc : call.own = true) (hs : call.seq = e.seq) :
      Called opts e { e with seq := e.seq + 1, ops := e.ops ++ [⟨call, .enqueue⟩] }
  | reply (on : RecvMessage) (payload : Bytes) (qos : QoS) (hr : on ∈ e.received) :
      Called opts e { e with ops := e.ops ++ [⟨.reply on payload qos, .enqueue⟩] }
  | enqueue (o : OpId) (op : Op) (pc : Pc) (ho : e.ops[o]? = some op) (hpc : op.pc = .enqueue)
      (hpc' : pc = .register ∧ (op.call.waiter o).isSome ∨
        pc = .returned (.ok none) ∧ op.call.waiter o = none) :
      Called opts e ((e.post (.send ⟨.payload (op.call.relayPayload opts), .op o⟩)).setPc o op pc)
  | register (o : OpId) (op : Op) (msg : Msg) (ho : e.ops[o]? = some op)
      (hpc : op.pc = .register) (hw : op.call.waiter o = some (.ok msg)) :
      Called opts e ((e.post msg).setPc o op .wait)
  | finish (o : OpId) (op : Op) (result : Option Bytes) (ho : e.ops[o]? = some op)
      (hpc : op.pc = .wait) (hr : e.outcome o op.call = some result) :
      Called opts e (e.setPc o op (.returned (.ok result)))
  | abandon (o : OpId) (op : Op) (pc : Pc) (ho : e.ops[o]? = some op)
      (hpc : op.pc = .enqueue ∨ op.pc = .register ∨ op.pc = .wait)
      (hpc' : pc = .dropped ∨ ∃ err, pc = .returned (.error err)) :
      Called opts e (e.setPc o op pc)
  | recv (msg : RecvdRelayPayload) (rest : List RecvdRelayPayload)
      (hm : e.clientRx = msg :: rest) :
      Called opts e { e with
        clientRx := rest
        received := e.received ++ [⟨msg.from_, msg.payload, msg.seq, msg.tag⟩] }
  | control (msg : Msg) (hm : msg = .stop ∨ msg = .reconnect) : Called opts e (e.post msg)
  | release : Called opts e { e with clientsAlive := false }

theorem Exchange.called_of_poll {opts : ClientOpts} {ended : Bool} {e e' : Exchange} {o : OpId}
    {op : Op} (ho : e.ops[o]? = some op) (h : e.poll opts ended o op = some e') :
    Called opts e e' := by
  unfold poll at h
  split at h
  · next hpc =>
    split_ifs at h
    · cases h
      exact .abandon o op _ ho (.inl hpc) (.inr ⟨_, rfl⟩)
    · split at h
      · next hw => cases h; exact .enqueue o op _ ho hpc (.inr ⟨rfl, hw⟩)
      · next hw => cases h; exact .enqueue o op _ ho hpc (.inl ⟨rfl, by simp [hw]⟩)
  · next hpc =>
    split at h
    · cases h
    · cases h
      exact .abandon o op _ ho (.inr (.inl hpc)) (.inr ⟨_, rfl⟩)
    · next msg hw =>
      split_ifs at h
      · cases h
        exact .abandon o op _ ho (.inr (.inl hpc)) (.inr ⟨_, rfl⟩)
      · cases h
        exact .register o op msg ho hpc hw
  · next hpc =>
    split at h
    · next result hr => cases h; exact .finish o op result ho hpc hr
    · split_ifs at h
      cases h
      exact .abandon o op _ ho (.inr (.inr hpc)) (.inr ⟨_, rfl⟩)
  · cases h
  · cases h

theorem Exchange.called_of_client {opts : ClientOpts} {ended : Bool} {e e' : Exchange}
    {a : ClientAction} (h : e.client opts ended a = some e') : Called opts e e' := by
  cases a with
  | send msg =>
    simp only [client] at h
    split_ifs at h
    cases h
    exact .own (.send msg e.seq) rfl rfl
  | ask msg =>
    simp only [client] at h
    split_ifs at h
    cases h
    exact .own (.ask msg e.seq) rfl rfl
  | reply i payload qos =>
    simp only [client, Option.bind_eq_bind, Option.bind_eq_some_iff] at h
    obtain ⟨on, hon, h⟩ := h
    split_ifs at h
    cases h
    exact .reply on payload qos (List.mem_of_getElem? hon)
  | poll o =>
    simp only [client, Option.bind_eq_bind, Option.bind_eq_some_iff] at h
    obtain ⟨op, ho, h⟩ := h
    exact called_of_poll ho h
  | drop o =>
    simp only [client, Option.bind_eq_bind, Option.bind_eq_some_iff] at h
    obtain ⟨op, ho, h⟩ := h
    split at h
    · next hpc => cases h; exact .abandon o op _ ho (.inr (.inr hpc)) (.inl rfl)
    · cases h
  | recv =>
    simp only [client] at h
    split at h
    · cases h
    · next msg rest hm =>
      split_ifs at h
      cases h
      exact .recv msg rest hm
  | stop =>
    simp only [client] at h
    split_ifs at h
    cases h
    exact .control _ (.inl rfl)
  | reconnect =>
    simp only [client] at h
    split_ifs at h
    cases h
    exact .control _ (.inr rfl)
  | release =>
    simp only [client] at h
    split_ifs at h
    cases h
    exact .release

end OrbRelay.Client
