import OrbRelay.Client.Calls
import OrbRelay.Library.Transition

/-!
# The actor task

`run`, `main_loop` and `connect`, with all that runs beside them: the calls on the
client, the sleeping timers, the forwarders of `flume_receiver_stream::new` and the
transport. A step of the whole system is a step of one of these tasks. Results of
third-party code come with the action.
-/
namespace OrbRelay.Client
open Encoding Transition

/-- Where the actor task stands: checking the endpoint, opening the channel, waiting
for the result of `relay_connect`, reading the response stream in `connect`, in the
loop of `main_loop`, sleeping before the next attempt, or ended. -/
inductive Phase where
  | starting
  | dialing
  | calling
  | handshake
  | connected
  | backoff
  | ended (result : Except Err Unit)
  | panicked

namespace Phase

def isEnded : Phase → Bool
  | .ended _ | .panicked => true
  | _ => false

/-- Inside `connect`. -/
def connecting : Phase → Bool
  | .dialing | .calling | .handshake => true
  | _ => false

/-- No stream is open for the current attempt, and it may still get one. -/
def idle : Phase → Bool
  | .starting | .dialing | .backoff => true
  | _ => false

def isConnected : Phase → Bool
  | .connected => true
  | _ => false

theorem ne_connected_of_isEnded {p : Phase} (h : p.isEnded = true) : p ≠ .connected := by
  rintro rfl
  cases h

theorem not_connecting_of_isEnded {p : Phase} (h : p.isEnded = true) : p.connecting = false := by
  cases p <;> first | rfl | cases h

theorem isConnected_iff {p : Phase} : p.isConnected = true ↔ p = .connected := by
  cases p <;> simp [isConnected]

end Phase

/-- A running client. `attempt` counts the calls of `main_loop` and names the
cancellation token of the current one; `token` is what `Auth::TokenReceiver` shows;
`accepted` lists the attempts that read a `ConnectResponse` with `success`. -/
structure System where
  phase : Phase
  connAttempts : ℕ
  attempt : ℕ
  token : String
  streamEnded : Bool
  accepted : List ℕ
  exchange : Exchange

namespace System

def initial (token : String) : System where
  phase := .starting
  connAttempts := 1
  attempt := 0
  token := token
  streamEnded := false
  accepted := []
  exchange := .initial

/-- The top of the loop of `run`: a new token, and `main_loop` is entered. -/
def enter (s : System) : System :=
  { s with phase := .dialing, attempt := s.attempt + 1, streamEnded := false }

/-- `cancellation_token.cancel()`. -/
def cancel (s : System) : System :=
  { s with exchange := { s.exchange with tonic := s.exchange.tonic.cancel s.attempt } }

/-- `main_loop` has returned an error to `run`. -/
def fail (opts : ClientOpts) (s : System) : Err → System
  | .stopRequest => { s.cancel with phase := .ended (.ok ()) }
  | .reconnectRequest => s.cancel.enter
  | err =>
    if opts.maxConnectionAttempts.le s.connAttempts then
      { s.cancel with phase := .ended (.error err) }
    else { s.cancel with connAttempts := s.connAttempts + 1, phase := .backoff }

end System

/-- The `ConnectRequest` of an attempt; `Auth::Zkp` is a `todo!()`. -/
def connectRequest (opts : ClientOpts) (token : String) : Option ConnectRequest :=
  match opts.auth with
  | .token t => some ⟨some opts.entity, some (.token t)⟩
  | .tokenReceiver => some ⟨some opts.entity, some (.token token)⟩
  | .zkp => none

/-- What `response_stream.next()` can yield: a frame with or without `msg`, a status
error, or the end of the stream. -/
inductive StreamEvent where
  | message (msg : Option ResponseMsg) (tag : Tag)
  | status (error : String)
  | eof
deriving DecidableEq, Repr

/-- A `ConnectResponse` with `success = true`. -/
def StreamEvent.accepts : StreamEvent → Bool
  | .message (some (.connectResponse _ true _)) _ => true
  | _ => false

/-- One round of the `while let` loop of `connect`: go on, after passing a message to
the actor's queue if there is one, or leave the loop. -/
inductive Round where
  | next (forward : Option Msg)
  | done (result : Except Err Unit)

def connectRound : StreamEvent → Round
  | .message (some (.connectResponse _ true _)) _ => .done (.ok ())
  | .message (some (.connectResponse _ false _)) _ =>
    .done (.error (.other "Failed to establish connection."))
  | .message (some msg) tag => .next (some (.relayResponse msg tag))
  | .message none _ => .next none
  | .status error => .done (.error (.tonic error))
  | .eof => .done (.ok ())

/-- The loop of `connect` on the events of a fresh response stream: its result, if
they lead it to one, with the messages passed on and the events left unread. -/
def connectLoop : List StreamEvent → Option (Except Err Unit × List StreamEvent) × List Msg
  | [] => (none, [])
  | ev :: evs =>
    match connectRound ev with
    | .done result => (some (result, evs), [])
    | .next forward => ((connectLoop evs).1, forward.toList ++ (connectLoop evs).2)

def Exchange.startHeartbeat (e : Exchange) : Exchange :=
  if e.state.heartbeatStarted then e
  else { e with state := { e.state with heartbeatStarted := true } }.sleep .heartbeat

@[simp] theorem Exchange.startHeartbeat_actorRx (e : Exchange) :
    e.startHeartbeat.actorRx = e.actorRx := by
  unfold startHeartbeat
  split_ifs <;> rfl

@[simp] theorem Exchange.startHeartbeat_ops (e : Exchange) :
    e.startHeartbeat.ops = e.ops := by
  unfold startHeartbeat
  split_ifs <;> rfl

@[simp] theorem Exchange.startHeartbeat_started (e : Exchange) :
    e.startHeartbeat.state.heartbeatStarted = true := by
  unfold startHeartbeat
  split_ifs with hs
  · exact hs
  · rfl

@[simp] theorem Exchange.startHeartbeat_tonic (e : Exchange) :
    e.startHeartbeat.tonic = e.tonic := by
  unfold startHeartbeat
  split_ifs <;> rfl

/-- Results of opening the channel: done, a transport error, or a client id that is no
metadata value. -/
inductive DialResult where
  | ok
  | transport (error : String)
  | metadata
deriving DecidableEq, Repr

inductive Action where
  | client (a : ClientAction)
  | fire (i : ℕ)
  | tonic (a : TonicAction)
  | setToken (token : String)
  | validate (report : Option String)
  | dial (result : DialResult)
  | relayConnect (error : Option String)
  | timeout
  | response (ev : StreamEvent)
  | take
  | wake
deriving DecidableEq, Repr

namespace System

/-- `connect` has returned `Ok`: the heartbeat is spawned once, and the loop starts. -/
def mainLoop (s : System) : System :=
  { s with phase := .connected, exchange := s.exchange.startHeartbeat }

/-- The rest of `connect` up to the call of `relay_connect`, once the channel is open. -/
def callRelay (opts : ClientOpts) (s : System) : System :=
  match connectRequest opts s.token with
  | none => { s with phase := .panicked }
  | some request =>
    let e := s.exchange.tonicTx ⟨.connectRequest request, .connect s.attempt⟩
    { s with phase := .calling, exchange := { e with tonic := e.tonic.new s.attempt } }

/-- `handle_msg(..)?` in the loop of `main_loop`. -/
def handle (opts : ClientOpts) (s : System) (msg : Msg) : System :=
  match handleMsg opts (s.exchange.note msg) msg with
  | .ok e => { s with exchange := e }
  | .error err => { s with exchange := s.exchange.note msg }.fail opts err

/-- An event read in the loop of `connect`. -/
def round (opts : ClientOpts) (s : System) (ev : StreamEvent) : System :=
  match connectRound ev with
  | .next none => s
  | .next (some msg) => { s with exchange := s.exchange.post msg }
  | .done (.ok ()) => s.mainLoop
  | .done (.error err) => s.fail opts err

/-- An event read in the loop of `main_loop`. -/
def listen (opts : ClientOpts) (s : System) : StreamEvent → System
  | .eof => s.fail opts .streamEnded
  | .status error => s.fail opts (.tonic error)
  | .message none _ => s
  | .message (some msg) tag => s.handle opts (.relayResponse msg tag)

/-- The history of the handshake. -/
def note (s : System) (ev : StreamEvent) : System :=
  { s with
    streamEnded := ev = .eof
    accepted := if ev.accepts then s.attempt :: s.accepted else s.accepted }

/-- One event of the response stream. Once it has ended it stays so. The loop of
`main_loop` looks at it only when the actor's queue is empty. -/
def response (opts : ClientOpts) (s : System) (ev : StreamEvent) : Option System :=
  if s.streamEnded ∧ ev ≠ .eof then none
  else match s.phase with
    | .handshake => some ((s.note ev).round opts ev)
    | .connected => if s.exchange.actorRx = [] then some (s.listen opts ev) else none
    | _ => none

def step (opts : ClientOpts) (s : System) : Action → Option System
  | .client a => do
    let e ← s.exchange.client opts s.phase.isEnded a
    some { s with exchange := e }
  | .fire i => do
    let msg ← s.exchange.sleeping[i]?
    -- once the actor has ended, the send of a timer fails and nothing comes of it
    if s.phase.isEnded then none
    else some { s with exchange :=
      { s.exchange with sleeping := s.exchange.sleeping.eraseIdx i }.post msg }
  | .tonic a => do
    let p ← s.exchange.tonic.step a
    some { s with exchange := { s.exchange with tonic := p } }
  | .setToken token => some { s with token := token }
  | .validate report =>
    match s.phase, report with
    | .starting, none => some s.enter
    | .starting, some report => some { s with phase := .ended (.error (.other report)) }
    | _, _ => none
  | .dial result =>
    match s.phase, result with
    | .dialing, .ok => some (s.callRelay opts)
    | .dialing, .transport error => some (s.fail opts (.transport error))
    | .dialing, .metadata => some (s.fail opts (.other
        "Failed to convert client_id to metadata value (must be valid ASCII)"))
    | _, _ => none
  | .relayConnect error =>
    match s.phase, error with
    | .calling, none => some { s with phase := .handshake }
    | .calling, some error => some (s.fail opts (.tonic error))
    | _, _ => none
  | .timeout =>
    if s.phase.connecting then
      some (s.fail opts (.other "Timed out trying to establish a connection"))
    else none
  | .response ev => s.response opts ev
  | .take =>
    match s.phase, s.exchange.actorRx with
    | .connected, msg :: rest =>
      some ({ s with exchange := { s.exchange with actorRx := rest } }.handle opts msg)
    | _, _ => none
  | .wake =>
    match s.phase with
    | .backoff => some s.enter
    | _ => none

end System
end OrbRelay.Client
