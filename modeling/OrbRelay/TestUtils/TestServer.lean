import OrbRelay.Client.Inbound
import OrbRelay.Client.Network

/-!
# The relay of the tests

`TestServer` keeps one sender for each entity that has announced itself, under the text
of its id, namespace and type. The stream of a connection handles one request at a time
and yields what its handler answers and what others send to it. What a handler asks of
`ConnectedClients` is done by tasks of their own.
-/
namespace OrbRelay.TestUtils
open Client Transition

/-- The name of a connection, which is its place. -/
abbrev ConnId := ℕ

def entityKey (e : Entity) : String := e.id ++ e.namespace_ ++ toString e.entityType

inductive Cmd where
  | send (payload : RelayPayload) (tag : Tag)
  | terminate
deriving DecidableEq, Repr

/-- What a handler can ask of `ConnectedClients`. -/
inductive ClientsCall where
  | send (payload : RelayPayload)
  | stop (entity : Entity)
deriving DecidableEq, Repr

/-- The tasks that these calls spawn; `stop` makes the key before. -/
inductive Task where
  | send (payload : RelayPayload) (tag : Tag)
  | stop (key : String)
deriving DecidableEq, Repr

def ClientsCall.task (tag : Tag) : ClientsCall → Task
  | send payload => .send payload tag
  | stop entity => .stop (entityKey entity)

/-- How a handler ends: in a panic, or with its response, whose `msg` may be unset. -/
inductive Outcome where
  | panicked
  | returned (response : Option (Option ResponseMsg))
deriving DecidableEq, Repr

/-- What a handler makes of a request: the new state, its calls and how it ends. Even a
panic leaves what was done before. -/
structure Handling (S : Type) where
  state : S
  calls : List ClientsCall
  outcome : Outcome

abbrev Handler (S : Type) := S → RelayConnectRequest → Handling S

/-- What the request stream of a connection can yield: a frame, of which only the client's
have always their `msg`, an error or the end. -/
inductive Inbound where
  | message (msg : Option RelayConnectRequest) (tag : Tag)
  | status
  | eof
deriving DecidableEq, Repr

/-- The response stream of a connection. `held` is the request that `handled_replies` has
read, and `inserted` says that it has got past `clients.insert`; `closed` that the stream
has ended or panicked. `read`, `handled` and `received` are history. -/
structure Conn where
  held : Option (RelayConnectRequest × Tag)
  inserted : Bool
  rx : List Cmd
  yielded : List (Option ResponseMsg × Tag)
  closed : Bool
  read : List (RelayConnectRequest × Tag)
  handled : List (RelayConnectRequest × Tag)
  received : List Cmd
deriving DecidableEq, Repr

def Conn.new : Conn := ⟨none, false, [], [], false, [], [], []⟩

def Conn.close (w : Conn) : Conn := { w with closed := true }

/-- What comes of the request that the handler has had. -/
def Conn.answer (w : Conn) (msg : RelayConnectRequest) (tag : Tag) : Outcome → Conn
  | .panicked => { w with
      held := none
      inserted := false
      handled := w.handled ++ [(msg, tag)]
      closed := true }
  | .returned response => { w with
      held := none
      inserted := false
      yielded := w.yielded ++ (response.map (·, tag)).toList
      handled := w.handled ++ [(msg, tag)] }

def isConnectRequest : RelayConnectRequest → Bool
  | .connectRequest _ => true
  | _ => false

/-- A running `TestServer`: the state of its handler, the map of `ConnectedClients`, the
tasks that have not run yet, and all connections. `log`, which is history, lists what the
handler was called for. -/
structure Server (S : Type) where
  state : S
  clients : String → Option ConnId
  tasks : List Task
  conns : List Conn
  log : List (ConnId × RelayConnectRequest × Tag)

inductive ServerAction where
  | accept
  | read (c : ConnId) (ev : Inbound)
  | insert (c : ConnId)
  | handle (c : ConnId)
  | recv (c : ConnId)
  | run (i : ℕ)
  | drop (c : ConnId)
deriving DecidableEq, Repr

namespace Server

variable {S : Type}

def initial (state : S) : Server S := ⟨state, fun _ => none, [], [], []⟩

def setConn (s : Server S) (c : ConnId) (w : Conn) : Server S :=
  { s with conns := s.conns.set c w }

/-- `tx.send` on the sender under a key; where its receiver is gone nothing comes of it. -/
def deliver (s : Server S) (key : String) (cmd : Cmd) : Server S :=
  match s.clients key with
  | none => s
  | some c =>
    match s.conns[c]? with
    | none => s
    | some w => if w.closed then s else s.setConn c { w with rx := w.rx ++ [cmd] }

def runTask (s : Server S) : Task → Server S
  | .send payload tag =>
    match payload.dst with
    | none => s -- the `unwrap` ends the task
    | some entity => s.deliver (entityKey entity) (.send payload tag)
  | .stop key => s.deliver key .terminate

/-- The rest of `handled_replies`, and its arm of the `select`. -/
def handle (handler : Handler S) (s : Server S) (c : ConnId) (w : Conn)
    (msg : RelayConnectRequest) (tag : Tag) : Server S :=
  let r := handler s.state msg
  { s with
    state := r.state
    tasks := s.tasks ++ r.calls.map (ClientsCall.task tag)
    conns := s.conns.set c (w.answer msg tag r.outcome)
    log := s.log ++ [(c, msg, tag)] }

/-- The other arm: whatever `handled_replies` has got to is dropped. -/
def recv (s : Server S) (c : ConnId) (w : Conn) (cmd : Cmd) (rest : List Cmd) : Server S :=
  let w := { w with held := none, inserted := false, rx := rest, received := w.received ++ [cmd] }
  match cmd with
  | .send payload tag =>
    s.setConn c { w with yielded := w.yielded ++ [(some (.payload payload), tag)] }
  | .terminate => s.setConn c w.close

def step (handler : Handler S) (s : Server S) : ServerAction → Option (Server S)
  | .accept => some { s with conns := s.conns ++ [.new] }
  | .read c ev => do
    let w ← s.conns[c]?
    if w.closed ∨ w.held.isSome then none
    else match ev with
      | .message (some msg) tag =>
        some (s.setConn c { w with held := some (msg, tag), read := w.read ++ [(msg, tag)] })
      | _ => some (s.setConn c w.close) -- one of the `unwrap`s panics
  | .insert c => do
    let w ← s.conns[c]?
    if w.closed ∨ w.inserted then none
    else match w.held with
      | some (.connectRequest ⟨some entity, _⟩, _) =>
        some ({ s with clients := Function.update s.clients (entityKey entity) (some c) }.setConn c
          { w with inserted := true })
      | some (.connectRequest ⟨none, _⟩, _) => some (s.setConn c w.close)
      | _ => none
  | .handle c => do
    let w ← s.conns[c]?
    let (msg, tag) ← w.held
    if w.closed ∨ (isConnectRequest msg ∧ ¬ w.inserted) then none
    else some (s.handle handler c w msg tag)
  | .recv c => do
    let w ← s.conns[c]?
    if w.closed then none
    else match w.rx with
      | [] => none
      | cmd :: rest => some (s.recv c w cmd rest)
  | .run i => do
    let task ← s.tasks[i]?
    some ({ s with tasks := s.tasks.eraseIdx i }.runTask task)
  | .drop c => do
    let w ← s.conns[c]?
    if w.closed then none else some (s.setConn c w.close)

end Server

/-! ## What a step changes -/

/-- What the end of a handler makes a connection yield. -/
def Outcome.item? (tag : Tag) : Outcome → Option (Option ResponseMsg × Tag)
  | .panicked => none
  | .returned response => response.map (·, tag)

namespace Conn

variable (w : Conn) (msg : RelayConnectRequest) (tag : Tag) (outcome : Outcome)

@[simp] theorem answer_rx : (w.answer msg tag outcome).rx = w.rx := by
  cases outcome <;> rfl

@[simp] theorem answer_read : (w.answer msg tag outcome).read = w.read := by
  cases outcome <;> rfl

@[simp] theorem answer_received : (w.answer msg tag outcome).received = w.received := by
  cases outcome <;> rfl

@[simp] theorem answer_handled :
    (w.answer msg tag outcome).handled = w.handled ++ [(msg, tag)] := by
  cases outcome <;> rfl

theorem answer_yielded :
    (w.answer msg tag outcome).yielded = w.yielded ++ (outcome.item? tag).toList := by
  cases outcome with
  | panicked => exact (List.append_nil w.yielded).symm
  | returned response => rfl

variable {w msg tag outcome}

theorem mem_yielded_answer {x : Option ResponseMsg × Tag}
    (h : x ∈ (w.answer msg tag outcome).yielded) :
    x ∈ w.yielded ∨ outcome = .returned (some x.1) := by
  rw [answer_yielded] at h
  refine (List.mem_append.mp h).imp_right fun h => ?_
  cases outcome with
  | panicked => cases h
  | returned response =>
    obtain ⟨m, hm, rfl⟩ := Option.map_eq_some_iff.mp (Option.mem_toList.mp h)
    exact congrArg Outcome.returned hm

end Conn

/-- What a step does to a connection. -/
inductive Conn.Moves (w : Conn) : Conn → Prop where
  | read (msg : RelayConnectRequest) (tag : Tag) (hh : w.held = none) :
      Moves w { w with held := some (msg, tag), read := w.read ++ [(msg, tag)] }
  | close : Moves w w.close
  | insert : Moves w { w with inserted := true }
  | handle (msg : RelayConnectRequest) (tag : Tag) (outcome : Outcome)
      (hh : w.held = some (msg, tag)) : Moves w (w.answer msg tag outcome)
  | send (payload : RelayPayload) (tag : Tag) (rest : List Cmd)
      (hq : w.rx = .send payload tag :: rest) :
      Moves w { w with
        held := none
        inserted := false
        rx := rest
        received := w.received ++ [.send payload tag]
        yielded := w.yielded ++ [(some (.payload payload), tag)] }
  | terminate (rest : List Cmd) (hq : w.rx = .terminate :: rest) :
      Moves w { w with
        held := none
        inserted := false
        rx := rest
        received := w.received ++ [.terminate]
        closed := true }
  | push (cmd : Cmd) : Moves w { w with rx := w.rx ++ [cmd] }

namespace Server

variable {S : Type} {handler : Handler S} {s s' : Server S} {a : ServerAction}

/-- What a step does to the server. -/
inductive Moves (handler : Handler S) (s : Server S) : ServerAction → Server S → Prop where
  | accept : Moves handler s .accept { s with conns := s.conns ++ [.new] }
  | read (c : ConnId) (w : Conn) (msg : RelayConnectRequest) (tag : Tag)
      (hc : s.conns[c]? = some w) (hh : w.held = none) :
      Moves handler s (.read c (.message (some msg) tag))
        (s.setConn c { w with held := some (msg, tag), read := w.read ++ [(msg, tag)] })
  | conn {a : ServerAction} (c : ConnId) (w w' : Conn) (hc : s.conns[c]? = some w)
      (hw : w.Moves w') (hread : w'.read = w.read) (hn : w'.handled = w.handled)
      (hrx : w'.rx ⊆ w.rx)
      (hy : ∀ payload tag, (some (.payload payload), tag) ∈ w'.yielded →
        (some (.payload payload), tag) ∈ w.yielded ∨ .send payload tag ∈ w'.received) :
      Moves handler s a (s.setConn c w')
  | insert (c : ConnId) (w : Conn) (entity : Entity) (auth : Option AuthMethod) (tag : Tag)
      (hc : s.conns[c]? = some w)
      (hh : w.held = some (.connectRequest ⟨some entity, auth⟩, tag)) :
      Moves handler s (.insert c)
        ({ s with clients := Function.update s.clients (entityKey entity) (some c) }.setConn c
          { w with inserted := true })
  | handle (c : ConnId) (w : Conn) (msg : RelayConnectRequest) (tag : Tag)
      (hc : s.conns[c]? = some w) (hh : w.held = some (msg, tag)) :
      Moves handler s (.handle c) (s.handle handler c w msg tag)
  | deliver (i : ℕ) (c : ConnId) (w : Conn) (key : String) (cmd : Cmd)
      (hk : s.clients key = some c) (hc : s.conns[c]? = some w)
      (hcmd : ∀ payload tag, cmd = .send payload tag →
        .send payload tag ∈ s.tasks ∧ ∃ entity, payload.dst = some entity ∧
          entityKey entity = key) :
      Moves handler s (.run i)
        ({ s with tasks := s.tasks.eraseIdx i }.setConn c { w with rx := w.rx ++ [cmd] })
  | forget (i : ℕ) : Moves handler s (.run i) { s with tasks := s.tasks.eraseIdx i }

theorem moves_deliver {i : ℕ} {key : String} {cmd : Cmd}
    (hcmd : ∀ payload tag, cmd = .send payload tag → .send payload tag ∈ s.tasks ∧
      ∃ entity, payload.dst = some entity ∧ entityKey entity = key) :
    Moves handler s (.run i) ({ s with tasks := s.tasks.eraseIdx i }.deliver key cmd) := by
  unfold deliver
  split
  · exact .forget i
  · next c hk =>
    split
    · exact .forget i
    · next w hc =>
      split_ifs
      · exact .forget i
      · exact .deliver i c w key cmd hk hc hcmd

theorem moves_runTask {i : ℕ} {task : Task} (ht : s.tasks[i]? = some task) :
    Moves handler s (.run i) ({ s with tasks := s.tasks.eraseIdx i }.runTask task) := by
  cases task with
  | send payload tag =>
    cases hd : payload.dst with
    | none =>
      simp only [runTask, hd]
      exact .forget i
    | some entity =>
      simp only [runTask, hd]
      refine moves_deliver fun payload' tag' heq => ?_
      cases heq
      exact ⟨List.mem_of_getElem? ht, entity, hd, rfl⟩
  | stop key => exact moves_deliver fun payload tag heq => by cases heq

theorem moves_of_step (h : s.step handler a = some s') : Moves handler s a s' := by
  cases a with
  | accept =>
    cases h
    exact .accept
  | read c ev =>
    obtain ⟨w, hc, h⟩ := Option.bind_eq_some_iff.mp h
    split_ifs at h with hw
    simp only [not_or, Bool.not_eq_true, Option.isSome_eq_false_iff,
      Option.isNone_iff_eq_none] at hw
    split at h <;> cases h
    · exact .read c w _ _ hc hw.2
    · exact .conn c w _ hc .close rfl rfl (List.Subset.refl _) fun _ _ h => .inl h
  | insert c =>
    obtain ⟨w, hc, h⟩ := Option.bind_eq_some_iff.mp h
    split_ifs at h
    split at h <;> cases h
    · next hh => exact .insert c w _ _ _ hc hh
    · exact .conn c w _ hc .close rfl rfl (List.Subset.refl _) fun _ _ h => .inl h
  | handle c =>
    obtain ⟨w, hc, h⟩ := Option.bind_eq_some_iff.mp h
    obtain ⟨⟨msg, tag⟩, hh, h⟩ := Option.bind_eq_some_iff.mp h
    dsimp only at h
    split_ifs at h
    cases h
    exact .handle c w msg tag hc hh
  | recv c =>
    obtain ⟨w, hc, h⟩ := Option.bind_eq_some_iff.mp h
    split_ifs at h
    split at h
    · cases h
    · next cmd rest hq =>
      cases h
      have hrest : rest ⊆ w.rx := hq ▸ List.subset_cons_self cmd rest
      cases cmd with
      | send payload tag =>
        refine .conn c w _ hc (.send payload tag rest hq) rfl rfl hrest fun payload' tag' h => ?_
        refine (List.mem_append.mp h).imp_right fun h => ?_
        cases List.mem_singleton.mp h
        exact List.mem_append_right _ (List.mem_singleton_self _)
      | terminate => exact .conn c w _ hc (.terminate rest hq) rfl rfl hrest fun _ _ h => .inl h
  | run i =>
    obtain ⟨task, ht, h⟩ := Option.bind_eq_some_iff.mp h
    cases h
    exact moves_runTask ht
  | drop c =>
    obtain ⟨w, hc, h⟩ := Option.bind_eq_some_iff.mp h
    split_ifs at h
    cases h
    exact .conn c w _ hc .close rfl rfl (List.Subset.refl _) fun _ _ h => .inl h

/-- What a step does to the connection `c`, and where the commands and the payloads in it
come from. -/
structure ConnMoves (handler : Handler S) (s : Server S) (c : ConnId) (w w' : Conn) : Prop where
  moves : w' = w ∨ w.Moves w'
  rx : ∀ payload tag, .send payload tag ∈ w'.rx → .send payload tag ∈ w.rx ∨
    .send payload tag ∈ s.tasks ∧ ∃ entity, payload.dst = some entity ∧
      s.clients (entityKey entity) = some c
  yielded : ∀ payload tag, (some (.payload payload), tag) ∈ w'.yielded →
    (some (.payload payload), tag) ∈ w.yielded ∨ .send payload tag ∈ w'.received ∨
      ∃ state msg, (handler state msg).outcome = .returned (some (some (.payload payload)))

theorem ConnMoves.same (handler : Handler S) (s : Server S) (c : ConnId) (w : Conn) :
    ConnMoves handler s c w w :=
  ⟨.inl rfl, fun _ _ h => .inl h, fun _ _ h => .inl h⟩

theorem ConnMoves.set {c₀ c : ConnId} {w₀ w₁ w' : Conn} (h₀ : s.conns[c₀]? = some w₀)
    (hm : ConnMoves handler s c₀ w₀ w₁) (hc : (s.conns.set c₀ w₁)[c]? = some w') :
    ∃ w, s.conns[c]? = some w ∧ ConnMoves handler s c w w' := by
  by_cases hcc : c₀ = c
  · subst hcc
    rw [List.getElem?_set_self (List.getElem?_eq_some_iff.mp h₀).1] at hc
    cases hc
    exact ⟨w₀, h₀, hm⟩
  · rw [List.getElem?_set_ne hcc] at hc
    exact ⟨w', hc, .same handler s c w'⟩

/-- A connection after a step is new, or was there and has moved at most. -/
theorem Moves.conn_of (h : Moves handler s a s') {c : ConnId} {w' : Conn}
    (hc : s'.conns[c]? = some w') :
    w' = .new ∧ s.conns[c]? = none ∨
      ∃ w, s.conns[c]? = some w ∧ ConnMoves handler s c w w' := by
  cases h with
  | accept =>
    rw [List.getElem?_append] at hc
    split_ifs at hc with hlt
    · exact .inr ⟨w', hc, .same handler s c w'⟩
    · have hlast := List.mem_singleton.mp (List.mem_of_getElem? hc)
      exact .inl ⟨hlast, List.getElem?_eq_none (Nat.le_of_not_lt hlt)⟩
  | read c₀ w msg tag h₀ hh =>
    have hm : ConnMoves handler s c₀ w _ :=
      ⟨.inr (.read msg tag hh), fun _ _ h => .inl h, fun _ _ h => .inl h⟩
    exact .inr (hm.set h₀ hc)
  | conn c₀ w w₁ h₀ hw hread hn hrx hy =>
    have hm : ConnMoves handler s c₀ w w₁ :=
      ⟨.inr hw, fun _ _ h => .inl (hrx h), fun _ _ h => (hy _ _ h).imp_right .inl⟩
    exact .inr (hm.set h₀ hc)
  | insert c₀ w entity auth tag h₀ hh =>
    have hm : ConnMoves handler s c₀ w _ :=
      ⟨.inr .insert, fun _ _ h => .inl h, fun _ _ h => .inl h⟩
    exact .inr (hm.set h₀ hc)
  | handle c₀ w msg tag h₀ hh =>
    have hm : ConnMoves handler s c₀ w (w.answer msg tag (handler s.state msg).outcome) := by
      refine ⟨.inr (.handle msg tag _ hh), fun _ _ h => .inl ?_, fun payload tag' h => ?_⟩
      · rwa [Conn.answer_rx] at h
      · rcases Conn.mem_yielded_answer h with h | h
        · exact .inl h
        · exact .inr (.inr ⟨s.state, msg, h⟩)
    exact .inr (hm.set h₀ hc)
  | deliver i c₀ w key cmd hk h₀ hcmd =>
    have hm : ConnMoves handler s c₀ w { w with rx := w.rx ++ [cmd] } := by
      refine ⟨.inr (.push cmd), fun payload tag h => ?_, fun _ _ h => .inl h⟩
      refine (List.mem_append.mp h).imp_right fun h => ?_
      obtain ⟨htask, entity, hd, rfl⟩ := hcmd payload tag (List.mem_singleton.mp h).symm
      exact ⟨htask, entity, hd, hk⟩
    exact .inr (hm.set h₀ hc)
  | forget i => exact .inr ⟨w', hc, .same handler s c w'⟩

/-- What a connection has read it had read before, or reads in this step. -/
theorem Moves.read_of (h : Moves handler s a s') {c : ConnId} {w' : Conn}
    (hc : s'.conns[c]? = some w') {x : RelayConnectRequest × Tag} (hx : x ∈ w'.read) :
    (∃ w, s.conns[c]? = some w ∧ x ∈ w.read) ∨ a = .read c (.message (some x.1) x.2) := by
  have hset {c₀ : ConnId} {w₀ w₁ : Conn} (h₀ : s.conns[c₀]? = some w₀)
      (hc : (s.conns.set c₀ w₁)[c]? = some w') (hread : w₁.read = w₀.read) :
      ∃ w, s.conns[c]? = some w ∧ x ∈ w.read := by
    by_cases hcc : c₀ = c
    · subst hcc
      rw [List.getElem?_set_self (List.getElem?_eq_some_iff.mp h₀).1] at hc
      cases hc
      exact ⟨w₀, h₀, hread ▸ hx⟩
    · rw [List.getElem?_set_ne hcc] at hc
      exact ⟨w', hc, hx⟩
  cases h with
  | accept =>
    rw [List.getElem?_append] at hc
    split_ifs at hc with hlt
    · exact .inl ⟨w', hc, hx⟩
    · rw [List.mem_singleton.mp (List.mem_of_getElem? hc)] at hx
      cases hx
  | read c₀ w msg tag h₀ hh =>
    by_cases hcc : c₀ = c
    · subst hcc
      have hself := List.getElem?_set_self (List.getElem?_eq_some_iff.mp h₀).1
        (a := { w with held := some (msg, tag), read := w.read ++ [(msg, tag)] })
      cases hself.symm.trans hc
      rcases List.mem_append.mp hx with hx | hx
      · exact .inl ⟨w, h₀, hx⟩
      · cases List.mem_singleton.mp hx
        exact .inr rfl
    · rw [setConn, List.getElem?_set_ne hcc] at hc
      exact .inl ⟨w', hc, hx⟩
  | conn c₀ w w₁ h₀ hw hread hn hrx hy => exact .inl (hset h₀ hc hread)
  | insert c₀ w entity auth tag h₀ hh => exact .inl (hset h₀ hc rfl)
  | handle c₀ w msg tag h₀ hh => exact .inl (hset h₀ hc (w.answer_read msg tag _))
  | deliver i c₀ w key cmd hk h₀ hcmd => exact .inl (hset h₀ hc rfl)
  | forget i => exact .inl ⟨w', hc, hx⟩

/-- Connections stay. -/
theorem Moves.conns_get (h : Moves handler s a s') {c : ConnId} {w : Conn}
    (hc : s.conns[c]? = some w) : ∃ w', s'.conns[c]? = some w' := by
  have hlt := (List.getElem?_eq_some_iff.mp hc).1
  have hlen : s.conns.length ≤ s'.conns.length := by
    cases h <;> simp [setConn, Server.handle]
  exact ⟨_, List.getElem?_eq_getElem (hlt.trans_le hlen)⟩

theorem Moves.conns_length (h : Moves handler s a s') (ha : a ≠ .accept) :
    s'.conns.length = s.conns.length := by
  cases h with
  | accept => exact absurd rfl ha
  | forget i => rfl
  | _ => exact List.length_set

/-- A new task was asked for by the handler of a request that a connection held. -/
theorem Moves.task_of (h : Moves handler s a s') {task : Task} (ht : task ∈ s'.tasks) :
    task ∈ s.tasks ∨ ∃ (c : ConnId) (w : Conn) (msg : RelayConnectRequest) (tag : Tag)
      (call : ClientsCall), s.conns[c]? = some w ∧ w.held = some (msg, tag) ∧
        call ∈ (handler s.state msg).calls ∧ task = call.task tag := by
  cases h with
  | handle c w msg tag hc hh =>
    refine (List.mem_append.mp ht).imp_right fun ht => ?_
    obtain ⟨call, hcall, rfl⟩ := List.mem_map.mp ht
    exact ⟨c, w, msg, tag, call, hc, hh, hcall, rfl⟩
  | deliver i c w key cmd hk hc hcmd => exact .inl (List.mem_of_mem_eraseIdx ht)
  | forget i => exact .inl (List.mem_of_mem_eraseIdx ht)
  | _ => exact .inl ht

/-- An entry of `ConnectedClients` is made for a request that the connection holds. -/
theorem Moves.client_of (h : Moves handler s a s') {key : String} {c : ConnId}
    (hk : s'.clients key = some c) :
    s.clients key = some c ∨ ∃ (w : Conn) (entity : Entity) (auth : Option AuthMethod) (tag : Tag),
      s.conns[c]? = some w ∧ w.held = some (.connectRequest ⟨some entity, auth⟩, tag) ∧
        entityKey entity = key := by
  cases h with
  | insert c₀ w entity auth tag hc hh =>
    change Function.update s.clients (entityKey entity) (some c₀) key = some c at hk
    rcases eq_or_ne key (entityKey entity) with rfl | hne
    · rw [Function.update_self] at hk
      cases hk
      exact .inr ⟨w, entity, auth, tag, hc, hh, rfl⟩
    · rw [Function.update_of_ne hne] at hk
      exact .inl hk
  | _ => exact .inl hk

end Server

/-! ## Requests are handled once, in order -/

/-- The requests handled, and the one that is held, are those read, in order, but for
one at most for each command that the connection has received. -/
structure Conn.Orderly (w : Conn) : Prop where
  order : (w.handled ++ w.held.toList).Sublist w.read
  lost : w.read.length ≤ w.handled.length + w.held.toList.length + w.received.length

theorem Conn.Orderly.held_mem {w : Conn} (h : w.Orderly) {x : RelayConnectRequest × Tag}
    (hh : w.held = some x) : x ∈ w.read :=
  h.order.subset (by simp [hh])

theorem Conn.Orderly.moves {w w' : Conn} (h : w.Orderly) (hm : w.Moves w') : w'.Orderly := by
  obtain ⟨order, lost⟩ := h
  cases hm with
  | read msg tag hh =>
    simp only [hh, Option.toList_none, List.append_nil, List.length_nil] at order lost
    exact ⟨order.append (List.Sublist.refl _), by simp; omega⟩
  | close => exact ⟨order, lost⟩
  | insert => exact ⟨order, lost⟩
  | handle msg tag outcome hh =>
    simp only [hh, Option.toList_some, List.length_singleton] at order lost
    cases outcome with
    | panicked => exact ⟨by simpa [Conn.answer] using order, by simp [Conn.answer]; omega⟩
    | returned response =>
      exact ⟨by simpa [Conn.answer] using order, by simp [Conn.answer]; omega⟩
  | send payload tag rest hq =>
    refine ⟨by simpa using (List.sublist_append_left _ _).trans order, ?_⟩
    have hheld : w.held.toList.length ≤ 1 := by cases w.held <;> simp
    simp
    omega
  | terminate rest hq =>
    refine ⟨by simpa using (List.sublist_append_left _ _).trans order, ?_⟩
    have hheld : w.held.toList.length ≤ 1 := by cases w.held <;> simp
    simp
    omega
  | push cmd => exact ⟨order, lost⟩

theorem Server.orderly_of_reachable {S : Type} {handler : Handler S} {state : S} {s : Server S}
    (h : Reachable (step handler) (initial state) s) : ∀ w ∈ s.conns, w.Orderly := by
  refine h.invariant (P := fun s => ∀ w ∈ s.conns, w.Orderly) (by simp [initial])
    fun u v a _ hu hs w' hw' => ?_
  obtain ⟨c, hc⟩ := List.mem_iff_getElem?.mp hw'
  rcases (moves_of_step hs).conn_of hc with ⟨rfl, -⟩ | ⟨w, hw, ⟨rfl | hm, -, -⟩⟩
  · exact ⟨List.Sublist.refl _, Nat.zero_le _⟩
  · exact hu w' (List.mem_of_getElem? hw)
  · exact (hu w (List.mem_of_getElem? hw)).moves hm

/-! ## Handlers run one after the other -/

/-- What a command makes a connection yield. -/
def Cmd.item? : Cmd → Option (Option ResponseMsg × Tag)
  | .send payload tag => some (some (.payload payload), tag)
  | .terminate => none

abbrev Log := List (ConnId × RelayConnectRequest × Tag)

section

variable {S : Type} (handler : Handler S) (c : ConnId)

/-- The state after the requests of a log. -/
def replay (state : S) (log : Log) : S :=
  log.foldl (fun state x => (handler state x.2.1).state) state

/-- What the handler responds to the requests of one connection. -/
def responses : S → Log → List (Option ResponseMsg × Tag)
  | _, [] => []
  | state, (c', msg, tag) :: log =>
    let r := handler state msg
    (if c' = c then (r.outcome.item? tag).toList else []) ++ responses r.state log

/-- A connection has had the handler for its requests in the log, and yields the responses
between the payloads that it has received. -/
structure Conn.InTurn (state : S) (log : Log) (w : Conn) : Prop where
  handled : w.handled = (log.filter fun x => x.1 = c).map Prod.snd
  yielded : Interleaves (responses handler c state log) (w.received.filterMap Cmd.item?) w.yielded

theorem responses_snoc (state : S) (log : Log) (x : ConnId × RelayConnectRequest × Tag) :
    responses handler c state (log ++ [x]) = responses handler c state log ++
      if x.1 = c then ((handler (replay handler state log) x.2.1).outcome.item? x.2.2).toList
      else [] := by
  induction log generalizing state with
  | nil => simp [responses, replay]
  | cons y log ih =>
    simp only [List.cons_append, responses, ih, List.append_assoc]
    rfl

variable {handler c} {state : S} {log : Log} {w w' : Conn}

theorem Conn.InTurn.moves (h : w.InTurn handler c state log) (hm : w.Moves w')
    (hn : w'.handled = w.handled) : w'.InTurn handler c state log := by
  refine ⟨hn.trans h.handled, ?_⟩
  cases hm with
  | read msg tag hh => exact h.yielded
  | close => exact h.yielded
  | insert => exact h.yielded
  | handle msg tag outcome hh => simp at hn
  | send payload tag rest hq =>
    simp only [List.filterMap_append]
    exact h.yielded.right _
  | terminate rest hq =>
    simp only [List.filterMap_append]
    exact (List.append_nil (w.received.filterMap Cmd.item?)).symm ▸ h.yielded
  | push cmd => exact h.yielded

/-- Nothing is logged for a connection before it is there. -/
theorem Conn.InTurn.new (h : ∀ x ∈ log, x.1 ≠ c) : Conn.new.InTurn handler c state log := by
  constructor
  · rw [List.filter_eq_nil_iff.mpr fun x hx => by simpa using h x hx]
    rfl
  · have hnone : responses handler c state log = [] := by
      induction log generalizing state with
      | nil => rfl
      | cons x log ih =>
        rw [responses, if_neg (h x List.mem_cons_self),
          ih fun y hy => h y (List.mem_cons_of_mem x hy)]
        rfl
    rw [hnone]
    exact .nil

/-- The handler is called for a request of another connection. -/
theorem Conn.InTurn.other {c' : ConnId} {msg : RelayConnectRequest} {tag : Tag}
    (h : w.InTurn handler c state log) (hc : c' ≠ c) :
    w.InTurn handler c state (log ++ [(c', msg, tag)]) := by
  constructor
  · simpa [List.filter_append, hc] using h.handled
  · rw [responses_snoc]
    simpa [hc] using h.yielded

theorem Conn.InTurn.answer {msg : RelayConnectRequest} {tag : Tag}
    (h : w.InTurn handler c state log) :
    (w.answer msg tag (handler (replay handler state log) msg).outcome).InTurn handler c state
      (log ++ [(c, msg, tag)]) := by
  constructor
  · simp [List.filter_append, h.handled]
  · rw [responses_snoc, answer_received, answer_yielded, if_pos rfl]
    cases (handler (replay handler state log) msg).outcome.item? tag with
    | none => simpa using h.yielded
    | some item => exact h.yielded.left item

end

namespace Server

variable {S : Type} {handler : Handler S} {state : S} {s s' : Server S} {a : ServerAction}

structure Serial (handler : Handler S) (state : S) (s : Server S) : Prop where
  current : s.state = replay handler state s.log
  conns : ∀ (c : ConnId) (w : Conn), s.conns[c]? = some w → w.InTurn handler c state s.log
  known : ∀ x ∈ s.log, x.1 < s.conns.length

/-- A step of one connection, in which the handler is not called. -/
theorem Serial.set {c₀ : ConnId} {w₀ w₁ : Conn} (h : s.Serial handler state)
    (h₀ : s.conns[c₀]? = some w₀) (hm : w₀.Moves w₁) (hn : w₁.handled = w₀.handled)
    (hlog : s'.log = s.log) (hstate : s'.state = s.state) (hconns : s'.conns = s.conns.set c₀ w₁) :
    s'.Serial handler state := by
  refine ⟨by rw [hstate, hlog, h.current], fun c w hc => ?_, fun x hx => ?_⟩
  · rw [hlog]
    rw [hconns] at hc
    by_cases hcc : c₀ = c
    · subst hcc
      rw [List.getElem?_set_self (List.getElem?_eq_some_iff.mp h₀).1] at hc
      cases hc
      exact (h.conns c₀ w₀ h₀).moves hm hn
    · rw [List.getElem?_set_ne hcc] at hc
      exact h.conns c w hc
  · rw [hconns, List.length_set]
    exact h.known x (hlog ▸ hx)

theorem Serial.moves (h : s.Serial handler state) (hm : Moves handler s a s') :
    s'.Serial handler state := by
  cases hm with
  | accept =>
    refine ⟨h.current, fun c w hc => ?_, fun x hx => ?_⟩
    · change (s.conns ++ [Conn.new])[c]? = some w at hc
      rw [List.getElem?_append] at hc
      split_ifs at hc with hlt
      · exact h.conns c w hc
      · rw [List.mem_singleton.mp (List.mem_of_getElem? hc)]
        exact .new fun x hx heq => hlt (heq ▸ h.known x hx)
    · change x.1 < (s.conns ++ [Conn.new]).length
      rw [List.length_append]
      exact Nat.lt_add_right _ (h.known x hx)
  | read c w msg tag hc hh => exact h.set hc (.read msg tag hh) rfl rfl rfl rfl
  | conn c w w' hc hw hread hn hrx hy => exact h.set hc hw hn rfl rfl rfl
  | insert c w entity auth tag hc hh => exact h.set hc .insert rfl rfl rfl rfl
  | handle c₀ w₀ msg tag h₀ hh =>
    refine ⟨?_, fun c w hc => ?_, fun x hx => ?_⟩
    · change (handler s.state msg).state = replay handler state (s.log ++ [(c₀, msg, tag)])
      rw [h.current, replay, replay, List.foldl_append]
      rfl
    · change (s.conns.set c₀ _)[c]? = some w at hc
      by_cases hcc : c₀ = c
      · subst hcc
        rw [List.getElem?_set_self (List.getElem?_eq_some_iff.mp h₀).1] at hc
        cases hc
        rw [h.current]
        exact (h.conns c₀ w₀ h₀).answer
      · rw [List.getElem?_set_ne hcc] at hc
        exact (h.conns c w hc).other hcc
    · change x.1 < (s.conns.set c₀ _).length
      rw [List.length_set]
      rcases List.mem_append.mp hx with hx | hx
      · exact h.known x hx
      · rw [List.mem_singleton.mp hx]
        exact (List.getElem?_eq_some_iff.mp h₀).1
  | deliver i c w key cmd hk hc hcmd => exact h.set hc (.push cmd) rfl rfl rfl rfl
  | forget i => exact ⟨h.current, h.conns, h.known⟩

/-- In every run the state is what the handler makes of the requests, called for one after
the other. Each connection has it called for its own ones in order, and yields the responses
to them between the payloads that it receives, both in order. -/
theorem serial_of_reachable (h : Reachable (step handler) (initial state) s) :
    s.Serial handler state :=
  h.invariant (P := Serial handler state) ⟨rfl, by simp [initial], by simp [initial]⟩
    fun _ _ _ _ hp hs => hp.moves (moves_of_step hs)

/-- A handler that counts its requests and accepts everybody. -/
def counting : Handler ℕ
  | n, .connectRequest ⟨some entity, _⟩ =>
    ⟨n + 1, [], .returned (some (some (.connectResponse entity.id true "nothing")))⟩
  | n, .connectRequest ⟨none, _⟩ => ⟨n + 1, [], .panicked⟩
  | n, _ => ⟨n + 1, [], .returned none⟩

/-- Two clients connect, the second one overtakes the first, which then sends a heartbeat. -/
def overtaking : List ServerAction :=
  [.accept, .accept,
    .read 0 (.message (some (.connectRequest ⟨some ⟨"a", 1, "ns"⟩, none⟩)) ⟨"a", 0⟩),
    .read 1 (.message (some (.connectRequest ⟨some ⟨"b", 1, "ns"⟩, none⟩)) ⟨"b", 0⟩),
    .insert 1, .insert 0, .handle 1, .handle 0,
    .read 0 (.message (some (.heartbeat 0)) ⟨"a", 0⟩), .handle 0]

theorem overtaking_serial :
    ∃ s, Reachable (step counting) (initial 0) s ∧ s.state = 3 ∧
      s.log.map Prod.fst = [1, 0, 0] ∧ s.Serial counting 0 := by
  have he : ((exec (step counting) (initial 0) overtaking).map fun s =>
      (s.state, s.log.map Prod.fst)) = some (3, [1, 0, 0]) := by decide
  obtain ⟨tr, s, h, hp⟩ := Run.of_exec_map he
  obtain ⟨hstate, hlog⟩ := Prod.mk.inj hp
  exact ⟨s, ⟨tr, h⟩, hstate, hlog, serial_of_reachable ⟨tr, h⟩⟩

end Server

/-! ## Payloads go to whoever has announced the key -/

/-- The connection has read the announcement of an entity with this key. -/
def Conn.Announced (w : Conn) (key : String) : Prop :=
  ∃ entity auth tag, (.connectRequest ⟨some entity, auth⟩, tag) ∈ w.read ∧ entityKey entity = key

theorem Conn.Announced.mono {w w' : Conn} {key : String} (h : w.Announced key)
    (hr : w.read ⊆ w'.read) : w'.Announced key := by
  obtain ⟨entity, auth, tag, hmem, hkey⟩ := h
  exact ⟨entity, auth, tag, hr hmem, hkey⟩

theorem Conn.Moves.read_subset {w w' : Conn} (h : w.Moves w') : w.read ⊆ w'.read := by
  cases h with
  | read msg tag hh => exact List.subset_append_left _ _
  | handle msg tag outcome hh =>
    rw [w.answer_read]
    exact List.Subset.refl _
  | _ => exact List.Subset.refl _

theorem Conn.Moves.received_of {w w' : Conn} (h : w.Moves w') {cmd : Cmd}
    (hc : cmd ∈ w'.received) : cmd ∈ w.received ∨ cmd ∈ w.rx := by
  cases h with
  | send payload tag rest hq =>
    refine (List.mem_append.mp hc).imp_right fun hc => ?_
    rw [hq, List.mem_singleton.mp hc]
    exact List.mem_cons_self
  | terminate rest hq =>
    refine (List.mem_append.mp hc).imp_right fun hc => ?_
    rw [hq, List.mem_singleton.mp hc]
    exact List.mem_cons_self
  | handle msg tag outcome hh => exact .inl (w.answer_received msg tag outcome ▸ hc)
  | _ => exact .inl hc

namespace Server

variable {S : Type} {handler : Handler S} {state : S} {s s' : Server S} {a : ServerAction}

theorem ConnMoves.read_subset {c : ConnId} {w w' : Conn} (h : ConnMoves handler s c w w') :
    w.read ⊆ w'.read := by
  rcases h.moves with rfl | hm
  · exact List.Subset.refl _
  · exact hm.read_subset

/-- Entries of `ConnectedClients` and payloads on their way to a connection are for keys
that the connection has announced. -/
structure Routed (s : Server S) : Prop where
  clients : ∀ key c, s.clients key = some c → ∃ w, s.conns[c]? = some w ∧ w.Announced key
  commands : ∀ w ∈ s.conns, ∀ payload tag,
    .send payload tag ∈ w.rx ∨ .send payload tag ∈ w.received →
      ∃ entity, payload.dst = some entity ∧ w.Announced (entityKey entity)

theorem Routed.moves (h : s.Routed) (ho : ∀ w ∈ s.conns, w.Orderly)
    (hm : Moves handler s a s') : s'.Routed := by
  have hkept {c : ConnId} {w : Conn} {key : String} (hc : s.conns[c]? = some w)
      (hw : w.Announced key) : ∃ w', s'.conns[c]? = some w' ∧ w'.Announced key := by
    obtain ⟨w', hc'⟩ := hm.conns_get hc
    rcases hm.conn_of hc' with ⟨-, hnone⟩ | ⟨w₀, hc₀, hmoves⟩
    · cases hnone.symm.trans hc
    · obtain rfl := Option.some.inj (hc₀.symm.trans hc)
      exact ⟨w', hc', hw.mono hmoves.read_subset⟩
  constructor
  · intro key c hk
    rcases hm.client_of hk with hk | ⟨w, entity, auth, tag, hc, hh, rfl⟩
    · obtain ⟨w, hc, hw⟩ := h.clients key c hk
      exact hkept hc hw
    · have hread := (ho w (List.mem_of_getElem? hc)).held_mem hh
      exact hkept hc ⟨entity, auth, tag, hread, rfl⟩
  · intro w' hw' payload tag hcmd
    obtain ⟨c, hc'⟩ := List.mem_iff_getElem?.mp hw'
    rcases hm.conn_of hc' with ⟨rfl, -⟩ | ⟨w, hc, hmoves⟩
    · simp [Conn.new] at hcmd
    have hw := List.mem_of_getElem? hc
    have hold (hcmd : .send payload tag ∈ w.rx ∨ .send payload tag ∈ w.received) :
        ∃ entity, payload.dst = some entity ∧ w'.Announced (entityKey entity) := by
      obtain ⟨entity, hd, ha⟩ := h.commands w hw payload tag hcmd
      exact ⟨entity, hd, ha.mono hmoves.read_subset⟩
    rcases hcmd with hcmd | hcmd
    · rcases hmoves.rx payload tag hcmd with hrx | ⟨-, entity, hd, hk⟩
      · exact hold (.inl hrx)
      · obtain ⟨w₁, hc₁, ha⟩ := h.clients _ c hk
        obtain rfl := Option.some.inj (hc₁.symm.trans hc)
        exact ⟨entity, hd, ha.mono hmoves.read_subset⟩
    · rcases hmoves.moves with rfl | hmove
      · exact hold (.inr hcmd)
      · exact hold (hmove.received_of hcmd).symm

theorem routed_of_reachable (h : Reachable (step handler) (initial state) s) : s.Routed :=
  h.invariant (P := Routed) ⟨by simp [initial], by simp [initial]⟩
    fun _ _ _ hr hp hs => hp.moves (orderly_of_reachable hr) (moves_of_step hs)

/-- Whatever the handler does, a connection has its requests handled once and in order, but
for one at most for each command that it receives, and the payloads that it receives are for
keys that it has announced. -/
theorem serves_of_reachable (h : Reachable (step handler) (initial state) s) :
    ∀ w ∈ s.conns, w.Orderly ∧ ∀ payload tag, .send payload tag ∈ w.received →
      ∃ entity, payload.dst = some entity ∧ w.Announced (entityKey entity) :=
  fun w hw => ⟨orderly_of_reachable h w hw,
    fun payload tag hc => (routed_of_reachable h).commands w hw payload tag (.inr hc)⟩

end Server

/-- The handler of the end-to-end test. -/
def forward : Handler Unit
  | _, .connectRequest ⟨some entity, _⟩ =>
    ⟨(), [], .returned (some (some (.connectResponse entity.id true "nothing")))⟩
  | _, .connectRequest ⟨none, _⟩ => ⟨(), [], .panicked⟩
  | _, .payload payload => ⟨(), [.send payload], .returned none⟩
  | _, .heartbeat _ => ⟨(), [], .returned none⟩

namespace Server

/-- A client sends to itself, and sends again before it hears. -/
def sendsTwice : List ServerAction :=
  let loop : RelayPayload := ⟨none, some ⟨"a", 1, "ns"⟩, 0, none⟩
  [.accept, .read 0 (.message (some (.connectRequest ⟨some ⟨"a", 1, "ns"⟩, none⟩)) ⟨"a", 0⟩),
    .insert 0, .handle 0, .read 0 (.message (some (.payload loop)) ⟨"a", 1⟩), .handle 0, .run 0,
    .read 0 (.message (some (.payload loop)) ⟨"a", 2⟩), .recv 0]

/-- As it hears the first payload, its second is dropped. -/
theorem sendsTwice_drops :
    ∃ s, Reachable (step forward) (initial ()) s ∧
      s.conns.map (fun w => (w.read.map (·.2.op), w.handled.map (·.2.op), w.held)) =
        [([0, 1, 2], [0, 1], none)] ∧
      ∀ w ∈ s.conns, w.Orderly ∧ ∀ payload tag, .send payload tag ∈ w.received →
        ∃ entity, payload.dst = some entity ∧ w.Announced (entityKey entity) := by
  have he : ((exec (step forward) (initial ()) sendsTwice).map fun s =>
      s.conns.map fun w => (w.read.map (·.2.op), w.handled.map (·.2.op), w.held)) =
        some [([0, 1, 2], [0, 1], none)] := by
    decide
  obtain ⟨tr, s, h, hp⟩ := Run.of_exec_map he
  exact ⟨s, ⟨tr, h⟩, hp, serves_of_reachable ⟨tr, h⟩⟩

end Server

end OrbRelay.TestUtils
