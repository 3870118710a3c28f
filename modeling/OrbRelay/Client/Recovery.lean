import OrbRelay.Client.AfterEnd
import OrbRelay.Client.Deliveries

/-!
# A client can always recover

Nothing that happened to a client whose actor is still there keeps it from working
again, if its options are good: one call of `reconnect` is enough for a relay that
answers, and then all that had been waiting reaches the new connection. So none of its
calls has to hang, and a `Stop` that was ignored so far can still be carried out. What
third-party code makes of the endpoint and of the client id never changes, so it is no
choice of the steps here.
-/
namespace OrbRelay.Client
open Transition

/-! ## What the options decide -/

/-- The options of a client with its endpoint, and the third-party code that looks at
them: the scheme of a text that is a `Uri`, and whether a text is a `MetadataValue`. -/
structure Setup where
  opts : ClientOpts
  endpoint : String
  parseUri : String → Option (Option String)
  isMetadataValue : String → Bool

namespace Setup

/-- The report of `validate_endpoint`, where it refuses. -/
def validateEndpoint (c : Setup) : Option String :=
  match c.parseUri c.endpoint with
  | none => some "invalid relay endpoint URI"
  | some scheme =>
    if scheme = some "https" then none
    else some ("relay endpoint must use https: `" ++ c.endpoint ++ "`")

/-- The results that an action brings along are those for these options. -/
def agrees (c : Setup) : Action → Bool
  | .validate report => report = c.validateEndpoint
  | .dial .ok => c.isMetadataValue c.opts.clientId
  | .dial .metadata => !c.isMetadataValue c.opts.clientId
  | _ => true

/-- A step of a client with these options. -/
def step (c : Setup) (s : System) (a : Action) : Option System :=
  if c.agrees a then s.step c.opts a else none

/-- The options keep nobody from connecting. -/
structure Good (c : Setup) : Prop where
  endpoint : c.validateEndpoint = none
  clientId : c.isMetadataValue c.opts.clientId = true
  auth : c.opts.auth ≠ .zkp

variable {c : Setup} {s t : System} {a : Action}

theorem Good.validates (h : c.Good) : c.agrees (.validate none) = true :=
  decide_eq_true h.endpoint.symm

theorem step_eq (hs : s.step c.opts a = some t)
    (ha : c.agrees a = true := by exact Eq.refl true) : c.step s a = some t := by
  rw [Setup.step, if_pos ha, hs]

theorem reach (hs : s.step c.opts a = some t)
    (ha : c.agrees a = true := by exact Eq.refl true) : Reachable c.step s t :=
  Reachable.refl.snoc (step_eq hs ha)

/-- What holds wherever a client gets to holds wherever one with these options does. -/
theorem system_reachable (h : Reachable c.step s t) : Reachable (System.step c.opts) s t :=
  h.mono fun s a t hs => by
    unfold Setup.step at hs
    split_ifs at hs
    exact hs

end Setup

/-! ## Serving the queue -/

section

variable {T : Type*}

/-- A forwarder that has nothing to hand over and no reason to stop. -/
structure Forwarder.Ready (w : Forwarder T) : Prop where
  cancelled : w.cancelled = false
  finished : w.finished = false
  holding : w.holding = none
  buffer : w.buffer = []
  dropped : w.dropped = false

/-- The forwarder once `x` has gone through its hands. -/
def Forwarder.pass (w : Forwarder T) (x : T) : Forwarder T :=
  { w with taken := w.taken ++ [x], yielded := w.yielded ++ [x] }

namespace Tonic

variable {p : Tonic T}

/-- One element goes from the queue to the transport. -/
theorem exec_serve {k : ℕ} {w : Forwarder T} {x : T} {rest : List T}
    (hk : p.streams[k]? = some w) (hw : w.Ready) (hq : p.queue = x :: rest) :
    exec step p [.poll k, .handOver k, .yield_ k] =
      some { p with queue := rest, streams := p.streams.set k (w.pass x) } := by
  obtain ⟨token, cancelled, finished, holding, buffer, yielded, dropped, taken, seen⟩ := w
  obtain ⟨rfl, rfl, rfl, rfl, rfl⟩ := hw
  have hlt := (List.getElem?_eq_some_iff.mp hk).1
  have hpoll : p.step (.poll k) = some { p with
      queue := rest
      streams := p.streams.set k
        ⟨token, false, false, some x, [], yielded, false, taken ++ [x], seen⟩ } := by
    simp [step, hk, poll, hq]
  have hover : (⟨rest, p.streams.set k
      ⟨token, false, false, some x, [], yielded, false, taken ++ [x], seen⟩, p.pushed⟩ :
        Tonic T).step (.handOver k) = some { p with
      queue := rest
      streams := p.streams.set k
        ⟨token, false, false, none, [x], yielded, false, taken ++ [x], seen⟩ } := by
    simp [step, hlt, handOver, streamBuffer]
  have hyield : (⟨rest, p.streams.set k
      ⟨token, false, false, none, [x], yielded, false, taken ++ [x], seen⟩, p.pushed⟩ :
        Tonic T).step (.yield_ k) = some { p with
      queue := rest
      streams := p.streams.set k
        ⟨token, false, false, none, [], yielded ++ [x], false, taken ++ [x], seen⟩ } := by
    simp [step, hlt]
  simp only [exec, hpoll, hover, hyield, Option.bind_some]
  rfl

/-- A ready forwarder can serve the whole queue. -/
theorem exec_drain {k : ℕ} {w : Forwarder T} (hk : p.streams[k]? = some w) (hw : w.Ready) :
    ∃ as p' w', exec step p as = some p' ∧ p'.queue = [] ∧ p'.streams[k]? = some w' ∧
      w'.yielded = w.yielded ++ p.queue := by
  generalize hq : p.queue = queue
  induction queue generalizing p w with
  | nil => exact ⟨[], p, w, rfl, hq, hk, (List.append_nil _).symm⟩
  | cons x rest ih =>
    have hlt := (List.getElem?_eq_some_iff.mp hk).1
    have hw' : (w.pass x).Ready := ⟨hw.cancelled, hw.finished, hw.holding, hw.buffer, hw.dropped⟩
    have hk₁ : ({ p with queue := rest, streams := p.streams.set k (w.pass x) } :
        Tonic T).streams[k]? = some (w.pass x) := List.getElem?_set_self hlt
    obtain ⟨as, p', w', hex, hempty, hk', hy⟩ := ih hk₁ hw' rfl
    refine ⟨[.poll k, .handOver k, .yield_ k] ++ as, p', w', ?_, hempty, hk', ?_⟩
    swap
    · rw [hy, Forwarder.pass, List.append_assoc, List.singleton_append]
    rw [exec_append, exec_serve hk hw hq]
    exact hex

end Tonic

end

namespace System

variable {c : Setup} {opts : ClientOpts} {token : String} {s t u : System} {o : OpId} {op : Op}

theorem exec_tonic {as : List TonicAction} {p : Tonic Frame}
    (h : exec Tonic.step s.exchange.tonic as = some p) :
    exec c.step s (as.map .tonic) =
      some { s with exchange := { s.exchange with tonic := p } } := by
  induction as generalizing s with
  | nil =>
    cases h
    rfl
  | cons a as ih =>
    obtain ⟨q, hq, h⟩ := Option.bind_eq_some_iff.mp h
    have hs : c.step s (.tonic a) =
        some { s with exchange := { s.exchange with tonic := q } } := by
      simp [Setup.step, Setup.agrees, step, hq]
    rw [List.map_cons, exec, hs, Option.bind_some]
    exact ih h

/-! ## Connecting -/

/-- The response stream of an attempt that is being made has not ended. -/
def StreamOpen (s : System) : Prop := s.phase.connecting = true → s.streamEnded = false

theorem streamOpen_fail (opts : ClientOpts) (s : System) (err : Err) :
    (s.fail opts err).StreamOpen := by
  unfold StreamOpen fail
  split
  · exact fun hc => by cases hc
  · exact fun _ => rfl
  · split_ifs <;> exact fun hc => by cases hc

theorem streamOpen_handle {msg : Msg} (hp : s.phase = .connected) :
    (s.handle opts msg).StreamOpen := by
  unfold handle
  split
  · intro hc
    rw [hp] at hc
    cases hc
  · exact streamOpen_fail opts _ _

theorem streamOpen_round {ev : StreamEvent} : ((s.note ev).round opts ev).StreamOpen := by
  unfold round
  have hnext {forward : Option Msg} (h : connectRound ev = .next forward) :
      (s.note ev).streamEnded = false := by
    have hev : ev ≠ .eof := by
      rintro rfl
      cases h
    simp [note, hev]
  split
  · next h => exact fun _ => hnext h
  · next h => exact fun _ => hnext h
  · exact fun hc => by cases hc
  · exact streamOpen_fail opts _ _

theorem streamOpen_step {a : Action} (h : s.StreamOpen) (hs : s.step opts a = some t) :
    t.StreamOpen := by
  cases a with
  | client a =>
    obtain ⟨e, -, heq⟩ := Option.bind_eq_some_iff.mp hs
    cases heq
    exact h
  | fire i =>
    obtain ⟨msg, -, heq⟩ := Option.bind_eq_some_iff.mp hs
    split_ifs at heq
    cases heq
    exact h
  | tonic a =>
    obtain ⟨p, -, heq⟩ := Option.bind_eq_some_iff.mp hs
    cases heq
    exact h
  | setToken token =>
    cases hs
    exact h
  | validate report =>
    simp only [step] at hs
    split at hs <;> cases hs
    · exact fun _ => rfl
    · exact fun hc => by cases hc
  | dial result =>
    simp only [step] at hs
    split at hs <;> cases hs
    · next hp =>
      unfold callRelay
      split
      · exact fun hc => by cases hc
      · exact fun _ => h (by rw [hp]; rfl)
    · exact streamOpen_fail opts _ _
    · exact streamOpen_fail opts _ _
  | relayConnect error =>
    simp only [step] at hs
    split at hs <;> cases hs
    · next hp => exact fun _ => h (by rw [hp]; rfl)
    · exact streamOpen_fail opts _ _
  | timeout =>
    simp only [step] at hs
    split_ifs at hs
    cases hs
    exact streamOpen_fail opts _ _
  | response ev =>
    simp only [step, response] at hs
    split at hs
    · cases hs
    split at hs
    · cases hs
      exact streamOpen_round
    · next hp =>
      split_ifs at hs
      cases hs
      have hquiet : s.StreamOpen := fun hc => by rw [hp] at hc; cases hc
      cases ev with
      | eof => exact streamOpen_fail opts _ _
      | status error => exact streamOpen_fail opts _ _
      | message msg tag =>
        cases msg with
        | none => exact hquiet
        | some msg => exact streamOpen_handle hp
    · cases hs
  | take =>
    simp only [step] at hs
    split at hs
    · next hp hq =>
      cases hs
      exact streamOpen_handle hp
    · cases hs
  | wake =>
    simp only [step] at hs
    split at hs <;> cases hs
    exact fun _ => rfl

theorem streamOpen_of_reachable (h : Reachable (step opts) (initial token) s) : s.StreamOpen :=
  h.invariant (P := StreamOpen) (fun hc => by cases hc) fun _ _ _ _ hp hs => streamOpen_step hp hs

/-- What a recovery leaves alone: the calls, the budget of attempts, and what the tonic
queue holds. -/
structure Carried (c : Setup) (s t : System) : Prop where
  reach : Reachable c.step s t
  ops : t.exchange.ops = s.exchange.ops
  alive : t.exchange.clientsAlive = s.exchange.clientsAlive
  budget : t.connAttempts = s.connAttempts
  queue : s.exchange.tonic.queue ⊆ t.exchange.tonic.queue

theorem Carried.refl (c : Setup) (s : System) : Carried c s s :=
  ⟨.refl, rfl, rfl, rfl, List.Subset.refl _⟩

theorem Carried.trans (h : Carried c s t) (h' : Carried c t u) : Carried c s u :=
  ⟨h.reach.trans h'.reach, h'.ops.trans h.ops, h'.alive.trans h.alive, h'.budget.trans h.budget,
    List.Subset.trans h.queue h'.queue⟩

theorem startHeartbeat_alive (e : Exchange) :
    e.startHeartbeat.clientsAlive = e.clientsAlive := by
  unfold Exchange.startHeartbeat
  split_ifs <;> rfl

/-- Connected, with the actor's queue as it was. -/
structure Connects (c : Setup) (s t : System) : Prop extends Carried c s t where
  phase : t.phase = .connected
  actorRx : t.exchange.actorRx = s.exchange.actorRx

/-- The relay has accepted the connection, and its stream goes on. -/
def Welcomed (s : System) : Prop := s.attempt ∈ s.accepted ∧ s.streamEnded = false

/-- The relay takes the connection. -/
def welcome : StreamEvent := .message (some (.connectResponse "" true "")) ⟨"", 0⟩

theorem connects_of_handshake (c : Setup) (hp : s.phase = .handshake)
    (he : s.streamEnded = false) :
    ∃ t, Connects c s t ∧ t.exchange.tonic = s.exchange.tonic ∧ t.Welcomed := by
  have hs : s.step c.opts (.response welcome) = some (s.note welcome).mainLoop := by
    simp [step, response, hp, he, welcome, round, connectRound]
  refine ⟨_, ⟨⟨Setup.reach hs, ?_, ?_, rfl, ?_⟩, rfl, ?_⟩, ?_, ?_⟩
  · simp [mainLoop, note]
  · simp [mainLoop, note, startHeartbeat_alive]
  · simp [mainLoop, note]
  · simp [mainLoop, note]
  · simp [mainLoop, note]
  · simp [Welcomed, mainLoop, note, welcome, StreamEvent.accepts]

theorem connects_of_calling (c : Setup) (hp : s.phase = .calling)
    (he : s.streamEnded = false) :
    ∃ t, Connects c s t ∧ t.exchange.tonic = s.exchange.tonic ∧ t.Welcomed := by
  have hs : s.step c.opts (.relayConnect none) = some { s with phase := .handshake } := by
    simp [step, hp]
  obtain ⟨t, ht, htonic, hacc⟩ :=
    connects_of_handshake c (s := { s with phase := .handshake }) rfl he
  refine ⟨t, ⟨Carried.trans ⟨Setup.reach hs, rfl, rfl, rfl, List.Subset.refl _⟩
    ht.toCarried, ht.phase, ht.actorRx⟩, htonic, hacc⟩

/-- A connection that is made from the start has a stream of its own, behind which all
that is queued waits. -/
theorem connects_of_dialing (hc : c.Good) (hp : s.phase = .dialing)
    (he : s.streamEnded = false) :
    ∃ (t : System) (k : ℕ) (w : Forwarder Frame), Connects c s t ∧ t.Welcomed ∧
      t.exchange.tonic.streams[k]? = some w ∧ w.Ready := by
  obtain ⟨request, hr⟩ : ∃ request, connectRequest c.opts s.token = some request := by
    unfold connectRequest
    cases h : c.opts.auth with
    | token t => exact ⟨_, rfl⟩
    | tokenReceiver => exact ⟨_, rfl⟩
    | zkp => exact absurd h hc.auth
  let p := s.exchange.tonic.push ⟨.connectRequest request, .connect s.attempt⟩
  let s₁ : System := { s with
    phase := .calling
    exchange := { s.exchange with tonic := p.new s.attempt } }
  have hs : s.step c.opts (.dial .ok) = some s₁ := by
    simp [step, hp, callRelay, hr, Exchange.tonicTx, s₁, p]
  obtain ⟨t, ht, htonic, hacc⟩ := connects_of_calling c (s := s₁) rfl he
  refine ⟨t, p.streams.length, ⟨s.attempt, false, false, none, [], [], false, [], p.queue⟩,
    ⟨Carried.trans ⟨Setup.reach hs hc.clientId, rfl, rfl, rfl, ?_⟩ ht.toCarried, ht.phase,
      ht.actorRx⟩, hacc, ?_, ⟨rfl, rfl, rfl, rfl, rfl⟩⟩
  · exact List.subset_append_left _ _
  · rw [htonic]
    exact List.getElem?_concat_length

/-- Whatever the actor is doing, it can be connected. -/
theorem connects (hr : Reachable c.step (initial token) s) (hc : c.Good)
    (hp : s.phase.isEnded = false) : ∃ t, Connects c s t := by
  have hopen := streamOpen_of_reachable (Setup.system_reachable hr)
  have henter {a : Action} (hs : s.step c.opts a = some s.enter) (ha : c.agrees a = true) :
      ∃ t, Connects c s t := by
    obtain ⟨t, -, -, ht, -⟩ := connects_of_dialing (s := s.enter) hc rfl rfl
    exact ⟨t, ⟨Carried.trans ⟨Setup.reach hs ha, rfl, rfl, rfl, List.Subset.refl _⟩
      ht.toCarried, ht.phase, ht.actorRx⟩⟩
  cases hph : s.phase with
  | starting => exact henter (a := .validate none) (by simp [step, hph]) hc.validates
  | backoff => exact henter (a := .wake) (by simp [step, hph]) rfl
  | dialing =>
    obtain ⟨t, -, -, ht, -⟩ := connects_of_dialing hc hph (hopen (by rw [hph]; rfl))
    exact ⟨t, ht⟩
  | calling => exact (connects_of_calling c hph (hopen (by rw [hph]; rfl))).imp fun t ht => ht.1
  | handshake =>
    exact (connects_of_handshake c hph (hopen (by rw [hph]; rfl))).imp fun t ht => ht.1
  | connected => exact ⟨s, .refl c s, hph, rfl⟩
  | ended result => simp [hph, Phase.isEnded] at hp
  | panicked => simp [hph, Phase.isEnded] at hp

/-! ## The actor's queue -/

theorem alive_of_handled {e e' : Exchange} {m : Msg} (h : Handled opts e m e') :
    e'.clientsAlive = e.clientsAlive := by
  cases h <;> rfl

/-- Messages other than `Stop` and `Reconnect` are handled without an error, as long as
there is a client. -/
theorem take_message {m : Msg} {rest : List Msg} (hp : s.phase = .connected)
    (hq : s.exchange.actorRx = m :: rest) (halive : s.exchange.clientsAlive = true)
    (hstop : m ≠ .stop) (hrec : m ≠ .reconnect) :
    ∃ t, Carried c s t ∧ t.phase = .connected ∧ t.exchange.actorRx = rest ∧
      ∀ f, m = .send f → f ∈ t.exchange.tonic.queue := by
  cases hm : handleMsg c.opts ({ s.exchange with actorRx := rest }.note m) m with
  | error err =>
    rcases handleMsg_error hm with h | h | ⟨_, _, _, _, _, -, -, h⟩
    · exact absurd h hstop
    · exact absurd h hrec
    · exact absurd (h.symm.trans halive) (by simp)
  | ok e =>
    have hs : s.step c.opts .take = some { s with exchange := e } := by
      simp [step, hp, hq, handle, hm]
    have hh := handled_of_handleMsg hm
    have hsame := alive_of_handled hh
    have hqueue : s.exchange.tonic.queue ⊆ e.tonic.queue := by
      rcases tonic_of_handled hh with ht | ⟨f, ht, -⟩
      · rw [ht]
        exact List.Subset.refl _
      · rw [ht]
        exact List.subset_append_left _ _
    refine ⟨_, ⟨Setup.reach hs, hh.ops, hsame, rfl, hqueue⟩, hp, hh.actorRx, fun f hf => ?_⟩
    subst hf
    cases hm
    exact List.mem_append_right _ (List.mem_singleton_self f)

/-- A reconnect leads to a connection with a new stream. -/
theorem take_reconnect {rest : List Msg} (hc : c.Good) (hp : s.phase = .connected)
    (hq : s.exchange.actorRx = .reconnect :: rest) :
    ∃ (t : System) (k : ℕ) (w : Forwarder Frame), Carried c s t ∧ t.phase = .connected ∧
      t.exchange.actorRx = rest ∧ t.Welcomed ∧
      t.exchange.tonic.streams[k]? = some w ∧ w.Ready := by
  let s₁ : System := { s with exchange := { s.exchange with actorRx := rest }.note .reconnect }
  have hs : s.step c.opts .take = some s₁.cancel.enter := by
    simp [step, hp, hq, handle, handleMsg, fail, s₁]
  obtain ⟨t, k, w, ht, hacc, hk, hw⟩ :=
    connects_of_dialing (s := s₁.cancel.enter) hc rfl rfl
  exact ⟨t, k, w, Carried.trans ⟨Setup.reach hs, rfl, rfl, rfl, List.Subset.refl _⟩
    ht.toCarried, ht.phase, ht.actorRx, hacc, hk, hw⟩

/-- The actor can work off its queue, reconnecting where it is asked to. -/
theorem drains (hc : c.Good) (hp : s.phase = .connected)
    (halive : s.exchange.clientsAlive = true) (hstop : .stop ∉ s.exchange.actorRx) :
    ∃ t, Carried c s t ∧ t.phase = .connected ∧ t.exchange.actorRx = [] ∧
      ∀ f, .send f ∈ s.exchange.actorRx → f ∈ t.exchange.tonic.queue := by
  generalize hq : s.exchange.actorRx = queue at hstop
  induction queue generalizing s with
  | nil => exact ⟨s, .refl c s, hp, hq, by simp⟩
  | cons m rest ih =>
    have hrest : .stop ∉ rest := fun h => hstop (List.mem_cons_of_mem _ h)
    obtain ⟨t, ht, hpt, hqt, hsent⟩ : ∃ t, Carried c s t ∧ t.phase = .connected ∧
        t.exchange.actorRx = rest ∧ ∀ f, m = .send f → f ∈ t.exchange.tonic.queue := by
      by_cases hrec : m = .reconnect
      · subst hrec
        obtain ⟨t, -, -, ht, hpt, hqt, -⟩ := take_reconnect hc hp hq
        exact ⟨t, ht, hpt, hqt, by simp⟩
      · exact take_message hp hq halive (fun h => hstop (h ▸ List.mem_cons_self)) hrec
    obtain ⟨u, hu, hpu, hqu, hrestsent⟩ := ih hpt (ht.alive.trans halive) hqt hrest
    refine ⟨u, ht.trans hu, hpu, hqu, fun f hf => ?_⟩
    rcases List.mem_cons.mp hf with rfl | hf
    · exact hu.queue (hsent f rfl)
    · exact hrestsent f hf

/-! ## Recovery -/

/-- The state of a client that can be made to work again: the actor runs, someone owns a
client, and nobody has asked to stop. -/
structure Alive (s : System) : Prop where
  phase : s.phase.isEnded = false
  clients : s.exchange.clientsAlive = true
  stop : .stop ∉ s.exchange.actorRx

/-- The actor works off its queue, and then a `reconnect` gives it a new stream. -/
theorem renews (hr : Reachable c.step (initial token) s) (hc : c.Good) (h : s.Alive) :
    ∃ (u v t : System) (k : ℕ) (w : Forwarder Frame), Carried c s u ∧
      (∀ f, .send f ∈ s.exchange.actorRx → f ∈ u.exchange.tonic.queue) ∧
      u.step c.opts (.client .reconnect) = some v ∧ Carried c u v ∧ Carried c v t ∧
      t.phase = .connected ∧ t.Welcomed ∧ t.exchange.actorRx = [] ∧
      t.exchange.tonic.streams[k]? = some w ∧ w.Ready := by
  obtain ⟨s₁, h₁⟩ := connects hr hc h.phase
  obtain ⟨u, hu, hpu, hqu, hsent⟩ :=
    drains hc h₁.phase (h₁.alive.trans h.clients) (h₁.actorRx ▸ h.stop)
  have hcu := h₁.toCarried.trans hu
  let v : System := { u with exchange := u.exchange.post .reconnect }
  have hv : u.step c.opts (.client .reconnect) = some v := by
    simp [step, Exchange.client, hcu.alive, h.clients, hpu, Phase.isEnded, v]
  have hqv : v.exchange.actorRx = [.reconnect] := by simp [v, Exchange.post, hqu]
  obtain ⟨t, k, w, ht, hp, hq, hwelcome, hk, hw⟩ := take_reconnect hc (s := v) hpu hqv
  exact ⟨u, v, t, k, w, hcu, fun f hf => hsent f (h₁.actorRx ▸ hf), hv,
    ⟨Setup.reach hv, rfl, rfl, rfl, List.Subset.refl _⟩, ht, hp, hwelcome, hq, hk, hw⟩

/-- From wherever a run has led, as long as the options are good, the actor has not ended,
there is a client and nobody has asked to stop: one `reconnect` is enough for everything
to work again. It costs none of the attempts; then the relay has accepted the
connection, both queues are empty, and each frame that was waiting in one of them has
been yielded. -/
theorem reconnect_recovers (hr : Reachable c.step (initial token) s) (hc : c.Good)
    (h : s.Alive) :
    ∃ u v t, Reachable c.step s u ∧ c.step u (.client .reconnect) = some v ∧
      Reachable c.step v t ∧ t.phase = .connected ∧ t.attempt ∈ t.accepted ∧
      t.exchange.actorRx = [] ∧ t.exchange.tonic.queue = [] ∧
      (∀ f, f ∈ s.exchange.tonic.queue ∨ .send f ∈ s.exchange.actorRx → f ∈ t.exchange.yielded) ∧
      t.connAttempts = s.connAttempts ∧ t.exchange.ops = s.exchange.ops := by
  obtain ⟨u, v, s₂, k, w, hu, hsent, hv, huv, h₂, hp₂, hwelcome, hq₂, hk, hw⟩ := renews hr hc h
  have hall := (hu.trans huv).trans h₂
  obtain ⟨as, p, w', hex, hempty, hk', hy⟩ := Tonic.exec_drain hk hw
  refine ⟨u, v, { s₂ with exchange := { s₂.exchange with tonic := p } }, hu.reach,
    Setup.step_eq hv, h₂.reach.exec (exec_tonic hex), hp₂, hwelcome.1, hq₂, hempty, fun f hf => ?_,
    hall.budget, hall.ops⟩
  have hfu : f ∈ u.exchange.tonic.queue := by
    rcases hf with hf | hf
    · exact hu.queue hf
    · exact hsent f hf
  refine List.mem_flatMap.mpr ⟨w', List.mem_of_getElem? hk', ?_⟩
  rw [hy]
  exact List.mem_append_right _ (h₂.queue (huv.queue hfu))

/-- An app at an https endpoint, with a client id of visible ASCII characters. -/
def appSetup : Setup where
  opts := .build .app "app" "ns" (.token "t")
  endpoint := "https://relay.example.com"
  parseUri text := some (some (String.ofList (text.toList.takeWhile fun ch => ch ≠ ':')))
  isMetadataValue text := text.toList.all fun ch => 32 ≤ ch.toNat ∧ ch.toNat < 127

theorem appSetup_good : appSetup.Good :=
  ⟨by decide, by decide, by simp [appSetup, ClientOpts.build]⟩

/-- A message is sent while the relay cannot be reached. -/
def sendWhileDown : List Action :=
  [.validate none, .client (.send ⟨.orb, [1], "orb", "ns", .atMostOnce⟩), .client (.poll 0),
    .dial (.transport "refused")]

theorem sendWhileDown_recovers :
    ∃ (s u v t : System) (f : Frame),
      Reachable appSetup.step (initial "") s ∧ s.accepted = [] ∧
      s.exchange.actorRx = [.send f] ∧ appSetup.step u (.client .reconnect) = some v ∧
      Reachable appSetup.step v t ∧ t.phase = .connected ∧ f ∈ t.exchange.yielded := by
  have he : ((exec appSetup.step (initial "") sendWhileDown).map fun s =>
      (s.phase.isEnded, s.exchange.clientsAlive, s.accepted, s.exchange.actorRx)) =
        some (false, true, [], [.send ⟨.payload (Call.relayPayload appSetup.opts
          (.send ⟨.orb, [1], "orb", "ns", .atMostOnce⟩ 0)), .op 0⟩]) := by decide
  obtain ⟨tr, s, h, hs⟩ := Run.of_exec_map he
  simp only [Prod.mk.injEq] at hs
  obtain ⟨hp, halive, hacc, hq⟩ := hs
  obtain ⟨u, v, t, -, hv, hvt, hpt, -, -, -, hyield, -⟩ :=
    reconnect_recovers ⟨tr, h⟩ appSetup_good ⟨hp, halive, by simp [hq]⟩
  exact ⟨s, u, v, t, _, ⟨tr, h⟩, hacc, hq, hv, hvt, hpt, hyield _ (.inr (by simp [hq]))⟩

/-! ## Calls of a running actor -/

/-- A call of which some sender is left while nothing is queued has its waiter in a map,
and the relay can answer it. -/
theorem answers_waiter (hp : s.phase = .connected) (hopen : s.streamEnded = false)
    (hq : s.exchange.actorRx = []) {call : Call}
    (ha : s.exchange.senderAlive false o call = true) :
    ∃ e, Reachable c.step s { s with exchange := e } ∧ e.ops = s.exchange.ops ∧
      (e.outcome o call).isSome := by
  have hack (hk : ∃ v, s.exchange.state.pendingAcks call.seq = some v ∧ v.2 = o) :
      ∃ e, Reachable c.step s { s with exchange := e } ∧ e.ops = s.exchange.ops ∧
        o ∈ e.acked := by
    obtain ⟨⟨m, j⟩, hk, rfl⟩ := hk
    have hs : s.step c.opts (.response (.message (some (.ack call.seq none)) ⟨"", 0⟩)) =
        some { s with exchange := handleAck (s.exchange.note
          (.relayResponse (.ack call.seq none) ⟨"", 0⟩)) call.seq } := by
      simp [step, response, hopen, hp, hq, listen, handle, handleMsg]
    refine ⟨_, Setup.reach hs, ?_, ?_⟩ <;> simp [handleAck, Exchange.note, hk]
  cases call with
  | ask msg seq =>
    obtain ⟨⟨m, j⟩, hk, rfl⟩ : ∃ v, s.exchange.state.pendingReplies (msg.targetId, seq) = some v ∧
        v.2 = o := by
      simpa [Exchange.senderAlive, hq, Option.any_eq_true] using ha
    let x : RecvdRelayPayload := ⟨⟨msg.targetId, 0, ""⟩, [], seq, ⟨"", 0⟩⟩
    let m' : ResponseMsg := .payload ⟨some x.from_, none, seq, some ⟨"", []⟩⟩
    have hs : s.step c.opts (.response (.message (some m') x.tag)) =
        some { s with exchange := { s.exchange.note (.relayResponse m' x.tag) with
          state := s.exchange.state.removeReply (msg.targetId, seq)
          answered := s.exchange.answered ++ [(j, x)] } } := by
      simp [step, response, hopen, hp, hq, listen, handle, handleMsg, handlePayload,
        Exchange.note, hk, x, m']
    refine ⟨_, Setup.reach hs, rfl, ?_⟩
    simp [Exchange.outcome]
  | send msg seq =>
    obtain ⟨e, hr, hops, ho⟩ := hack <| by
      simpa [Exchange.senderAlive, hq, Option.any_eq_true] using ha
    exact ⟨e, hr, hops, by simp [Exchange.outcome, ho]⟩
  | reply on payload qos =>
    obtain ⟨e, hr, hops, ho⟩ := hack <| by
      simpa [Exchange.senderAlive, hq, Option.any_eq_true] using ha
    exact ⟨e, hr, hops, by simp [Exchange.outcome, ho]⟩

theorem returns_of_poll {e : Exchange} {result : Except Err (Option Encoding.Bytes)}
    (hp : s.phase.isEnded = false) (ho : s.exchange.ops[o]? = some op)
    (hops : e.ops = (s.exchange.setPc o op (.returned result)).ops)
    (h : s.exchange.poll c.opts false o op = some e) :
    ∃ t, Reachable c.step s t ∧ t.exchange.ops[o]? = some ⟨op.call, .returned result⟩ := by
  have hs : s.step c.opts (.client (.poll o)) = some { s with exchange := e } := by
    simp [step, Exchange.client, ho, hp, h]
  exact ⟨_, Setup.reach hs, by simp [hops, Exchange.setPc_get ho]⟩

/-- A call that is at its `await` can return. -/
theorem returns_of_wait (hr : Reachable c.step (initial token) s) (hc : c.Good) (h : s.Alive)
    {call : Call} (ho : s.exchange.ops[o]? = some ⟨call, .wait⟩) :
    ∃ t result, Reachable c.step s t ∧
      t.exchange.ops[o]? = some ⟨call, .returned result⟩ := by
  obtain ⟨u, v, t, k, w, hu, -, -, hv, ht, hp, hwelcome, hq, -, -⟩ := renews hr hc h
  have hall := (hu.trans hv).trans ht
  have hrun : t.phase.isEnded = false := by rw [hp]; rfl
  have ho : t.exchange.ops[o]? = some ⟨call, .wait⟩ := hall.ops ▸ ho
  -- whoever is left to answer answers, and if nobody is, the `await` fails
  obtain ⟨e, he, hops, hout⟩ : ∃ e, Reachable c.step t { t with exchange := e } ∧
      e.ops = t.exchange.ops ∧
        ((e.outcome o call).isSome ∨ e.senderAlive false o call = false) := by
    cases ha : t.exchange.senderAlive false o call with
    | true =>
      obtain ⟨e, he, hops, hout⟩ := answers_waiter hp hwelcome.2 hq ha
      exact ⟨e, he, hops, .inl hout⟩
    | false => exact ⟨t.exchange, .refl, rfl, .inr ha⟩
  have hoe : e.ops[o]? = some ⟨call, .wait⟩ := hops ▸ ho
  obtain ⟨result, hpoll⟩ : ∃ result, e.poll c.opts false o ⟨call, .wait⟩ =
      some (e.setPc o ⟨call, .wait⟩ (.returned result)) := by
    unfold Exchange.poll
    cases hr : e.outcome o call with
    | some r => exact ⟨_, rfl⟩
    | none =>
      have hgone := hout.resolve_left (by simp [hr])
      exact ⟨_, by simp [hgone]; rfl⟩
  obtain ⟨t', ht', hret⟩ := returns_of_poll (s := { t with exchange := e }) hrun hoe rfl hpoll
  exact ⟨t', result, (hall.reach.trans he).trans ht', hret⟩

theorem Alive.posted {m : Msg} {pc : Pc} (h : s.Alive) (hm : m ≠ .stop) :
    ({ s with exchange := (s.exchange.post m).setPc o op pc } : System).Alive := by
  refine ⟨h.phase, h.clients, fun hstop => ?_⟩
  rcases List.mem_append.mp hstop with hstop | hstop
  · exact h.stop hstop
  · exact hm (List.mem_singleton.mp hstop).symm

/-- A call that has its registration before it can return. -/
theorem returns_of_register (hr : Reachable c.step (initial token) s) (hc : c.Good)
    (h : s.Alive) {call : Call} (ho : s.exchange.ops[o]? = some ⟨call, .register⟩) :
    ∃ t result, Reachable c.step s t ∧
      t.exchange.ops[o]? = some ⟨call, .returned result⟩ := by
  have hi := (accounted_of_reachable (Setup.system_reachable hr)).calls o _ ho
  obtain ⟨r, hw⟩ := Option.isSome_iff_exists.mp hi.of_register.2
  cases r with
  | error err =>
    have hpoll : s.exchange.poll c.opts false o ⟨call, .register⟩ =
        some (s.exchange.setPc o ⟨call, .register⟩ (.returned (.error err))) := by
      simp [Exchange.poll, hw]
    obtain ⟨t, ht, hret⟩ := returns_of_poll h.phase ho rfl hpoll
    exact ⟨t, _, ht, hret⟩
  | ok m =>
    let e := (s.exchange.post m).setPc o ⟨call, .register⟩ .wait
    have hs : s.step c.opts (.client (.poll o)) = some { s with exchange := e } := by
      simp [step, Exchange.client, ho, h.phase, Exchange.poll, hw, e]
    have hm : m ≠ .stop := by
      rintro rfl
      exact absurd (call.waiter_by? hw) (by simp [Msg.by?])
    have hwait : e.ops[o]? = some ⟨call, .wait⟩ := by
      simp [e, Exchange.setPc_get (e := s.exchange.post m) ho]
    obtain ⟨t, result, ht, hret⟩ :=
      returns_of_wait (hr.snoc (Setup.step_eq hs)) hc (h.posted hm) hwait
    exact ⟨t, result, (Setup.reach hs).trans ht, hret⟩

/-- While the actor runs, and the options are good, no call hangs: it can always come to
its end. -/
theorem returns_of_running (hr : Reachable c.step (initial token) s) (hc : c.Good)
    (h : s.Alive) (ho : s.exchange.ops[o]? = some op) (hf : op.finished = false) :
    ∃ t result, Reachable c.step s t ∧
      t.exchange.ops[o]? = some ⟨op.call, .returned result⟩ := by
  obtain ⟨call, pc⟩ := op
  cases pc with
  | enqueue =>
    let m : Msg := .send ⟨.payload (call.relayPayload c.opts), .op o⟩
    cases hw : call.waiter o with
    | none =>
      let e := (s.exchange.post m).setPc o ⟨call, .enqueue⟩ (.returned (.ok none))
      have hpoll : s.exchange.poll c.opts false o ⟨call, .enqueue⟩ = some e := by
        simp [Exchange.poll, hw, m, e]
      have hops : e.ops = (s.exchange.setPc o ⟨call, .enqueue⟩ (.returned (.ok none))).ops := rfl
      obtain ⟨t, ht, hret⟩ := returns_of_poll h.phase ho hops hpoll
      exact ⟨t, _, ht, hret⟩
    | some r =>
      let e := (s.exchange.post m).setPc o ⟨call, .enqueue⟩ .register
      have hs : s.step c.opts (.client (.poll o)) = some { s with exchange := e } := by
        simp [step, Exchange.client, ho, h.phase, Exchange.poll, hw, e, m]
      have hregister : e.ops[o]? = some ⟨call, .register⟩ := by
        simp [e, Exchange.setPc_get (e := s.exchange.post m) ho]
      obtain ⟨t, result, ht, hret⟩ :=
        returns_of_register (hr.snoc (Setup.step_eq hs)) hc (h.posted (by simp [m])) hregister
      exact ⟨t, result, (Setup.reach hs).trans ht, hret⟩
  | register => exact returns_of_register hr hc h ho
  | wait => exact returns_of_wait hr hc h ho
  | returned result => cases hf
  | dropped => cases hf

/-- An ask waits while the relay cannot be reached. -/
def askWhileDown : List Action :=
  [.validate none, .client (.ask ⟨.orb, [1], "orb", "ns", .atLeastOnce⟩), .client (.poll 0),
    .client (.poll 0), .dial (.transport "refused")]

theorem askWhileDown_returns :
    ∃ (s t : System) (result : Except Err (Option Encoding.Bytes)),
      Reachable appSetup.step (initial "") s ∧ s.accepted = [] ∧
      Reachable appSetup.step s t ∧ t.exchange.ops[0]? =
        some ⟨.ask ⟨.orb, [1], "orb", "ns", .atLeastOnce⟩ 0, .returned result⟩ := by
  have he : ((exec appSetup.step (initial "") askWhileDown).map fun s =>
      (s.phase.isEnded, s.exchange.clientsAlive, s.accepted, s.exchange.actorRx.contains .stop,
        s.waitingAt 0)) =
        some (false, true, [], false, some (.ask ⟨.orb, [1], "orb", "ns", .atLeastOnce⟩ 0)) := by
    decide
  obtain ⟨tr, s, h, hs⟩ := Run.of_exec_map he
  simp only [Prod.mk.injEq] at hs
  obtain ⟨hp, halive, hacc, hstop, hwait⟩ := hs
  obtain ⟨t, result, ht, hret⟩ := returns_of_running ⟨tr, h⟩ appSetup_good
    ⟨hp, halive, by simpa using hstop⟩ (waitingAt_eq_some hwait) rfl
  exact ⟨s, t, result, ⟨tr, h⟩, hacc, ht, hret⟩

/-! ## Stopping -/

/-- Where no client is left, a payload can cost the connection, and the actor makes a new
one if it may. -/
theorem take_unheard {m : Msg} {rest : List Msg} (hc : c.Good)
    (hn : c.opts.maxConnectionAttempts = .infinite) (hp : s.phase = .connected)
    (hq : s.exchange.actorRx = m :: rest) (hstop : m ≠ .stop) (hrec : m ≠ .reconnect) :
    ∃ t, Reachable c.step s t ∧ t.phase = .connected ∧ t.exchange.actorRx = rest := by
  let s₁ : System := { s with exchange := { s.exchange with actorRx := rest } }
  have hs : s.step c.opts .take = some (s₁.handle c.opts m) := by simp [step, hp, hq, s₁]
  cases hm : handleMsg c.opts (s₁.exchange.note m) m with
  | ok e =>
    rw [handle, hm] at hs
    exact ⟨_, Setup.reach hs, hp, (handled_of_handleMsg hm).actorRx⟩
  | error err =>
    obtain ⟨src, dst, seq, payload, tag, rfl, hk, hgone⟩ :=
      ((handleMsg_error hm).resolve_left hstop).resolve_left hrec
    obtain rfl : err = .other "Failed to send message to client_rx" := by
      simpa [handleMsg, handlePayload, hk, hgone] using hm.symm
    rw [handle, hm] at hs
    let s₂ := { s₁ with exchange := s₁.exchange.note (.relayResponse
      (.payload ⟨some src, dst, seq, some payload⟩) tag) }.fail c.opts
        (.other "Failed to send message to client_rx")
    have hback : s₂.phase = .backoff ∧ s₂.exchange.actorRx = rest := by
      simp [s₂, fail, hn, Amount.le, s₁, cancel, Exchange.note]
    have hwake : s₂.step c.opts .wake = some s₂.enter := by simp [step, hback.1]
    obtain ⟨t, -, -, ht, -⟩ := connects_of_dialing (s := s₂.enter) hc rfl rfl
    exact ⟨t, ((Setup.reach hs).trans (Setup.reach hwake)).trans ht.reach, ht.phase,
      ht.actorRx.trans hback.2⟩

/-- A connected actor that has a `Stop` in its queue can come to it, past what stands
before it. -/
theorem stops_of_connected (hc : c.Good)
    (hends : s.exchange.clientsAlive = true ∨ c.opts.maxConnectionAttempts = .infinite)
    (hp : s.phase = .connected) (hstop : .stop ∈ s.exchange.actorRx) :
    ∃ t, Reachable c.step s t ∧ t.phase = .ended (.ok ()) := by
  generalize hq : s.exchange.actorRx = queue at hstop
  induction queue generalizing s with
  | nil => cases hstop
  | cons m rest ih =>
    by_cases hm : m = .stop
    · subst hm
      have hs : s.step c.opts .take =
          some { ({ s with exchange := { s.exchange with actorRx := rest }.note .stop } :
            System).cancel with phase := .ended (.ok ()) } := by
        simp [step, hp, hq, handle, handleMsg, fail]
      exact ⟨_, Setup.reach hs, rfl⟩
    have hrest : .stop ∈ rest := (List.mem_cons.mp hstop).resolve_left (Ne.symm hm)
    suffices ∃ t, Reachable c.step s t ∧ t.phase = .connected ∧ t.exchange.actorRx = rest ∧
        (t.exchange.clientsAlive = true ∨ c.opts.maxConnectionAttempts = .infinite) by
      obtain ⟨t, ht, hpt, hqt, hct⟩ := this
      obtain ⟨u, hu, hend⟩ := ih hct hpt hqt hrest
      exact ⟨u, ht.trans hu, hend⟩
    by_cases hrec : m = .reconnect
    · subst hrec
      obtain ⟨t, -, -, ht, hpt, hqt, -⟩ := take_reconnect hc hp hq
      exact ⟨t, ht.reach, hpt, hqt, ht.alive ▸ hends⟩
    rcases hends with halive | hn
    · obtain ⟨t, ht, hpt, hqt, -⟩ := take_message hp hq halive hm hrec
      exact ⟨t, ht.reach, hpt, hqt, .inl (ht.alive.trans halive)⟩
    · obtain ⟨t, ht, hpt, hqt⟩ := take_unheard hc hn hp hq hm hrec
      exact ⟨t, ht, hpt, hqt, .inr hn⟩

/-- Where the options are good, a `Stop` that is queued can still be carried out, whatever
the actor is doing. -/
theorem stops (hr : Reachable c.step (initial token) s) (hc : c.Good)
    (hends : s.exchange.clientsAlive = true ∨ c.opts.maxConnectionAttempts = .infinite)
    (hp : s.phase.isEnded = false) (hstop : .stop ∈ s.exchange.actorRx) :
    ∃ t, Reachable c.step s t ∧ t.phase = .ended (.ok ()) := by
  obtain ⟨u, hu⟩ := connects hr hc hp
  obtain ⟨t, ht, hend⟩ :=
    stops_of_connected hc (hu.alive ▸ hends) hu.phase (hu.actorRx ▸ hstop)
  exact ⟨t, hu.reach.trans ht, hend⟩

/-- A client is stopped and let go of while the relay cannot be reached. -/
def stopWhileDown : List Action :=
  [.validate none, .client .stop, .client .release, .dial (.transport "refused")]

theorem stopWhileDown_stops :
    ∃ s t, Reachable appSetup.step (initial "") s ∧ s.exchange.clientsAlive = false ∧
      Reachable appSetup.step s t ∧ t.phase = .ended (.ok ()) := by
  have he : ((exec appSetup.step (initial "") stopWhileDown).map fun s =>
      (s.phase.isEnded, s.exchange.clientsAlive, s.exchange.actorRx)) =
        some (false, false, [.stop]) := by decide
  obtain ⟨tr, s, h, hs⟩ := Run.of_exec_map he
  simp only [Prod.mk.injEq] at hs
  obtain ⟨hp, hgone, hq⟩ := hs
  obtain ⟨t, ht, hend⟩ := stops ⟨tr, h⟩ appSetup_good (.inr rfl) hp (by simp [hq])
  exact ⟨s, t, ⟨tr, h⟩, hgone, ht, hend⟩

end System
end OrbRelay.Client
