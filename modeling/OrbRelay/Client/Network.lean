import OrbRelay.Client.Answers

/-!
# Clients on one relay

Any number of clients with different ids. The relay hands a payload frame that one of
them has sent to the client it is addressed to, unmodified, at any time and any number
of times. Asks are answered by sender and number, and every client numbers its own
sends and asks.
-/
namespace OrbRelay.Client
open Encoding Transition

/-- The clients of a relay, with what their `Auth::TokenReceiver`s show at first. -/
structure Members (ι : Type*) where
  opts : ι → ClientOpts
  token : ι → String
  distinct : Function.Injective fun i => (opts i).clientId

/-- A client acts on its own, or the relay hands client `i` the `n`-th frame that stream
`k` of client `j` has yielded. -/
inductive NetAction (ι : Type*) where
  | own (i : ι) (a : Action)
  | deliver (i j : ι) (k n : ℕ)

def Action.hearsPayload : Action → Bool
  | .response (.message (some (.payload _)) _) => true
  | _ => false

def Call.targetId : Call → ClientId
  | .send msg _ => msg.targetId
  | .ask msg _ => msg.targetId
  | .reply on _ _ => on.from_.id

def Call.data : Call → Bytes
  | .send msg _ => msg.data
  | .ask msg _ => msg.data
  | .reply _ payload _ => payload

theorem Call.relayPayload_eq (opts : ClientOpts) (call : Call) :
    ∃ dst : Entity, dst.id = call.targetId ∧
      call.relayPayload opts = ⟨some opts.entity, some dst, call.seq, some ⟨"", call.data⟩⟩ := by
  cases call <;> exact ⟨_, rfl, rfl⟩

section

variable {ι : Type*} [DecidableEq ι] (M : Members ι)

namespace Members

/-- The client that an action of the network is about, and what happens to it. -/
def act (n : ι → System) : NetAction ι → Option (ι × Action)
  | .own i a => if a.hearsPayload then none else some (i, a)
  | .deliver i j k m =>
    match (n j).exchange.tonic.streams[k]?.bind fun w => w.yielded[m]? with
    | some ⟨.payload p, .op o⟩ =>
      if p.dst.map Entity.id = some (M.opts i).clientId then
        some (i, .response (.message (some (.payload p)) ⟨(M.opts j).clientId, o⟩))
      else none
    | _ => none

def initial : ι → System := fun i => .initial (M.token i)

def step (n : ι → System) (a : NetAction ι) : Option (ι → System) :=
  (M.act n a).bind fun (i, b) => ((n i).step (M.opts i) b).map fun s => Function.update n i s

variable {M} {n n' t : ι → System} {a : NetAction ι} {i j : ι} {o : OpId} {tag : Tag}
  {tr : List ((ι → System) × NetAction ι)}

/-- A step of the network leaves a client alone or is a step of that client. -/
theorem step_at (h : M.step n a = some n') (j : ι) :
    n' j = n j ∨ ∃ b, M.act n a = some (j, b) ∧ (n j).step (M.opts j) b = some (n' j) := by
  obtain ⟨⟨i, b⟩, hact, h⟩ := Option.bind_eq_some_iff.mp h
  obtain ⟨s, hs, rfl⟩ := Option.map_eq_some_iff.mp h
  by_cases hji : j = i
  · subst hji
    rw [Function.update_self]
    exact .inr ⟨b, hact, hs⟩
  · exact .inl (Function.update_of_ne hji _ _)

theorem step_acting {b : Action} (h : M.step n a = some n') (hact : M.act n a = some (i, b)) :
    (n i).step (M.opts i) b = some (n' i) := by
  simp only [step, hact, Option.bind_some] at h
  obtain ⟨s, hs, rfl⟩ := Option.map_eq_some_iff.mp h
  rw [Function.update_self]
  exact hs

theorem client_reachable (h : Reachable M.step M.initial n) (j : ι) :
    Reachable (System.step (M.opts j)) (System.initial (M.token j)) (n j) :=
  h.invariant (P := fun n => Reachable (System.step (M.opts j)) (System.initial (M.token j)) (n j))
    .refl fun _ _ _ _ hp hs => by
      rcases step_at hs j with heq | ⟨b, -, hb⟩
      · exact heq ▸ hp
      · exact hp.snoc hb

theorem calls_kept (hs : M.step n a = some n') (j : ι) :
    (n j).exchange.calls <+: (n' j).exchange.calls := by
  rcases step_at hs j with heq | ⟨b, -, hb⟩
  · rw [heq]
  · exact (System.moves_of_step hb).calls_kept

theorem received_subset (hs : M.step n a = some n') (j : ι) :
    (n j).exchange.received ⊆ (n' j).exchange.received := by
  rcases step_at hs j with heq | ⟨b, -, hb⟩
  · rw [heq]
    exact List.Subset.refl _
  · exact (System.moves_of_step hb).received_subset

/-! ## Payloads come from calls -/

/-- The tag of a payload names the call of a member that it was made for. -/
def Made (M : Members ι) (n : ι → System) (i : ι) (p : RelayPayload) (tag : Tag) : Prop :=
  ∃ j call, tag.client = (M.opts j).clientId ∧ (n j).exchange.calls[tag.op]? = some call ∧
    p = call.relayPayload (M.opts j) ∧ call.targetId = (M.opts i).clientId

/-- Every payload that a client has heard was made for it. -/
def Genuine (M : Members ι) (n : ι → System) : Prop :=
  ∀ i p tag, .relayResponse (.payload p) tag ∈ (n i).exchange.trail → M.Made n i p tag

theorem Made.step {p : RelayPayload} (h : M.Made n i p tag) (hs : M.step n a = some n') :
    M.Made n' i p tag := by
  obtain ⟨j, call, htag, hcall, hp, hi⟩ := h
  exact ⟨j, call, htag, Exchange.calls_get_kept (calls_kept hs j) hcall, hp, hi⟩

theorem made_of_act {p : RelayPayload} (hr : Reachable M.step M.initial n)
    (h : M.act n a = some (i, .response (.message (some (.payload p)) tag))) :
    M.Made n i p tag := by
  cases a with
  | own j b =>
    simp only [act] at h
    split_ifs at h with hb
    cases h
    exact absurd rfl hb
  | deliver i' j k m =>
    simp only [act] at h
    split at h
    · next q o hf =>
      obtain ⟨w, hw, hf⟩ := Option.bind_eq_some_iff.mp hf
      split_ifs at h with hdst
      cases h
      obtain ⟨op, hop, hq⟩ := System.said_of_reachable (client_reachable hr j)
        (List.mem_of_getElem? hw) (List.mem_of_getElem? hf) rfl
      cases hq
      obtain ⟨dst, hid, heq⟩ := op.call.relayPayload_eq (M.opts j)
      refine ⟨j, op.call, rfl, Exchange.calls_get hop, rfl, ?_⟩
      rw [heq] at hdst
      simpa [hid] using hdst
    · cases h

theorem genuine_step (hr : Reachable M.step M.initial n) (h : M.Genuine n)
    (hs : M.step n a = some n') : M.Genuine n' := by
  intro j p tag hm
  rcases step_at hs j with heq | ⟨b, hact, hb⟩
  · exact (h j p tag (heq ▸ hm)).step hs
  · have ha := System.accounted_of_reachable (client_reachable hr j)
    rcases System.response_of_step hb ha.timers rfl hm with hm | rfl
    · exact (h j p tag hm).step hs
    · exact (made_of_act hr hact).step hs

theorem genuine_of_reachable (h : Reachable M.step M.initial n) : M.Genuine n :=
  h.invariant (P := M.Genuine)
    (by simp [Genuine, initial, System.initial, Exchange.initial, Exchange.trail])
    fun _ _ _ hr hp hs => genuine_step hr hp hs

/-- What a step hands to `handle_msg` was made for the client, too. -/
theorem made_of_handles (hr : Reachable M.step M.initial n) {b : Action} {p : RelayPayload}
    (hact : M.act n a = some (i, b))
    (hm : (n i).handles b = some (.relayResponse (.payload p) tag)) : M.Made n i p tag := by
  rcases System.handles_eq_some hm with hq | ⟨m, tag', hmsg, rfl⟩
  · exact genuine_of_reachable hr i p tag (List.mem_append_right _ hq)
  · cases hmsg
    exact made_of_act hr hact

/-! ## Correlation -/

/-- A payload that was made for an ask of client `i`: its target replied with it to a
message that it received, and that message is the ask. -/
def Answers (M : Members ι) (n : ι → System) (i : ι) (o : OpId) (payload : Bytes) (tag : Tag) :
    Prop :=
  ∃ msg seq j on qos, (n i).exchange.calls[o]? = some (.ask msg seq) ∧
    (M.opts j).clientId = msg.targetId ∧ tag.client = msg.targetId ∧
    (n j).exchange.calls[tag.op]? = some (.reply on payload qos) ∧
    on ∈ (n j).exchange.received ∧ on.tag = ⟨(M.opts i).clientId, o⟩ ∧
    on.from_ = (M.opts i).entity ∧ on.seq = seq ∧ on.payload = msg.data

/-- Only replies to an ask are taken for its answer, and nothing else is returned. -/
structure Correlates (M : Members ι) (n : ι → System) : Prop where
  taken : ∀ i, ∀ x ∈ (n i).exchange.answered, M.Answers n i x.1 x.2.payload x.2.tag
  returned : ∀ (i : ι) (o : OpId) (op : Op) (msg : SendMessage) (seq : Seq) result,
    (n i).exchange.ops[o]? = some op → op.call = .ask msg seq → op.pc = .returned (.ok result) →
      ∃ payload tag, result = some payload ∧ M.Answers n i o payload tag

/-- The call that a payload was made for is a reply to a send or an ask of client `i`,
and not so many calls after or before `o` that their numbers could be the same. -/
def RepliesOwn (M : Members ι) (n : ι → System) (i : ι) (o : OpId) (tag : Tag) : Prop :=
  ∃ j on payload qos o' call, tag.client = (M.opts j).clientId ∧
    (n j).exchange.calls[tag.op]? = some (.reply on payload qos) ∧
    on.tag = ⟨(M.opts i).clientId, o'⟩ ∧ (n i).exchange.calls[o']? = some call ∧
    call.own = true ∧ (n i).exchange.near o' o

/-- A step hands a client a payload under the key of a pending ask although it is no
reply to one of the messages that the client has numbered. -/
def Crosses (M : Members ι) (n : ι → System) (a : NetAction ι) : Prop :=
  ∃ i b entity dst seq payload tag msg o, M.act n a = some (i, b) ∧
    (n i).handles b =
      some (.relayResponse (.payload ⟨some entity, dst, seq, some payload⟩) tag) ∧
    (n i).exchange.state.pendingReplies (entity.id, seq) = some (msg, o) ∧
    ¬ M.RepliesOwn n i o tag

theorem Answers.step {payload : Bytes} (h : M.Answers n i o payload tag)
    (hs : M.step n a = some n') : M.Answers n' i o payload tag := by
  obtain ⟨msg, seq, j, on, qos, ho, hj, htag, hreply, hr, hrest⟩ := h
  exact ⟨msg, seq, j, on, qos, Exchange.calls_get_kept (calls_kept hs i) ho, hj, htag,
    Exchange.calls_get_kept (calls_kept hs j) hreply, received_subset hs j hr, hrest⟩

/-- A pending ask is a call of the client, under the number of its key. -/
theorem call_of_pending (hr : Reachable M.step M.initial n) {id : ClientId} {seq : Seq}
    {msg : SendMessage} (hp : (n i).exchange.state.pendingReplies (id, seq) = some (msg, o)) :
    id = msg.targetId ∧ (n i).exchange.calls[o]? = some (.ask msg seq) := by
  have hc := client_reachable hr i
  obtain ⟨hid, op, ho, hcall⟩ :=
    (System.booked_of_reachable hc).call_of_ask (System.accounted_of_reachable hc) hp
  exact ⟨hid, hcall ▸ Exchange.calls_get ho⟩

/-- A received message on which a reply was made is what its tag says. -/
theorem made_of_reply (hr : Reachable M.step M.initial n) {o' : OpId} {on : RecvMessage}
    {payload : Bytes} {qos : QoS}
    (h : (n j).exchange.calls[o']? = some (.reply on payload qos)) :
    on ∈ (n j).exchange.received ∧ ∃ i call, on.tag.client = (M.opts i).clientId ∧
      (n i).exchange.calls[on.tag.op]? = some call ∧ on.from_ = (M.opts i).entity ∧
      on.seq = call.seq ∧ on.payload = call.data := by
  have hd := System.delivered_of_reachable (client_reachable hr j)
  have hrec := hd.replies o' on payload qos h
  obtain ⟨dst, url, hh⟩ := hd.received on hrec
  obtain ⟨i, call, htag, hcall, hp, -⟩ :=
    genuine_of_reachable hr j _ _ (List.mem_append_left _ hh)
  obtain ⟨dst', -, heq⟩ := call.relayPayload_eq (M.opts i)
  rw [heq] at hp
  simp only [RelayPayload.mk.injEq, Option.some.injEq, Any.mk.injEq] at hp
  exact ⟨hrec, i, call, htag, hcall, hp.1, hp.2.2.1, hp.2.2.2.2⟩

/-- A payload that matches a pending ask, and replies to a numbered message, answers
that very ask. -/
theorem answers_of_repliesOwn (hr : Reachable M.step M.initial n) {entity : Entity}
    {dst : Option Entity} {seq : Seq} {payload : Any} {msg : SendMessage}
    (hm : M.Made n i ⟨some entity, dst, seq, some payload⟩ tag)
    (hp : (n i).exchange.state.pendingReplies (entity.id, seq) = some (msg, o))
    (hown : M.RepliesOwn n i o tag) : M.Answers n i o payload.value tag := by
  obtain ⟨hid, ho⟩ := call_of_pending hr hp
  obtain ⟨j, on, data, qos, o', call, htag, hreply, hon, hcall, hcallown, hnear⟩ := hown
  obtain ⟨j₁, reply, htag₁, hreply₁, hmade, -⟩ := hm
  obtain rfl : j = j₁ := M.distinct (htag.symm.trans htag₁)
  obtain rfl : Call.reply on data qos = reply := Option.some.inj (hreply.symm.trans hreply₁)
  obtain ⟨dst', -, heq⟩ := (Call.reply on data qos).relayPayload_eq (M.opts j)
  rw [heq] at hmade
  simp only [RelayPayload.mk.injEq, Option.some.injEq] at hmade
  obtain ⟨rfl, -, rfl, rfl⟩ := hmade
  obtain ⟨hrec, i₁, call₁, hclient, hcall₁, hfrom, hseq, hdata⟩ := made_of_reply hr hreply
  rw [hon] at hclient hcall₁
  obtain rfl : i = i₁ := M.distinct hclient
  obtain rfl : call = call₁ := Option.some.inj (hcall.symm.trans hcall₁)
  have hnum := System.numbered_of_reachable (client_reachable hr i)
  obtain rfl : o' = o := hnum.eq_of_near hcall ho hcallown rfl hseq.symm hnear
  obtain rfl : call = .ask msg on.seq := Option.some.inj (hcall.symm.trans ho)
  exact ⟨msg, on.seq, j, on, qos, ho, hid, htag.trans hid, hreply, hrec, hon, hfrom, rfl, hdata⟩

/-- The part of it that single steps keep. -/
def Taken (M : Members ι) (n : ι → System) : Prop :=
  ∀ i, ∀ x ∈ (n i).exchange.answered, M.Answers n i x.1 x.2.payload x.2.tag

theorem taken_step (hr : Reachable M.step M.initial n) (h : M.Taken n) (hg : ¬ M.Crosses n a)
    (hs : M.step n a = some n') : M.Taken n' := by
  intro i x hx
  refine Answers.step ?_ hs
  rcases step_at hs i with heq | ⟨b, hact, hb⟩
  · exact h i x (heq ▸ hx)
  have hm := System.moves_of_step hb
  generalize hl : (n i).handles b = l at hm
  cases hm.hands with
  | answer entity dst seq payload tag msg o hp hc hrec ha =>
    rw [ha] at hx
    rcases List.mem_append.mp hx with hx | hx
    · exact h i x hx
    · rw [List.mem_singleton.mp hx]
      have hown : M.RepliesOwn n i o tag := by
        by_contra hno
        exact hg ⟨i, b, entity, dst, seq, payload, tag, msg, o, hact, hl, hp, hno⟩
      have hmade := made_of_handles hr hact hl
      exact answers_of_repliesOwn hr hmade hp hown
  | deliver _ _ _ _ _ _ _ _ ha => exact h i x (ha ▸ hx)
  | recv _ _ _ ha => exact h i x (ha ▸ hx)
  | keep _ _ ha _ => exact h i x (ha ▸ hx)

theorem Crosses.not_taken (hg : M.Crosses n a) (hs : M.step n a = some n') : ¬ M.Taken n' := by
  obtain ⟨i, b, entity, dst, seq, payload, tag, msg, o, hact, hl, hp, hno⟩ := hg
  have hm := System.moves_of_step (step_acting hs hact)
  rw [hl] at hm
  intro h
  have hadded : (o, (⟨entity, payload.value, seq, tag⟩ : RecvdRelayPayload)) ∈
      (n' i).exchange.answered := by
    cases hm.hands with
    | answer _ _ _ _ _ msg' o' hp' hc hr ha =>
      cases hp.symm.trans hp'
      simp [ha]
    | deliver _ _ _ _ _ hp' _ _ _ => simp [hp] at hp'
    | keep _ _ _ hn =>
      have := hn _ _ _ _ _ rfl
      simp [hp] at this
  obtain ⟨msg', seq', j, on, qos, ho, hj, htag, hreply, -, hon, -⟩ := h i _ hadded
  have hcalls : ∀ j, (n' j).exchange.calls = (n j).exchange.calls := by
    intro j
    rcases step_at hs j with heq | ⟨b', hact', hb'⟩
    · rw [heq]
    · cases hact.symm.trans hact'
      exact hm.calls_of_handled
  rw [hcalls] at ho hreply
  exact hno ⟨j, on, _, qos, o, _, htag.trans hj.symm, hreply, hon, ho, rfl, by
    constructor <;> omega⟩

theorem Taken.correlates (h : M.Taken n) (hr : Reachable M.step M.initial n) :
    M.Correlates n := by
  refine ⟨h, fun i o op msg seq result ho hcall hpc => ?_⟩
  have hc := client_reachable hr i
  rcases System.settled_of_reachable hc o op result ho hpc (by rw [hcall]; rfl) with
    ⟨⟨x, hx, rfl, hres⟩, -⟩ | hacked
  · exact ⟨x.2.payload, x.2.tag, hres, h i x hx⟩
  · -- the channel of an ask holds no ack
    obtain ⟨msg', k, hw⟩ := (System.booked_of_reachable hc).acked o hacked
    obtain ⟨op', ho', hwait⟩ := (System.accounted_of_reachable hc).waiter_of_handled hw rfl rfl
    obtain rfl := Option.some.inj (ho.symm.trans ho')
    rw [hcall] at hwait
    cases hwait

/-- In a run of any network, every ask is answered by a reply to it exactly if no step
hands a client a payload under the key of a pending ask that does not reply to one of
its own numbered messages. -/
theorem correlates_iff (h : Run M.step M.initial tr t) :
    (∀ u ∈ visited tr t, M.Correlates u) ↔ ∀ x ∈ tr, ¬ M.Crosses x.1 x.2 := by
  have h0 : M.Taken M.initial := by simp [Taken, initial, System.initial, Exchange.initial]
  exact h.exact h0 (fun _ _ _ hr hp hg hs => taken_step hr hp hg hs)
    (fun _ hr hp => hp.correlates hr) fun _ _ _ _ hg hs hcor => hg.not_taken hs hcor.taken

end Members
end

/-! ## Two clients -/

namespace Members

inductive Peer where
  | app
  | orb
deriving DecidableEq

def appAndOrb : Members Peer where
  opts
    | .app => .build .app "app" "ns" (.token "t")
    | .orb => .build .orb "orb" "ns" (.token "t")
  token _ := ""
  distinct := by
    intro i j h
    cases i <;> cases j <;> first | rfl | exact absurd h (by decide)

/-- A client connects, and its `ConnectRequest` is taken by the transport. -/
def connected (i : Peer) : List (NetAction Peer) :=
  [.own i (.validate none), .own i (.dial .ok), .own i (.relayConnect none),
    .own i (.response (.message (some (.connectResponse "" true "")) ⟨"", 0⟩)),
    .own i (.tonic (.poll 0)), .own i (.tonic (.handOver 0)), .own i (.tonic (.yield_ 0))]

/-- The first call of a client enqueues its messages, the actor handles them, and the
frame goes out. -/
def called (i : Peer) : List (NetAction Peer) :=
  [.own i (.client (.poll 0)), .own i (.client (.poll 0)), .own i .take, .own i .take,
    .own i (.tonic (.poll 0)), .own i (.tonic (.handOver 0)), .own i (.tonic (.yield_ 0))]

def appAsks : List (NetAction Peer) :=
  connected .app ++ connected .orb ++
    .own .app (.client (.ask ⟨.orb, [1], "orb", "ns", .atLeastOnce⟩)) :: called .app

/-- The orb replies to the ask of the app. -/
def orbReplies : List (NetAction Peer) :=
  [.deliver .orb .app 0 1, .own .orb (.client .recv),
    .own .orb (.client (.reply 0 [2] .atLeastOnce))] ++ called .orb ++
    [.deliver .app .orb 0 1, .own .app (.client (.poll 0))]

/-- The orb has not seen the ask and sends a message of its own, also its first. -/
def orbSends : List (NetAction Peer) :=
  .own .orb (.client (.send ⟨.app, [3], "app", "ns", .atLeastOnce⟩)) :: called .orb ++
    [.deliver .app .orb 0 1, .own .app (.client (.poll 0))]

/-- What the calls of the app were answered with. -/
def appAnswers (n : Peer → System) : List (OpId × Bytes × Tag) :=
  (n .app).exchange.answered.map fun x => (x.1, x.2.payload, x.2.tag)

theorem orbReplies_correlates :
    ∃ tr t, Run appAndOrb.step appAndOrb.initial tr t ∧
      appAnswers t = [(0, [2], ⟨"orb", 0⟩)] ∧
      ((∀ u ∈ visited tr t, appAndOrb.Correlates u) ↔
        ∀ x ∈ tr, ¬ appAndOrb.Crosses x.1 x.2) := by
  have he : (exec appAndOrb.step appAndOrb.initial (appAsks ++ orbReplies)).map appAnswers =
      some [(0, [2], ⟨"orb", 0⟩)] := by decide
  obtain ⟨tr, t, h, hp⟩ := Run.of_exec_map he
  exact ⟨tr, t, h, hp, correlates_iff h⟩

/-- The ask returns what the orb has sent on its own. -/
theorem orbSends_not_correlated :
    ∃ tr t, Run appAndOrb.step appAndOrb.initial tr t ∧
      appAnswers t = [(0, [3], ⟨"orb", 0⟩)] ∧
      ¬ ∀ u ∈ visited tr t, appAndOrb.Correlates u := by
  have he : ((exec appAndOrb.step appAndOrb.initial (appAsks ++ orbSends)).map fun n =>
      (appAnswers n, (n .orb).exchange.calls)) = some ([(0, [3], ⟨"orb", 0⟩)],
        [.send ⟨.app, [3], "app", "ns", .atLeastOnce⟩ 0]) := by decide
  obtain ⟨tr, t, h, hp⟩ := Run.of_exec_map he
  obtain ⟨hans, hcalls⟩ := Prod.mk.inj hp
  refine ⟨tr, t, h, hans, fun hall => ?_⟩
  obtain ⟨x, hx, heq⟩ : ∃ x ∈ (t .app).exchange.answered,
      (x.1, x.2.payload, x.2.tag) = (0, [3], ⟨"orb", 0⟩) := by
    have hmem : (0, [3], (⟨"orb", 0⟩ : Tag)) ∈ appAnswers t := by simp [hans]
    exact List.mem_map.mp hmem
  obtain ⟨msg, seq, j, on, qos, -, hj, htag, hreply, -⟩ :=
    (hall t (by simp [visited])).taken .app x hx
  simp only [Prod.mk.injEq] at heq
  rw [heq.2.2] at htag hreply
  obtain rfl : j = .orb := by
    cases j with
    | app => exact absurd (hj.trans htag.symm) (by decide)
    | orb => rfl
  simp [hcalls] at hreply

end Members
end OrbRelay.Client
