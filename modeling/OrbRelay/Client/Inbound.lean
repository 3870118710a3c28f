import OrbRelay.Client.Answers

/-!
# Inbound payloads

Payloads are read in two places, by `connect` while it waits for its response and by
`main_loop`. They reach `handle_payload` in the order in which they were read, and
each of them goes to one channel. Which one depends on its number and on the id of its
source, and on no other part of that entity.
-/
namespace OrbRelay.Client
open Transition

/-- `l` is put together from `l₁` and `l₂`, each in its own order. -/
inductive Interleaves {α : Type*} : List α → List α → List α → Prop where
  | nil : Interleaves [] [] []
  | left {l₁ l₂ l : List α} (h : Interleaves l₁ l₂ l) (a : α) :
      Interleaves (l₁ ++ [a]) l₂ (l ++ [a])
  | right {l₁ l₂ l : List α} (h : Interleaves l₁ l₂ l) (a : α) :
      Interleaves l₁ (l₂ ++ [a]) (l ++ [a])

/-- What `handle_msg` makes of a payload response. -/
def ResponseMsg.payload? (tag : Tag) : ResponseMsg → Option RecvdRelayPayload
  | .payload ⟨some entity, _, seq, some any⟩ => some ⟨entity, any.value, seq, tag⟩
  | _ => none

def Msg.payload? : Msg → Option RecvdRelayPayload
  | .relayResponse msg tag => msg.payload? tag
  | _ => none

/-- The payload that an action reads from the response stream. -/
def Action.payload? : Action → Option RecvdRelayPayload
  | .response (.message (some msg) tag) => msg.payload? tag
  | _ => none

namespace Exchange

variable {opts : ClientOpts} {e e' : Exchange} {l : Option Msg} {o : OpId}

/-- The payloads handed to `handle_payload`. -/
def handed (e : Exchange) : List RecvdRelayPayload := e.handled.filterMap Msg.payload?

/-- What was sent to `client_rx`: what `recv` has given out, and what is still in it. -/
def delivered (e : Exchange) : List RecvdRelayPayload :=
  (e.received.map fun m => ⟨m.from_, m.payload, m.seq, m.tag⟩) ++ e.clientRx

/-- What a move does to `pending_replies`, to the reply channels and to `client_rx`. -/
inductive AskMoves (e e' : Exchange) : Option Msg → Prop where
  | register (msg : SendMessage) (o : OpId) (k : Seq)
      (hp : e'.state.pendingReplies =
        (e.state.insertReply (msg.targetId, k) (msg, o)).pendingReplies)
      (ha : e'.answered = e.answered) (hd : e'.delivered = e.delivered) :
      AskMoves e e' (some (.waitForReply msg o k))
  | answer {m : Msg} (x : RecvdRelayPayload) (msg : SendMessage) (o : OpId)
      (hm : m.payload? = some x)
      (hk : e.state.pendingReplies (x.from_.id, x.seq) = some (msg, o))
      (hp : e'.state.pendingReplies = (e.state.removeReply (x.from_.id, x.seq)).pendingReplies)
      (ha : e'.answered = e.answered ++ [(o, x)]) (hd : e'.delivered = e.delivered) :
      AskMoves e e' (some m)
  | deliver {m : Msg} (x : RecvdRelayPayload) (hm : m.payload? = some x)
      (hk : e.state.pendingReplies (x.from_.id, x.seq) = none)
      (hp : e'.state.pendingReplies = e.state.pendingReplies)
      (ha : e'.answered = e.answered) (hd : e'.delivered = e.delivered ++ [x]) :
      AskMoves e e' (some m)
  | fail {m : Msg} (x : RecvdRelayPayload) (hm : m.payload? = some x)
      (hk : e.state.pendingReplies (x.from_.id, x.seq) = none) (hc : e.clientsAlive = false)
      (hp : e'.state.pendingReplies = e.state.pendingReplies)
      (ha : e'.answered = e.answered) (hd : e'.delivered = e.delivered) :
      AskMoves e e' (some m)
  | keep {l : Option Msg} (hl : ∀ msg o k, l ≠ some (.waitForReply msg o k))
      (hx : l.bind Msg.payload? = none)
      (hp : e'.state.pendingReplies = e.state.pendingReplies)
      (ha : e'.answered = e.answered) (hd : e'.delivered = e.delivered) : AskMoves e e' l

theorem ResponseMsg.payload?_none {msg : ResponseMsg} {tag : Tag}
    (h : ∀ entity dst seq any, msg ≠ .payload ⟨some entity, dst, seq, some any⟩) :
    msg.payload? tag = none := by
  unfold ResponseMsg.payload?
  split
  · next entity dst seq any => exact absurd rfl (h entity dst seq any)
  · rfl

theorem askMoves_of_handled {m : Msg} (h : Handled opts e m e') : AskMoves e e' (some m) := by
  cases h with
  | answer entity dst seq payload tag msg o hp => exact .answer _ msg o rfl hp rfl rfl rfl
  | deliver entity dst seq payload tag hp =>
    exact .deliver _ rfl hp rfl rfl (List.append_assoc _ _ _).symm
  | waitForReply msg o seq => exact .register msg o seq rfl rfl rfl
  | ignore msg tag hn hp =>
    exact .keep (by simp) (ResponseMsg.payload?_none hp) rfl rfl rfl
  | _ => exact .keep (by simp) rfl rfl rfl rfl

theorem AskMoves.congr {e₁ : Exchange} (h : AskMoves e₁ e' l) (hs : e₁.state = e.state)
    (hc : e₁.clientsAlive = e.clientsAlive) (ha : e₁.answered = e.answered)
    (hd : e₁.delivered = e.delivered) : AskMoves e e' l := by
  cases h with
  | register msg o k hp hans hdel => exact .register msg o k (hs ▸ hp) (ha ▸ hans) (hd ▸ hdel)
  | answer x msg o hm hk hp hans hdel =>
    exact .answer x msg o hm (hs ▸ hk) (hs ▸ hp) (ha ▸ hans) (hd ▸ hdel)
  | deliver x hm hk hp hans hdel =>
    exact .deliver x hm (hs ▸ hk) (hs ▸ hp) (ha ▸ hans) (hd ▸ hdel)
  | fail x hm hk hcl hp hans hdel =>
    exact .fail x hm (hs ▸ hk) (hc ▸ hcl) (hs ▸ hp) (ha ▸ hans) (hd ▸ hdel)
  | keep hl hx hp hans hdel => exact .keep hl hx (hs ▸ hp) (ha ▸ hans) (hd ▸ hdel)

/-- A message on which `handle_msg` fails. -/
theorem askMoves_of_error {m : Msg} {err : Err} (h : handleMsg opts e m = .error err)
    (hs : e'.state = e.state) (ha : e'.answered = e.answered)
    (hd : e'.delivered = e.delivered) : AskMoves e e' (some m) := by
  rcases handleMsg_error h with rfl | rfl | ⟨src, dst, seq, payload, tag, rfl, hk, hc⟩
  · exact .keep (by simp) rfl (hs ▸ rfl) ha hd
  · exact .keep (by simp) rfl (hs ▸ rfl) ha hd
  · exact .fail _ rfl hk hc (hs ▸ rfl) ha hd

theorem Moves.asks (h : e.Moves opts l e') : AskMoves e e' l := by
  cases h with
  | called h =>
    cases h with
    | recv msg rest hm => exact .keep (by simp) rfl rfl rfl (by simp [delivered, hm])
    | _ => exact .keep (by simp) rfl rfl rfl rfl
  | take msg rest hq h => exact (askMoves_of_handled h).congr rfl rfl rfl rfl
  | takeFail msg rest p hq hf hp =>
    obtain ⟨err, he⟩ := hf
    exact AskMoves.congr (askMoves_of_error he rfl rfl rfl) rfl rfl rfl rfl
  | read msg tag hq h => exact (askMoves_of_handled h).congr rfl rfl rfl rfl
  | readFail msg tag p hq hf hp =>
    obtain ⟨err, he⟩ := hf
    exact AskMoves.congr (askMoves_of_error he rfl rfl rfl) rfl rfl rfl rfl
  | _ => exact .keep (by simp) rfl rfl rfl rfl

/-- Where a payload in a reply channel comes from. -/
theorem Moves.mem_answered (h : e.Moves opts l e') {x : OpId × RecvdRelayPayload}
    (hx : x ∈ e'.answered) : x ∈ e.answered ∨ ∃ m msg, l = some m ∧ m.payload? = some x.2 ∧
      e.state.pendingReplies (x.2.from_.id, x.2.seq) = some (msg, x.1) := by
  cases h.asks with
  | @answer m y msg o hy hk hp ha hd =>
    rw [ha] at hx
    rcases List.mem_append.mp hx with hx | hx
    · exact .inl hx
    · obtain rfl := List.mem_singleton.mp hx
      exact .inr ⟨m, msg, rfl, hy, hk⟩
  | register msg o k hp ha hd => exact .inl (ha ▸ hx)
  | deliver y hy hk hp ha hd => exact .inl (ha ▸ hx)
  | fail y hy hk hc hp ha hd => exact .inl (ha ▸ hx)
  | keep hl hy hp ha hd => exact .inl (ha ▸ hx)

/-- Where a delivered payload comes from. -/
theorem Moves.mem_delivered (h : e.Moves opts l e') {x : RecvdRelayPayload}
    (hx : x ∈ e'.delivered) : x ∈ e.delivered ∨ ∃ m, l = some m ∧ m.payload? = some x ∧
      e.state.pendingReplies (x.from_.id, x.seq) = none := by
  cases h.asks with
  | @deliver m y hy hk hp ha hd =>
    rw [hd] at hx
    rcases List.mem_append.mp hx with hx | hx
    · exact .inl hx
    · obtain rfl := List.mem_singleton.mp hx
      exact .inr ⟨m, rfl, hy, hk⟩
  | register msg o k hp ha hd => exact .inl (hd ▸ hx)
  | answer y msg o hy hk hp ha hd => exact .inl (hd ▸ hx)
  | fail y hy hk hc hp ha hd => exact .inl (hd ▸ hx)
  | keep hl hy hp ha hd => exact .inl (hd ▸ hx)

/-! ## One payload for one waiter -/

/-- No waiter was given two payloads, and a pending one none. -/
structure AskedOnce (e : Exchange) : Prop where
  pending : ∀ id k msg o, e.state.pendingReplies (id, k) = some (msg, o) →
    o ∉ e.answered.map Prod.fst
  once : (e.answered.map Prod.fst).Nodup

theorem AskedOnce.moves (h : e.AskedOnce) (ha : e.Accounted opts) (hb : e.Booked)
    (hm : e.Moves opts l e') : e'.AskedOnce := by
  cases hm.asks with
  | register msg o k hp hans hd =>
    refine ⟨fun id k' msg' o' hk => ?_, hans ▸ h.once⟩
    rw [hp] at hk
    rw [hans]
    rcases State.insertReply_eq_some hk with ⟨-, heq⟩ | hk
    · -- the waiter comes out of the queue, so its call has not been answered
      cases heq
      intro ho
      obtain ⟨x, hx, hxo⟩ := List.mem_map.mp ho
      obtain ⟨msg₁, hw, -⟩ := hb.answered x hx
      rw [hxo] at hw
      obtain ⟨op, hop, hwait⟩ := ha.waiter_of_handled hw rfl rfl
      exact ha.nothing_left hop hwait hw _ (hm.queued (by simp)) rfl
    · exact h.pending id k' msg' o' hk
  | answer x msg o hx hk hp hans hd =>
    have hnew : o ∉ e.answered.map Prod.fst := h.pending _ _ _ _ hk
    refine ⟨fun id k' msg' o' hk' => ?_, ?_⟩
    · rw [hp] at hk'
      obtain ⟨hne, hk'⟩ := State.removeReply_eq_some hk'
      rw [hans, List.map_append, List.mem_append, List.map_singleton, List.mem_singleton, not_or]
      refine ⟨h.pending id k' msg' o' hk', fun heq => hne ?_⟩
      obtain ⟨hw, hid⟩ := hb.replies _ _ _ _ hk
      obtain ⟨hw', hid'⟩ := hb.replies _ _ _ _ hk'
      obtain rfl : o' = o := heq
      cases ha.same_waiter hw rfl rfl hw' rfl rfl
      rw [hid, hid']
    · rw [hans, List.map_append, List.map_singleton]
      exact List.nodup_append.mpr ⟨h.once, List.nodup_singleton _, fun a ha b hb => by
        rintro rfl
        have hao : a = o := List.mem_singleton.mp hb
        exact hnew (hao ▸ ha)⟩
  | deliver x hx hk hp hans hd => exact ⟨by rw [hp, hans]; exact h.pending, hans ▸ h.once⟩
  | fail x hx hk hc hp hans hd => exact ⟨by rw [hp, hans]; exact h.pending, hans ▸ h.once⟩
  | keep hl hx hp hans hd => exact ⟨by rw [hp, hans]; exact h.pending, hans ▸ h.once⟩

/-! ## One channel for each payload -/

theorem Moves.alive (h : e.Moves opts l e') (hc : e'.clientsAlive = true) :
    e.clientsAlive = true := by
  cases h with
  | called h =>
    cases h with
    | release => cases hc
    | _ => exact hc
  | take msg rest hq h => cases h <;> exact hc
  | read msg tag hq h => cases h <;> exact hc
  | _ => exact hc

theorem Moves.handed (h : e.Moves opts l e') :
    e'.handed = e.handed ++ (l.bind Msg.payload?).toList := by
  rw [Exchange.handed, h.handled, List.filterMap_append, Exchange.handed]
  cases l with
  | none => rfl
  | some m => cases hm : m.payload? <;> simp [hm]

/-- While there are clients, what was handed over is split between the waiters and
`client_rx`. -/
def Split (e : Exchange) : Prop :=
  e.clientsAlive = true → Interleaves (e.answered.map Prod.snd) e.delivered e.handed

theorem Split.moves (h : e.Split) (hm : e.Moves opts l e') : e'.Split := by
  intro hc'
  have hc := hm.alive hc'
  have hs := h hc
  have hh := hm.handed
  cases hm.asks with
  | register msg o k hp ha hd =>
    rw [hh, ha, hd]
    exact (List.append_nil e.handed).symm ▸ hs
  | answer x msg o hx hk hp ha hd =>
    rw [Option.bind_some, hx] at hh
    rw [hh, ha, hd, List.map_append]
    exact hs.left x
  | deliver x hx hk hp ha hd =>
    rw [Option.bind_some, hx] at hh
    rw [hh, ha, hd]
    exact hs.right x
  | fail x hx hk hcl hp ha hd => simp [hc] at hcl
  | keep hl hx hp ha hd =>
    rw [hx] at hh
    rw [hh, ha, hd]
    exact (List.append_nil e.handed).symm ▸ hs

end Exchange

namespace System

variable {opts : ClientOpts} {token : String} {s t : System} {tr : List (System × Action)}

theorem askedOnce_of_reachable (h : Reachable (step opts) (initial token) s) :
    s.exchange.AskedOnce :=
  h.invariant (P := fun s => s.exchange.AskedOnce)
    ⟨by simp [initial, Exchange.initial, State.default], List.nodup_nil⟩
    fun _ _ _ hr hp hs => hp.moves (accounted_of_reachable hr) (booked_of_reachable hr)
      (moves_of_step hs)

/-- A payload from the orb under number `seq`, as the response stream yields it. -/
def fromOrb (seq : Seq) : Action :=
  .response (.message (some (.payload
    ⟨some ⟨"orb", 2, "ns"⟩, some ⟨"app", 1, "ns"⟩, seq, some ⟨"", [1]⟩⟩)) ⟨"orb", 0⟩)

end System

/-! ## The addressed entity -/

namespace Exchange

variable {opts : ClientOpts} {e : Exchange} {o : OpId}

/-- The frame of a call is addressed to an entity. -/
def AddressedTo (e : Exchange) (o : OpId) (entity : Entity) : Prop :=
  ∃ p, ⟨.payload p, .op o⟩ ∈ e.tonic.pushed ∧ p.dst = some entity

/-- A payload completes an ask only if it comes from the entity that the ask was
addressed to; from any other entity it leaves the maps alone and goes to `client_rx`. -/
def OnlyAddressed (e : Exchange) (x : RecvdRelayPayload) : Prop :=
  ∀ e', handlePayload e x = .ok e' →
    (∀ o, e'.answered = e.answered ++ [(o, x)] → e.AddressedTo o x.from_) ∧
    ∀ msg o, e.state.pendingReplies (x.from_.id, x.seq) = some (msg, o) →
      ¬ e.AddressedTo o x.from_ → e'.state = e.state ∧ e'.delivered = e.delivered ++ [x]

/-- Every frame of a pending ask is the one that a retry would send. -/
theorem Booked.frame_of_ask (hb : e.Booked) (ha : e.Accounted opts) {id : ClientId} {k : Seq}
    {msg : SendMessage} (hp : e.state.pendingReplies (id, k) = some (msg, o)) :
    ⟨.payload (relayPayload opts msg k), .op o⟩ ∈ e.tonic.pushed ∧
      ∀ f ∈ e.tonic.pushed, f.origin = .op o → f = ⟨.payload (relayPayload opts msg k), .op o⟩ := by
  obtain ⟨hw, -⟩ := hb.replies id k msg o hp
  refine ⟨hb.sends _ (ha.retry_handled (.inr hw)), fun f hf ho => ?_⟩
  obtain ⟨op, hop, hwait⟩ := ha.waiter_of_handled hw rfl rfl
  have hsent := hb.pushed f hf o ho
  obtain ⟨op', hop', hfirst | hwait'⟩ :=
    ha.of_trail (List.mem_append_left _ hsent) (Msg.by?_send ho)
  · obtain rfl := Option.some.inj (hop.symm.trans hop')
    rw [Msg.send.inj hfirst, Call.relayPayload_of_waiter (.inr hwait)]
  · exact absurd hwait' (op'.call.waiter_ne_send o f)

theorem Booked.addressedTo_iff (hb : e.Booked) (ha : e.Accounted opts) {x : RecvdRelayPayload}
    {msg : SendMessage}
    (hp : e.state.pendingReplies (x.from_.id, x.seq) = some (msg, o)) :
    e.AddressedTo o x.from_ ↔
      x.from_.entityType = msg.targetType.toI32 ∧ x.from_.namespace_ = msg.targetNamespace := by
  obtain ⟨hmem, hall⟩ := hb.frame_of_ask ha hp
  have hid := (hb.replies _ _ _ _ hp).2
  constructor
  · rintro ⟨p, hf, hdst⟩
    have hframe := hall _ hf rfl
    simp only [Frame.mk.injEq, RelayConnectRequest.payload.injEq, and_true] at hframe
    rw [hframe, relayPayload, Option.some.injEq] at hdst
    rw [← hdst]
    exact ⟨rfl, rfl⟩
  · rintro ⟨htype, hns⟩
    refine ⟨_, hmem, congrArg some ?_⟩
    rw [← htype, ← hns, ← hid]

end Exchange

namespace System

variable {opts : ClientOpts} {token : String} {s : System}

theorem target_of_onlyAddressed (h : Reachable (step opts) (initial token) s)
    {x : RecvdRelayPayload} (honly : s.exchange.OnlyAddressed x) {msg : SendMessage} {o : OpId}
    (hp : s.exchange.state.pendingReplies (x.from_.id, x.seq) = some (msg, o)) :
    x.from_.entityType = msg.targetType.toI32 ∧ x.from_.namespace_ = msg.targetNamespace := by
  have hok := (honly _ (by simp only [handlePayload, hp]; rfl)).1 o rfl
  exact ((booked_of_reachable h).addressedTo_iff (accounted_of_reachable h) hp).mp hok

/-- An ask that is pending under the id and the number of a payload can be completed by
it, so only the addressed entity answers exactly if the payload's source also has the
type and the namespace of that ask's target. -/
theorem onlyAddressed_iff (h : Reachable (step opts) (initial token) s) (x : RecvdRelayPayload) :
    s.exchange.OnlyAddressed x ↔
      ∀ msg o, s.exchange.state.pendingReplies (x.from_.id, x.seq) = some (msg, o) →
        x.from_.entityType = msg.targetType.toI32 ∧
          x.from_.namespace_ = msg.targetNamespace := by
  refine ⟨fun honly msg o hp => target_of_onlyAddressed h honly hp, fun hsame e' he => ?_⟩
  have hto : ∀ msg o, s.exchange.state.pendingReplies (x.from_.id, x.seq) = some (msg, o) →
      s.exchange.AddressedTo o x.from_ := fun msg o hp =>
    ((booked_of_reachable h).addressedTo_iff (accounted_of_reachable h) hp).mpr (hsame msg o hp)
  refine ⟨fun o hans => ?_, fun msg o hp hne => absurd (hto msg o hp) hne⟩
  unfold handlePayload at he
  split at he
  · next msg o' hp =>
    cases he
    obtain rfl : o' = o := by simpa using hans
    exact hto msg o' hp
  · split_ifs at he
    cases he
    simp at hans

/-- A connected client with an ask to an orb that waits for its reply. -/
def askPending : List Action :=
  [.validate none, .dial .ok, .relayConnect none,
    .response (.message (some (.connectResponse "app" true "")) ⟨"", 0⟩),
    .client (.ask ⟨.orb, [1], "orb", "ns", .atMostOnce⟩), .client (.poll 0), .client (.poll 0),
    .take, .take]

theorem askPending_reachable :
    ∃ s, Reachable (step (.build .app "app" "ns" (.token "t"))) (initial "") s ∧
      s.exchange.state.pendingReplies ("orb", 0) =
        some (⟨.orb, [1], "orb", "ns", .atMostOnce⟩, 0) := by
  have he : ((exec (step (.build .app "app" "ns" (.token "t"))) (initial "") askPending).map
      fun s => s.exchange.state.pendingReplies ("orb", 0)) =
        some (some (⟨.orb, [1], "orb", "ns", .atMostOnce⟩, 0)) := by decide
  obtain ⟨tr, s, h, hp⟩ := Run.of_exec_map he
  exact ⟨s, ⟨tr, h⟩, hp⟩

theorem askPending_answered :
    ∃ s, Reachable (step (.build .app "app" "ns" (.token "t"))) (initial "") s ∧
      s.exchange.state.pendingReplies ("orb", 0) =
        some (⟨.orb, [1], "orb", "ns", .atMostOnce⟩, 0) ∧
      (s.exchange.OnlyAddressed ⟨⟨"orb", 2, "ns"⟩, [2], 0, ⟨"orb", 0⟩⟩ ↔
        ∀ msg o, s.exchange.state.pendingReplies ("orb", 0) = some (msg, o) →
          (2 : Int32) = msg.targetType.toI32 ∧ "ns" = msg.targetNamespace) := by
  obtain ⟨s, h, hp⟩ := askPending_reachable
  exact ⟨s, h, hp, onlyAddressed_iff h ⟨⟨"orb", 2, "ns"⟩, [2], 0, ⟨"orb", 0⟩⟩⟩

/-- A service of the same id in another namespace completes the ask. -/
theorem askPending_foreign :
    ∃ s, Reachable (step (.build .app "app" "ns" (.token "t"))) (initial "") s ∧
      ¬ s.exchange.OnlyAddressed ⟨⟨"orb", 3, "other"⟩, [2], 0, ⟨"orb", 0⟩⟩ := by
  obtain ⟨s, h, hp⟩ := askPending_reachable
  refine ⟨s, h, fun honly => ?_⟩
  have hns := (target_of_onlyAddressed h honly hp).2
  exact absurd hns (by decide)

end System
end OrbRelay.Client
