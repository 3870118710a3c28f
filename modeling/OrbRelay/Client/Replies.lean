import OrbRelay.Client.Inbound
import OrbRelay.Client.Network

/-!
# Replies to an ask

Whoever gets a retried ask twice may reply twice. The first reply takes the ask out of
`pending_replies`, and `handle_payload` does not tell the second one from a message
that the peer sends on its own. The same holds for a reply that comes before the ask
is registered.
-/
namespace OrbRelay.Client
open Encoding Transition

theorem Msg.payload?_eq_some {m : Msg} {x : RecvdRelayPayload} (h : m.payload? = some x) :
    ∃ dst url, m =
      .relayResponse (.payload ⟨some x.from_, dst, x.seq, some ⟨url, x.payload⟩⟩) x.tag := by
  match m with
  | .relayResponse (.payload ⟨some entity, dst, seq, some any⟩) tag =>
    cases h
    exact ⟨dst, any.typeUrl, rfl⟩
  | .relayResponse (.payload ⟨none, _, _, _⟩) _ => cases h
  | .relayResponse (.payload ⟨some _, _, _, none⟩) _ => cases h

namespace Exchange

variable {opts : ClientOpts} {e e' : Exchange} {l : Option Msg}

/-- The reply channels and `client_rx` only ever get payloads that were handed over. -/
structure Drawn (e : Exchange) : Prop where
  answered : ∀ x ∈ e.answered, x.2 ∈ e.handed
  delivered : ∀ x ∈ e.delivered, x ∈ e.handed

theorem Drawn.moves (h : e.Drawn) (hm : e.Moves opts l e') : e'.Drawn := by
  have hh := hm.handed
  have hkept : ∀ x ∈ e.handed, x ∈ e'.handed := fun x hx => hh ▸ List.mem_append_left _ hx
  have hnew : ∀ m x, l = some m → m.payload? = some x → x ∈ e'.handed := by
    rintro m x rfl hx
    rw [hh, Option.bind_some, hx]
    exact List.mem_append_right _ (List.mem_singleton.mpr rfl)
  refine ⟨fun x hx => ?_, fun x hx => ?_⟩
  · rcases hm.mem_answered hx with hx | ⟨m, msg, hl, hp, -⟩
    · exact hkept _ (h.answered x hx)
    · exact hnew m x.2 hl hp
  · rcases hm.mem_delivered hx with hx | ⟨m, hl, hp, -⟩
    · exact hkept _ (h.delivered x hx)
    · exact hnew m x hl hp

end Exchange

namespace System

variable {opts : ClientOpts} {token : String} {s s' : System} {a : Action}

theorem drawn_of_reachable (h : Reachable (step opts) (initial token) s) : s.exchange.Drawn :=
  h.invariant (P := fun s => s.exchange.Drawn)
    (by constructor <;> simp [initial, Exchange.initial, Exchange.delivered])
    fun _ _ _ _ hp hs => hp.moves (moves_of_step hs)

/-- A step that handles a message is a call of `handle_msg`, with the message taken out
of the queue if it was there. -/
theorem step_of_handles {m : Msg} (h : s.step opts a = some s') (hm : s.handles a = some m) :
    ∃ queue, s' = ({ s with exchange := { s.exchange with actorRx := queue } }).handle opts m := by
  match a with
  | .take =>
    simp only [step] at h
    split at h
    · next msg rest hp hq =>
      cases h
      obtain rfl : msg = m := by simpa [handles, hq] using hm
      exact ⟨rest, rfl⟩
    · cases h
  | .response (.message (some msg) tag) =>
    simp only [handles] at hm
    split_ifs at hm with hp
    cases hm
    have hp' := Phase.isConnected_iff.mp hp
    simp only [step, response, hp'] at h
    split_ifs at h
    cases h
    exact ⟨s.exchange.actorRx, rfl⟩

/-- Once no client is left, nothing is delivered any more. -/
theorem delivered_of_released (hs : s.step opts a = some s')
    (hc : s.exchange.clientsAlive = false) : s'.exchange.delivered = s.exchange.delivered := by
  have hm := moves_of_step hs
  generalize hl : s.handles a = l at hm
  cases hm.asks with
  | @deliver m x hx hk hp ha hd =>
    obtain ⟨queue, rfl⟩ := step_of_handles hs hl
    obtain ⟨dst, url, rfl⟩ := Msg.payload?_eq_some hx
    simp [handle, handleMsg, handlePayload, Exchange.note, hk, hc, Exchange.delivered]
  | register msg o k hp ha hd => exact hd
  | answer x msg o hx hk hp ha hd => exact hd
  | fail x hx hk hcl hp ha hd => exact hd
  | keep hl hx hp ha hd => exact hd

end System

namespace Members

variable {ι : Type*} [DecidableEq ι] {M : Members ι} {n n' t : ι → System} {a : NetAction ι}
  {i : ι} {o : OpId} {tag : Tag} {tr : List ((ι → System) × NetAction ι)}

/-- A payload that a client made by replying to a frame of ask `o` of client `i`. -/
def RepliesTo (M : Members ι) (n : ι → System) (i : ι) (o : OpId) (tag : Tag) : Prop :=
  ∃ j on payload qos msg seq, tag.client = (M.opts j).clientId ∧
    (n j).exchange.calls[tag.op]? = some (.reply on payload qos) ∧
    on.tag = ⟨(M.opts i).clientId, o⟩ ∧ (n i).exchange.calls[o]? = some (.ask msg seq)

/-- Replies to an ask go to its waiter or nowhere. -/
structure Confined (M : Members ι) (n : ι → System) : Prop where
  waiter : ∀ i, ∀ x ∈ (n i).exchange.answered, ∀ o, M.RepliesTo n i o x.2.tag → x.1 = o
  recv : ∀ i, ∀ x ∈ (n i).exchange.delivered, ∀ o, ¬ M.RepliesTo n i o x.tag

/-- A step hands a client a reply to one of its asks under whose key another ask is
pending, or none while the client can still receive. -/
def Strays (M : Members ι) (n : ι → System) (a : NetAction ι) : Prop :=
  ∃ i b m x o, M.act n a = some (i, b) ∧ (n i).handles b = some m ∧ m.payload? = some x ∧
    M.RepliesTo n i o x.tag ∧
    (∀ msg, (n i).exchange.state.pendingReplies (x.from_.id, x.seq) ≠ some (msg, o)) ∧
    ((n i).exchange.state.pendingReplies (x.from_.id, x.seq) = none →
      (n i).exchange.clientsAlive = true)

theorem RepliesTo.step (h : M.RepliesTo n i o tag) (hs : M.step n a = some n') :
    M.RepliesTo n' i o tag := by
  obtain ⟨j, on, payload, qos, msg, seq, htag, hreply, hon, hask⟩ := h
  exact ⟨j, on, payload, qos, msg, seq, htag, Exchange.calls_get_kept (calls_kept hs j) hreply,
    hon, Exchange.calls_get_kept (calls_kept hs i) hask⟩

/-- The calls behind a payload were there before it was. -/
theorem RepliesTo.before {p : RelayPayload} (h : M.RepliesTo n' i o tag)
    (hr : Reachable M.step M.initial n) (hs : M.step n a = some n') (hm : M.Made n i p tag) :
    M.RepliesTo n i o tag := by
  obtain ⟨j, on, payload, qos, msg, seq, htag, hreply, hon, hask⟩ := h
  obtain ⟨j', call, htag', hcall, -, -⟩ := hm
  obtain rfl : j = j' := M.distinct (htag.symm.trans htag')
  obtain rfl := Option.some.inj (hreply.symm.trans
    (Exchange.calls_get_kept (calls_kept hs j) hcall))
  obtain ⟨-, i', asked, hclient, hasked, -⟩ := made_of_reply hr hcall
  rw [hon] at hclient hasked
  obtain rfl : i = i' := M.distinct hclient
  obtain rfl := Option.some.inj (hask.symm.trans
    (Exchange.calls_get_kept (calls_kept hs i) hasked))
  exact ⟨j, on, payload, qos, msg, seq, htag, hcall, hon, hasked⟩

theorem made_of_handed (hr : Reachable M.step M.initial n) {x : RecvdRelayPayload}
    (hx : x ∈ (n i).exchange.handed) : ∃ p, M.Made n i p x.tag := by
  obtain ⟨m, hm, hp⟩ := List.mem_filterMap.mp hx
  obtain ⟨dst, url, rfl⟩ := Msg.payload?_eq_some hp
  exact ⟨_, genuine_of_reachable hr i _ _ (List.mem_append_left _ hm)⟩

theorem confined_step (hr : Reachable M.step M.initial n) (h : M.Confined n)
    (hg : ¬ M.Strays n a) (hs : M.step n a = some n') : M.Confined n' := by
  have hdrawn := fun i => System.drawn_of_reachable (client_reachable hr i)
  -- a call of this step is none that an old payload was made for
  have hwaiter : ∀ i, ∀ x ∈ (n i).exchange.answered, ∀ o, M.RepliesTo n' i o x.2.tag →
      x.1 = o := by
    intro i x hx o hto
    obtain ⟨p, hm⟩ := made_of_handed hr ((hdrawn i).answered x hx)
    exact h.waiter i x hx o (hto.before hr hs hm)
  have hrecv : ∀ i, ∀ x ∈ (n i).exchange.delivered, ∀ o, ¬ M.RepliesTo n' i o x.tag := by
    intro i x hx o hto
    obtain ⟨p, hm⟩ := made_of_handed hr ((hdrawn i).delivered x hx)
    exact h.recv i x hx o (hto.before hr hs hm)
  refine ⟨fun i x hx o hto => ?_, fun i x hx o hto => ?_⟩
  · rcases step_at hs i with heq | ⟨b, hact, hb⟩
    · exact hwaiter i x (heq ▸ hx) o hto
    rcases (System.moves_of_step hb).mem_answered hx with hx | ⟨m, msg, hl, hp, hk⟩
    · exact hwaiter i x hx o hto
    · obtain ⟨dst, url, rfl⟩ := Msg.payload?_eq_some hp
      have hback := hto.before hr hs (made_of_handles hr hact hl)
      by_contra hne
      refine hg ⟨i, b, _, x.2, o, hact, hl, hp, hback, fun msg' hk' => ?_, fun hnone => ?_⟩
      · cases hk.symm.trans hk'
        exact hne rfl
      · simp [hk] at hnone
  · rcases step_at hs i with heq | ⟨b, hact, hb⟩
    · exact hrecv i x (heq ▸ hx) o hto
    cases hc : (n i).exchange.clientsAlive with
    | false => exact hrecv i x (System.delivered_of_released hb hc ▸ hx) o hto
    | true =>
      rcases (System.moves_of_step hb).mem_delivered hx with hx | ⟨m, hl, hp, hk⟩
      · exact hrecv i x hx o hto
      · obtain ⟨dst, url, rfl⟩ := Msg.payload?_eq_some hp
        have hback := hto.before hr hs (made_of_handles hr hact hl)
        exact hg ⟨i, b, _, x, o, hact, hl, hp, hback, by simp [hk], fun _ => hc⟩

theorem Strays.not_confined (hg : M.Strays n a) (hs : M.step n a = some n') :
    ¬ M.Confined n' := by
  obtain ⟨i, b, m, x, o, hact, hl, hx, hto, hne, hc⟩ := hg
  have hm := System.moves_of_step (step_acting hs hact)
  rw [hl] at hm
  intro h
  cases hm.asks with
  | answer y msg o' hy hk hp ha hd =>
    obtain rfl := Option.some.inj (hx.symm.trans hy)
    have ho : o' = o := h.waiter i (o', x) (by simp [ha]) o (hto.step hs)
    exact hne msg (ho ▸ hk)
  | deliver y hy hk hp ha hd =>
    obtain rfl := Option.some.inj (hx.symm.trans hy)
    exact h.recv i x (by simp [hd]) o (hto.step hs)
  | fail y hy hk hcl hp ha hd =>
    obtain rfl := Option.some.inj (hx.symm.trans hy)
    simp [hc hk] at hcl
  | register msg o' k hp ha hd => cases hx
  | keep hl' hy hp ha hd => simp [hx] at hy

/-- In a run of any network, replies to asks go to their waiters or nowhere exactly if
each of them that a client handles meets its own ask under its key. -/
theorem confined_iff (h : Run M.step M.initial tr t) :
    (∀ u ∈ visited tr t, M.Confined u) ↔ ∀ x ∈ tr, ¬ M.Strays x.1 x.2 := by
  have h0 : M.Confined M.initial := by
    constructor <;> simp [initial, System.initial, Exchange.initial, Exchange.delivered]
  exact h.exact h0 (fun _ _ _ hr hp hg hs => confined_step hr hp hg hs) (fun _ _ hp => hp)
    fun _ _ _ _ hg hs => hg.not_confined hs

/-! ## A retried ask -/

/-- The app asks a second time. -/
def appRetries : List (NetAction Peer) :=
  [.own .app (.fire 1), .own .app .take, .own .app (.tonic (.poll 0)),
    .own .app (.tonic (.handOver 0)), .own .app (.tonic (.yield_ 0))]

/-- The orb gets both copies and replies to each, and both replies are delivered. -/
def orbRepliesTwice : List (NetAction Peer) :=
  [.deliver .orb .app 0 1, .deliver .orb .app 0 2, .own .orb (.client .recv),
    .own .orb (.client .recv), .own .orb (.client (.reply 0 [2] .atMostOnce)),
    .own .orb (.client (.poll 0)), .own .orb (.client (.reply 1 [2] .atMostOnce)),
    .own .orb (.client (.poll 1)), .own .orb .take, .own .orb .take,
    .own .orb (.tonic (.poll 0)), .own .orb (.tonic (.handOver 0)),
    .own .orb (.tonic (.yield_ 0)), .own .orb (.tonic (.poll 0)),
    .own .orb (.tonic (.handOver 0)), .own .orb (.tonic (.yield_ 0)),
    .deliver .app .orb 0 1, .deliver .app .orb 0 2, .own .app (.client .recv)]

theorem orbReplies_confined :
    ∃ tr t, Run appAndOrb.step appAndOrb.initial tr t ∧
      appAnswers t = [(0, [2], ⟨"orb", 0⟩)] ∧
      ((∀ u ∈ visited tr t, appAndOrb.Confined u) ↔ ∀ x ∈ tr, ¬ appAndOrb.Strays x.1 x.2) := by
  have he : (exec appAndOrb.step appAndOrb.initial (appAsks ++ orbReplies)).map appAnswers =
      some [(0, [2], ⟨"orb", 0⟩)] := by decide
  obtain ⟨tr, t, h, hp⟩ := Run.of_exec_map he
  exact ⟨tr, t, h, hp, confined_iff h⟩

/-- `recv` gives out the second reply. -/
theorem orbRepliesTwice_received :
    ∃ tr t, Run appAndOrb.step appAndOrb.initial tr t ∧
      (t .app).exchange.received =
        [⟨⟨"orb", 2, "ns"⟩, [2], 0, ⟨"orb", 1⟩⟩] ∧
      ¬ ∀ u ∈ visited tr t, appAndOrb.Confined u := by
  have he : ((exec appAndOrb.step appAndOrb.initial
      (appAsks ++ appRetries ++ orbRepliesTwice)).map fun n =>
        ((n .app).exchange.received, (n .app).exchange.calls, (n .orb).exchange.calls)) =
      some ([⟨⟨"orb", 2, "ns"⟩, [2], 0, ⟨"orb", 1⟩⟩],
        [.ask ⟨.orb, [1], "orb", "ns", .atLeastOnce⟩ 0],
        List.replicate 2 (.reply ⟨⟨"app", 1, "ns"⟩, [1], 0, ⟨"app", 0⟩⟩ [2] .atMostOnce)) := by
    decide
  obtain ⟨tr, t, h, hp⟩ := Run.of_exec_map he
  simp only [Prod.mk.injEq] at hp
  obtain ⟨hrec, happ, horb⟩ := hp
  have hto : appAndOrb.RepliesTo t .app 0 ⟨"orb", 1⟩ :=
    ⟨.orb, ⟨⟨"app", 1, "ns"⟩, [1], 0, ⟨"app", 0⟩⟩, [2], .atMostOnce,
      ⟨.orb, [1], "orb", "ns", .atLeastOnce⟩, 0, rfl, by rw [horb]; rfl, rfl, by rw [happ]; rfl⟩
  refine ⟨tr, t, h, hrec, fun hall => ?_⟩
  have hdel : ⟨⟨"orb", 2, "ns"⟩, [2], 0, ⟨"orb", 1⟩⟩ ∈ (t .app).exchange.delivered := by
    simp [Exchange.delivered, hrec]
  exact (hall t (by simp [visited])).recv .app _ hdel 0 hto

end Members
end OrbRelay.Client
