import OrbRelay.Client.Attempts
import OrbRelay.Client.Resends

/-!
# Asks whose caller is gone

A caller that drops an `ask` takes the receiver of its reply along. `handle_payload` finds
that out when it hands over a reply. The handler of `RetryAsk` does not look at the sender
of the entry that it finds, so it goes on as if the caller were still there, and with no
retries left it leaves the entry to no one.
-/
namespace OrbRelay.Client
open Transition

/-- The messages that set or remove the entry under a key of `pending_replies`. -/
def Msg.concerns (id : ClientId) (k : Seq) : Msg → Bool
  | .waitForReply msg _ seq => msg.targetId = id && seq = k
  | m => m.payload?.any fun x => x.from_.id = id && x.seq = k

/-- The entry that a message sets. -/
def Msg.asker? : Msg → Option (SendMessage × OpId)
  | .waitForReply msg o _ => some (msg, o)
  | _ => none

theorem Msg.payload?_concerns {m : Msg} {x : RecvdRelayPayload} (hm : m.payload? = some x)
    (id : ClientId) (k : Seq) :
    m.concerns id k = (x.from_.id = id && x.seq = k) ∧ m.asker? = none := by
  cases m with
  | relayResponse msg tag => exact ⟨by simp [concerns, hm], rfl⟩
  | _ => cases hm

namespace Exchange

variable {opts : ClientOpts} {e e' : Exchange} {l : Option Msg} {o : OpId} {msg : SendMessage}
  {k : Seq}

/-- An at-least-once ask that its caller has dropped. -/
structure Abandoned (e : Exchange) (o : OpId) (msg : SendMessage) (k : Seq) : Prop where
  dropped : e.ops[o]? = some ⟨.ask msg k, .dropped⟩
  qos : msg.qos = .atLeastOnce

/-- `pending_replies` holds the entry of an ask. -/
def Pends (e : Exchange) (o : OpId) (msg : SendMessage) (k : Seq) : Prop :=
  ∃ original, e.state.pendingReplies (msg.targetId, k) = some (original, o)

/-- A `RetryAsk` for the key of an ask sleeps or is queued. -/
def RetryDue (e : Exchange) (msg : SendMessage) (k : Seq) : Prop :=
  ∃ left, .retryAsk msg.targetId k left ∈ e.tokens

/-- Whatever was pushed for a call after `e`, its own `Send` has pushed. -/
def Silent (e e' : Exchange) (o : OpId) : Prop := e'.pushes o + e.sends o = e.pushes o + e'.sends o

/-! ## What has been handled under a key -/

/-- The last message handled under a key that set or removed its entry. -/
def lastWord (e : Exchange) (id : ClientId) (k : Seq) : Option Msg :=
  (e.handled.filter (Msg.concerns id k)).getLast?

/-- An ask is unanswered: since its registration was handled, no payload came from its
target under its number, and no other ask was registered under its key. -/
def Unanswered (e : Exchange) (o : OpId) (msg : SendMessage) (k : Seq) : Prop :=
  e.lastWord msg.targetId k = some (.waitForReply msg o k)

/-- The entries are what the last words say. -/
def Recorded (e : Exchange) : Prop :=
  ∀ id k, e.state.pendingReplies (id, k) = (e.lastWord id k).bind Msg.asker?

theorem Moves.lastWord (h : e.Moves opts l e') (id : ClientId) (k : Seq) :
    e'.lastWord id k =
      if l.any (Msg.concerns id k) then l else e.lastWord id k := by
  unfold Exchange.lastWord
  rw [h.handled, List.filter_append]
  cases l with
  | none => simp
  | some m => cases hm : m.concerns id k <;> simp [hm]

theorem Recorded.moves (h : e.Recorded) (hm : e.Moves opts l e') : e'.Recorded := by
  intro id k
  rw [hm.lastWord]
  -- a payload leaves no entry under its key, whether there was one or not
  have hpayload {m : Msg} {x : RecvdRelayPayload} (hx : m.payload? = some x)
      (hp : e'.state.pendingReplies =
        (e.state.removeReply (x.from_.id, x.seq)).pendingReplies) :
      e'.state.pendingReplies (id, k) =
        (if m.concerns id k then some m else e.lastWord id k).bind Msg.asker? := by
    obtain ⟨hc, hnone⟩ := Msg.payload?_concerns hx id k
    rw [hp, hc]
    by_cases hkey : (id, k) = (x.from_.id, x.seq)
    · cases hkey
      simp [State.removeReply, hnone]
    · have hne : ¬ (x.from_.id = id ∧ x.seq = k) := by
        rintro ⟨hid, hk⟩
        exact hkey (by rw [hid, hk])
      simpa [State.removeReply, hkey, hne] using h id k
  have hremoved {x : RecvdRelayPayload}
      (hk : e.state.pendingReplies (x.from_.id, x.seq) = none) :
      (e.state.removeReply (x.from_.id, x.seq)).pendingReplies = e.state.pendingReplies :=
    Function.update_eq_self_iff.mpr hk.symm
  cases hm.asks with
  | register msg o seq hp ha hd =>
    rw [hp]
    by_cases hkey : (id, k) = (msg.targetId, seq)
    · cases hkey
      simp [State.insertReply, Msg.concerns, Msg.asker?]
    · have hne : ¬ (msg.targetId = id ∧ seq = k) := by
        rintro ⟨hid, hk⟩
        exact hkey (by rw [hid, hk])
      simpa [State.insertReply, hkey, Msg.concerns, hne] using h id k
  | answer x msg o hx hk hp ha hd => exact hpayload hx hp
  | deliver x hx hk hp ha hd => exact hpayload hx (hp.trans (hremoved hk).symm)
  | fail x hx hk hc hp ha hd => exact hpayload hx (hp.trans (hremoved hk).symm)
  | keep hl hx hp ha hd =>
    have hnone : l.any (Msg.concerns id k) = false := by
      rcases l with _ | m
      · rfl
      · cases m with
        | waitForReply msg o seq => exact absurd rfl (hl msg o seq)
        | relayResponse r tag =>
          have hr : (Msg.relayResponse r tag).payload? = none := hx
          simp [Msg.concerns, hr]
        | _ => rfl
    rw [hp, hnone, h id k]
    rfl

/-- The entry of an ask is there exactly as long as it is unanswered. -/
theorem Recorded.pends_iff (h : e.Recorded) (hb : e.Booked) (ha : e.Accounted opts)
    (hc : e.calls[o]? = some (.ask msg k)) : e.Pends o msg k ↔ e.Unanswered o msg k := by
  have hword := h msg.targetId k
  constructor
  · rintro ⟨original, hk⟩
    obtain ⟨-, op, ho, hcall⟩ := hb.call_of_ask ha hk
    cases hcall.symm.trans (Option.some.inj ((calls_get ho).symm.trans hc))
    obtain ⟨m, hm, hasker⟩ := Option.bind_eq_some_iff.mp (hword.symm.trans hk)
    have hconcerns := (List.mem_filter.mp (List.mem_of_getLast? hm)).2
    cases m with
    | waitForReply msg' o' seq =>
      cases hasker
      obtain ⟨-, rfl⟩ : msg.targetId = msg.targetId ∧ seq = k := by
        simpa [Msg.concerns] using hconcerns
      exact hm
    | _ => cases hasker
  · intro hu
    exact ⟨msg, hword.trans (by rw [hu]; rfl)⟩

/-! ## What a step does for an ask -/

/-- The handler of `RetryAsk` removes no entry. -/
theorem Moves.replies_kept {id : ClientId} {left : Amount}
    (h : e.Moves opts (some (.retryAsk id k left)) e') :
    e'.state.pendingReplies = e.state.pendingReplies := by
  cases h.asks with
  | answer x msg o hm hk hp ha hd => cases hm
  | deliver x hm hk hp ha hd => cases hm
  | fail x hm hk hc hp ha hd => cases hm
  | keep hl hx hp ha hd => exact hp

/-- The frame of an ask is pushed again only by a `RetryAsk` that finds its entry. -/
theorem Moves.silent (h : e.Moves opts l e') (ha : e.Accounted opts) (hb : e.Booked)
    (hc : e.calls[o]? = some (.ask msg k))
    (hg : ∀ left, l = some (.retryAsk msg.targetId k left) → ¬ e.Pends o msg k) :
    e.Silent e' o := by
  rcases h.balanced o with heq | ⟨m, key, left, msg', rfl, hr, -, hk, -⟩
  · exact heq
  · -- an ask has no entry in the other map
    obtain ⟨op, -, ho, -⟩ := hb.owner ha hk
    have hkey := (hb.key_of_entry ha hk ho).1
    rw [Option.some.inj ((calls_get ho).symm.trans hc)] at hkey
    subst hkey
    obtain rfl := Msg.retryAsk_of_retry? hr
    exact absurd ⟨msg', hk⟩ (hg left rfl)

theorem retryDue_iff : e.RetryDue msg k ↔
    0 < e.tokensFor (.ask msg.targetId k) fun _ => true := by
  rw [tokensFor_pos_iff]
  constructor
  · rintro ⟨left, hm⟩
    exact ⟨_, hm, left, rfl⟩
  · rintro ⟨m, hm, left, hr⟩
    obtain rfl := Msg.retryAsk_of_retry? hr
    exact ⟨left, hm⟩

/-- A `RetryAsk` that finds no entry of the ask may be the last for its key. -/
theorem Moves.retryDue (h : e.Moves opts l e') (ha' : e'.Accounted opts) (hb' : e'.Booked)
    (hc : e.calls[o]? = some (.ask msg k)) (hq : msg.qos = .atLeastOnce)
    (hdue : e.Pends o msg k → e.RetryDue msg k)
    (hg : ∀ left, l = some (.retryAsk msg.targetId k left) → ¬ e.Pends o msg k) :
    e'.Pends o msg k → e'.RetryDue msg k := by
  rintro ⟨original, hk⟩
  obtain ⟨-, op, ho, hcall⟩ := hb'.call_of_ask ha' hk
  cases hcall.symm.trans
    (Option.some.inj ((calls_get ho).symm.trans (calls_get_kept h.calls_kept hc)))
  rw [retryDue_iff]
  refine h.token_kept rfl rfl hk hq (fun hold => retryDue_iff.mp (hdue ⟨msg, hold⟩))
    fun m hl hr _ hold => ?_
  obtain rfl := Msg.retryAsk_of_retry? hr
  exact absurd ⟨msg, hold⟩ (hg _ hl)

end Exchange

namespace System

variable {opts : ClientOpts} {token : String} {s t : System} {tr : List (System × Action)}
  {o : OpId} {msg : SendMessage} {k : Seq}

/-- Along a run from `s` no retry pushes the frame of an ask, each `RetryAsk` for its key
leaves no entry of it behind, and as long as there is one, another `RetryAsk` is due. -/
structure QuitsRetrying (opts : ClientOpts) (s : System) (tr : List (System × Action))
    (t : System) (o : OpId) (msg : SendMessage) (k : Seq) : Prop where
  silent : ∀ u ∈ visited tr t, s.exchange.Silent u.exchange o
  removed : ∀ x ∈ tr, ∀ v left, x.1.step opts x.2 = some v →
    x.1.handles x.2 = some (.retryAsk msg.targetId k left) → ¬ v.exchange.Pends o msg k
  due : ∀ u ∈ visited tr t, u.exchange.Pends o msg k → u.exchange.RetryDue msg k

/-- The step handles a `RetryAsk` for the key of an unanswered ask. -/
def RetriesUnanswered (s : System) (a : Action) (o : OpId) (msg : SendMessage) (k : Seq) : Prop :=
  (∃ left, s.handles a = some (.retryAsk msg.targetId k left)) ∧ s.exchange.Unanswered o msg k

theorem ask_kept (h : Reachable (step opts) s t)
    (hc : s.exchange.calls[o]? = some (.ask msg k)) :
    t.exchange.calls[o]? = some (.ask msg k) :=
  h.invariant (P := fun u => u.exchange.calls[o]? = some (.ask msg k)) hc
    fun _ _ _ _ hp hs => Exchange.calls_get_kept (moves_of_step hs).calls_kept hp

theorem recorded_of_reachable (h : Reachable (step opts) (initial token) s) :
    s.exchange.Recorded :=
  h.invariant (P := fun s => s.exchange.Recorded) (fun _ _ => rfl)
    fun _ _ _ _ hp hs => hp.moves (moves_of_step hs)

theorem pends_iff (hr : Reachable (step opts) (initial token) s)
    (hc : s.exchange.calls[o]? = some (.ask msg k)) :
    s.exchange.Pends o msg k ↔ s.exchange.Unanswered o msg k :=
  (recorded_of_reachable hr).pends_iff (booked_of_reachable hr) (accounted_of_reachable hr) hc

/-- What the steps keep that handle no `RetryAsk` for the key of the unanswered ask. -/
theorem quitting_of_visited (hr : Reachable (step opts) (initial token) s)
    (hc : s.exchange.calls[o]? = some (.ask msg k)) (hq : msg.qos = .atLeastOnce)
    (hdue : s.exchange.Pends o msg k → s.exchange.RetryDue msg k) (h : Run (step opts) s tr t)
    (hg : ∀ x ∈ tr, ¬ x.1.RetriesUnanswered x.2 o msg k) {u : System} (hu : u ∈ visited tr t) :
    s.exchange.Silent u.exchange o ∧
      (u.exchange.Pends o msg k → u.exchange.RetryDue msg k) := by
  have h0 : s.exchange.Silent s.exchange o := rfl
  refine (h.guarded_visited (P := fun u => u.exchange.calls[o]? = some (.ask msg k) ∧
    s.exchange.Silent u.exchange o ∧ (u.exchange.Pends o msg k → u.exchange.RetryDue msg k))
    (G := fun s a => ¬ s.RetriesUnanswered a o msg k) hg ⟨hc, h0, hdue⟩
    (fun v w a hv hp hga hs => ?_) hu).2
  obtain ⟨hcv, hsofar, hdue⟩ := hp
  have hm := moves_of_step hs
  have hrv := hr.trans hv
  have hrw := hrv.snoc hs
  have hmissed : ∀ left, v.handles a = some (.retryAsk msg.targetId k left) →
      ¬ v.exchange.Pends o msg k :=
    fun left hl hpend => hga ⟨⟨left, hl⟩, (pends_iff hrv hcv).mp hpend⟩
  have hstep : v.exchange.Silent w.exchange o :=
    hm.silent (accounted_of_reachable hrv) (booked_of_reachable hrv) hcv hmissed
  refine ⟨Exchange.calls_get_kept hm.calls_kept hcv, ?_,
    hm.retryDue (accounted_of_reachable hrw) (booked_of_reachable hrw) hcv hq hdue hmissed⟩
  unfold Exchange.Silent at hstep hsofar ⊢
  omega

/-- In any run from the drop of an ask on, with any limit, the ask is retried no more, its
entry removed by the next `RetryAsk`, and not left without one, exactly if a `RetryAsk` is
due at the drop when the ask is unanswered, and none is handled until it is answered. -/
theorem quitsRetrying_iff (hr : Reachable (step opts) (initial token) s)
    (ha : s.exchange.Abandoned o msg k) (h : Run (step opts) s tr t) :
    QuitsRetrying opts s tr t o msg k ↔
      (s.exchange.Unanswered o msg k → s.exchange.RetryDue msg k) ∧
        ∀ x ∈ tr, ¬ x.1.RetriesUnanswered x.2 o msg k := by
  have hc := Exchange.calls_get ha.dropped
  -- an entry that a `RetryAsk` finds is there after it
  have hkept {x : System × Action} (hx : x ∈ tr) {v : System} (hv : x.1.step opts x.2 = some v)
      {left : Amount} (hl : x.1.handles x.2 = some (.retryAsk msg.targetId k left)) :
      v.exchange.Pends o msg k ↔ x.1.exchange.Unanswered o msg k := by
    obtain ⟨⟨tr', hrun⟩, -⟩ := h.step_of_mem hx
    have hm := moves_of_step hv
    rw [hl] at hm
    rw [← pends_iff (hr.trans ⟨tr', hrun⟩) (ask_kept ⟨tr', hrun⟩ hc), Exchange.Pends,
      hm.replies_kept, Exchange.Pends]
  constructor
  · rintro ⟨-, hremoved, hdue⟩
    refine ⟨fun hu => hdue s h.first_visited ((pends_iff hr hc).mpr hu), ?_⟩
    rintro x hx ⟨⟨left, hl⟩, hu⟩
    obtain ⟨-, v, -, hv⟩ := h.step_of_mem hx
    exact hremoved x hx v left hv hl ((hkept hx hv hl).mpr hu)
  · rintro ⟨hdue, hg⟩
    have hquit := fun u => quitting_of_visited (u := u) hr hc ha.qos
      (fun hp => hdue ((pends_iff hr hc).mp hp)) h hg
    exact ⟨fun u hu => (hquit u hu).1,
      fun x hx v left hv hl hp => hg x hx ⟨⟨left, hl⟩, (hkept hx hv hl).mp hp⟩,
      fun u hu => (hquit u hu).2⟩

/-- Connected, an at-least-once ask is pushed and registered, and its caller gives up. -/
def askDropped : List Action :=
  [.validate none] ++ establish ++
    [.client (.ask ⟨.orb, [1], "orb", "ns", .atLeastOnce⟩), .client (.poll 0), .client (.poll 0),
      .take, .take, .client (.drop 0)]

theorem askDropped_abandoned :
    ∃ s, Reachable (step (limited .infinite)) (initial "") s ∧
      exec (step (limited .infinite)) (initial "") askDropped = some s ∧
      s.exchange.Abandoned 0 ⟨.orb, [1], "orb", "ns", .atLeastOnce⟩ 0 := by
  have he : ((exec (step (limited .infinite)) (initial "") askDropped).map fun s =>
      s.exchange.ops) =
        some [⟨.ask ⟨.orb, [1], "orb", "ns", .atLeastOnce⟩ 0, .dropped⟩] := by rfl
  obtain ⟨s, hs, hops⟩ := Option.map_eq_some_iff.mp he
  exact ⟨s, Reachable.refl.exec hs, hs, by rw [hops]; rfl, rfl⟩

/-- The reply to the ask comes before its timer goes off. -/
theorem repliedThenRetry_quits :
    ∃ s tr t, s.exchange.Abandoned 0 ⟨.orb, [1], "orb", "ns", .atLeastOnce⟩ 0 ∧
      Run (step (limited .infinite)) s tr t ∧
      (t.exchange.pushes 0, t.exchange.handled.length) = (1, 4) ∧
      QuitsRetrying (limited .infinite) s tr t 0 ⟨.orb, [1], "orb", "ns", .atLeastOnce⟩ 0 := by
  obtain ⟨s, hr, hs, ha⟩ := askDropped_abandoned
  have hdue : ((exec (step (limited .infinite)) (initial "") askDropped).map fun s =>
      s.exchange.tokens) = some [.heartbeat, .retryAsk "orb" 0 .infinite] := by decide
  have he : ((exec (step (limited .infinite)) (initial "")
      (askDropped ++ [fromOrb 0, .fire 1, .take])).map fun s =>
        (s.exchange.pushes 0, s.exchange.handled.length)) = some (1, 4) := by decide
  have hg : ((exec (step (limited .infinite)) (initial "") askDropped).map fun s =>
      (trace (step (limited .infinite)) s [fromOrb 0, .fire 1, .take]).all fun x =>
        ((x.1.handles x.2).bind Msg.retry?).isNone ||
          ((x.1.exchange.lastWord "orb" 0).bind Msg.asker?).isNone) = some true := by decide
  rw [hs, Option.map_some, Option.some.injEq] at hdue hg
  rw [exec_append, hs, Option.bind_some] at he
  obtain ⟨t, ht, hp⟩ := Option.map_eq_some_iff.mp he
  have hrun := Run.of_exec_trace ht
  refine ⟨s, _, t, ha, hrun, hp, (quitsRetrying_iff hr ha hrun).mpr ⟨fun _ => ?_, ?_⟩⟩
  · exact ⟨.infinite, by simp [hdue]⟩
  · rintro x hx ⟨⟨left, hl⟩, hu⟩
    have hx := List.all_eq_true.mp hg x hx
    have hword : x.1.exchange.lastWord "orb" 0 = _ := hu
    simp [hl, hword, Msg.retry?, Msg.asker?] at hx

/-- No reply comes, and the timer resends the ask that nobody waits for. -/
theorem retryAfterDrop_resent :
    ∃ s tr t, Reachable (step (limited .infinite)) (initial "") s ∧
      s.exchange.Abandoned 0 ⟨.orb, [1], "orb", "ns", .atLeastOnce⟩ 0 ∧
      Run (step (limited .infinite)) s tr t ∧
      ¬ QuitsRetrying (limited .infinite) s tr t 0 ⟨.orb, [1], "orb", "ns", .atLeastOnce⟩ 0 := by
  obtain ⟨s, hr, hs, ha⟩ := askDropped_abandoned
  have hbefore : ((exec (step (limited .infinite)) (initial "") askDropped).map fun s =>
      (s.exchange.pushes 0, s.exchange.sends 0)) = some (1, 1) := by decide
  have hafter : ((exec (step (limited .infinite)) (initial "")
      (askDropped ++ [.fire 1, .take])).map fun s =>
        (s.exchange.pushes 0, s.exchange.sends 0)) = some (2, 1) := by decide
  rw [hs, Option.map_some, Option.some.injEq, Prod.mk.injEq] at hbefore
  rw [exec_append, hs, Option.bind_some] at hafter
  obtain ⟨tr, t, h, hp⟩ := Run.of_exec_map hafter
  obtain ⟨hpushes, hsends⟩ := Prod.mk.inj hp
  refine ⟨s, tr, t, hr, ha, h, fun hq => ?_⟩
  have hsilent := hq.silent t (by simp [visited])
  rw [Exchange.Silent, hpushes, hsends, hbefore.1, hbefore.2] at hsilent
  omega

end System
end OrbRelay.Client
