import OrbRelay.Client.Books

/-!
# Pending entries and their retry tokens

An entry of `pending_acks` or `pending_replies` is looked at again only when a timer
for its key sleeps or its message is in the actor's queue. `handle_msg` leaves an
entry behind without one when the last of them has no retries left.
-/
namespace OrbRelay.Client
open Transition

/-- The keys of the two maps. -/
inductive Key where
  | ack (seq : Seq)
  | ask (id : ClientId) (seq : Seq)
deriving DecidableEq, Repr

/-- The key under which a call registers its waiter. -/
def Call.key : Call → Key
  | .ask msg seq => .ask msg.targetId seq
  | call => .ack call.seq

/-- The key that a message registers a waiter under. -/
def Msg.registers? : Msg → Option Key
  | .waitForAck _ _ k => some (.ack k)
  | .waitForReply msg _ k => some (.ask msg.targetId k)
  | _ => none

/-- The key that a retry is for, and how many more are left to it. -/
def Msg.retry? : Msg → Option (Key × Amount)
  | .retryAck k left => some (.ack k, left)
  | .retryAsk id k left => some (.ask id k, left)
  | _ => none

/-- The entry under a key. -/
def State.entry (s : State) : Key → Option (SendMessage × OpId)
  | .ack k => s.pendingAcks k
  | .ask id k => s.pendingReplies (id, k)

theorem Msg.retry?_eq_none {m : Msg} (h : m.timer = false) : m.retry? = none := by
  cases m <;> first | rfl | cases h

theorem Msg.retry?_of_registers {m : Msg} {k : Key} (h : m.registers? = some k) :
    m.retry? = none := by
  cases m <;> first | rfl | cases h

theorem Msg.retryAsk_of_retry? {m : Msg} {id : ClientId} {seq : Seq} {left : Amount}
    (h : m.retry? = some (.ask id seq, left)) : m = .retryAsk id seq left := by
  cases m <;> cases h
  rfl

theorem Call.registers_of_waiter {call : Call} {o : OpId} {m : Msg}
    (h : call.waiter o = some (.ok m)) : m.registers? = some call.key := by
  rcases call.waiter_eq_ok h with ⟨msg, hc, -, rfl⟩ | ⟨msg, hc, rfl⟩ |
    ⟨on, payload, t, hc, -, rfl⟩ <;> rw [hc] <;> rfl

namespace Exchange

variable {opts : ClientOpts} {e e' : Exchange} {l : Option Msg} {m : Msg} {k : Key}

/-! ## Tokens -/

/-- Timers and their messages: what may still look at an entry. -/
def tokens (e : Exchange) : List Msg := e.sleeping ++ e.actorRx

theorem countP_tokens_sleep (p : Msg → Bool) (e : Exchange) (m : Msg) :
    (e.sleep m).tokens.countP p = e.tokens.countP p + if p m then 1 else 0 := by
  simp only [tokens, sleep, List.countP_append, List.countP_singleton]
  omega

theorem countP_tokens_post (p : Msg → Bool) (e : Exchange) (m : Msg) :
    (e.post m).tokens.countP p = e.tokens.countP p + if p m then 1 else 0 := by
  simp only [tokens, post, List.countP_append, List.countP_singleton]
  omega

theorem countP_tokens_take (p : Msg → Bool) {rest : List Msg} (hq : e.actorRx = m :: rest) :
    e.tokens.countP p =
      { e with actorRx := rest }.tokens.countP p + if p m then 1 else 0 := by
  simp only [tokens, hq, List.countP_append, List.countP_cons]
  omega

/-- A timer that goes off only moves its message. -/
theorem countP_tokens_fire (p : Msg → Bool) {i : ℕ} (hm : e.sleeping[i]? = some m) :
    ({ e with sleeping := e.sleeping.eraseIdx i }.post m).tokens.countP p =
      e.tokens.countP p := by
  obtain ⟨hlt, hget⟩ := List.getElem?_eq_some_iff.mp hm
  have hcount := (List.getElem_cons_eraseIdx_perm hlt).countP_eq p
  rw [hget, List.countP_cons] at hcount
  rw [countP_tokens_post]
  simp only [tokens, List.countP_append] at hcount ⊢
  omega

/-- Calls set no timers. -/
theorem Called.countP_tokens {p : Msg → Bool} (hc : Called opts e e')
    (hp : ∀ m, m.timer = false → p m = false) : e'.tokens.countP p = e.tokens.countP p := by
  have hpost : ∀ m : Msg, m.timer = false → (e.post m).tokens.countP p = e.tokens.countP p := by
    intro m hm
    simp [countP_tokens_post, hp m hm]
  cases hc with
  | enqueue o op pc ho hpc hpc' => exact hpost _ rfl
  | register o op msg ho hpc hw => exact hpost msg (op.call.waiter_timer hw)
  | control msg hm => exact hpost msg (by rcases hm with rfl | rfl <;> rfl)
  | _ => rfl

/-- The tokens for a key whose retries left are such as `p` says. -/
def tokensFor (e : Exchange) (k : Key) (p : Amount → Bool) : ℕ :=
  e.tokens.countP fun m => m.retry?.any fun r => r.1 = k && p r.2

theorem tokensFor_pos_iff :
    0 < e.tokensFor k (fun _ => true) ↔ ∃ m ∈ e.tokens, ∃ left, m.retry? = some (k, left) := by
  rw [tokensFor, List.countP_pos_iff]
  refine exists_congr fun m => and_congr_right fun _ => ?_
  rcases m.retry? with _ | ⟨k', left⟩ <;> simp [eq_comm]

theorem tokensFor_sleep (e : Exchange) (m : Msg) (k : Key) (p : Amount → Bool) :
    (e.sleep m).tokensFor k p =
      e.tokensFor k p + if m.retry?.any fun r => r.1 = k && p r.2 then 1 else 0 :=
  countP_tokens_sleep _ e m

theorem retry?_any_eq_false {m : Msg} (hm : ∀ left, m.retry? ≠ some (k, left))
    (p : Amount → Bool) : (m.retry?.any fun r => r.1 = k && p r.2) = false := by
  rcases hr : m.retry? with _ | ⟨k', left⟩
  · rfl
  · have hne : k' ≠ k := fun heq => hm left (heq ▸ hr)
    simp [hne]

theorem tokensFor_sleep_none {m : Msg} (hm : ∀ left, m.retry? ≠ some (k, left))
    (p : Amount → Bool) : (e.sleep m).tokensFor k p = e.tokensFor k p := by
  rw [tokensFor_sleep, retry?_any_eq_false hm p]
  rfl

theorem tokensFor_add (e : Exchange) (k : Key) (p : Amount → Bool) :
    e.tokensFor k p + e.tokensFor k (fun left => !p left) = e.tokensFor k fun _ => true := by
  unfold tokensFor
  induction e.tokens with
  | nil => rfl
  | cons m ms ih =>
    simp only [List.countP_cons]
    rcases m.retry? with _ | ⟨k', left⟩
    · simpa using ih
    · cases hk : decide (k' = k) <;> cases hp : p left <;> simp [hk, hp] at ih ⊢ <;> omega

/-- Each pending entry of an at-least-once call has a token for its key. -/
def TokensHeld (e : Exchange) : Prop :=
  ∀ k msg o, e.state.entry k = some (msg, o) → msg.qos = .atLeastOnce →
    ∃ m ∈ e.tokens, ∃ left, m.retry? = some (k, left)

/-! ## What a step does under one key -/

/-- What a move does to the entry of a key and its tokens, by the message it handles. -/
inductive AtKey (opts : ClientOpts) (e e' : Exchange) (k : Key) : Option Msg → Prop where
  | other {l : Option Msg} (hl : ∀ m left, l = some m → m.retry? ≠ some (k, left))
      (he : e'.state.entry k = e.state.entry k ∨ e'.state.entry k = none)
      (ht : ∀ p, e'.tokensFor k p = e.tokensFor k p) : AtKey opts e e' k l
  | register (m : Msg) (msg : SendMessage) (o : OpId) (first : Amount)
      (hm : m.registers? = some k) (hby : m.by? = some o)
      (he : e'.state.entry k = some (msg, o))
      (hf : msg.qos = .atLeastOnce → first = opts.maxMessageAttempts)
      (ht : ∀ p, e'.tokensFor k p = e.tokensFor k p + if p first then 1 else 0) :
      AtKey opts e e' k (some m)
  | giveUp (m : Msg) (left : Amount) (hm : m.retry? = some (k, left))
      (hn : e.state.entry k = none ∨ left = .val 0)
      (he : e'.state.entry k = e.state.entry k)
      (ht : ∀ p, e.tokensFor k p = e'.tokensFor k p + if p left then 1 else 0) :
      AtKey opts e e' k (some m)
  | retry (m : Msg) (left : Amount) (v : SendMessage × OpId) (hm : m.retry? = some (k, left))
      (hl : left ≠ .val 0) (he : e.state.entry k = some v) (he' : e'.state.entry k = some v)
      (ht : ∀ p, e'.tokensFor k p + (if p left then 1 else 0) =
        e.tokensFor k p + if p opts.maxMessageAttempts.decrement then 1 else 0) :
      AtKey opts e e' k (some m)

section

-- `e₁` is `e` with the handled message `m` taken from its queue
variable {e₁ : Exchange} {k' : Key} {left : Amount} {t : Msg} (hs : e₁.state = e.state)
  (ht : ∀ p, e.tokensFor k p =
    e₁.tokensFor k p + if m.retry?.any fun r => r.1 = k && p r.2 then 1 else 0)
include hs ht

/-- A message that is no retry and sets no timer. -/
theorem AtKey.quiet (hm : m.retry? = none) (hx : e'.tokens = e₁.tokens)
    (hk : e'.state.entry k = e₁.state.entry k ∨ e'.state.entry k = none) :
    AtKey opts e e' k (some m) := by
  refine .other (fun m' left h => by cases h; simp [hm]) (hs ▸ hk) fun p => ?_
  rw [ht p, hm, tokensFor, hx]
  rfl

/-- A message that neither retries under `k` nor leaves a retry of it behind. -/
theorem AtKey.foreign (hm : ∀ left, m.retry? ≠ some (k, left))
    (ht' : ∀ left, t.retry? ≠ some (k, left)) (hx : e'.tokens = (e₁.sleep t).tokens)
    (hk : e'.state.entry k = e₁.state.entry k) : AtKey opts e e' k (some m) := by
  refine .other (fun m' left h => by cases h; exact hm left) (.inl (hs ▸ hk)) fun p => ?_
  rw [ht p, retry?_any_eq_false hm p, tokensFor, hx, ← tokensFor, tokensFor_sleep_none ht']
  rfl

/-- The registration of a call under `k'`. -/
theorem AtKey.of_register (msg : SendMessage) {o : OpId} {first : Amount}
    (hm : m.registers? = some k') (hby : m.by? = some o) (ht' : t.retry? = some (k', first))
    (hf : msg.qos = .atLeastOnce → first = opts.maxMessageAttempts)
    (hx : e'.tokens = (e₁.sleep t).tokens)
    (hk : e'.state.entry k = if k = k' then some (msg, o) else e₁.state.entry k) :
    AtKey opts e e' k (some m) := by
  have hr : m.retry? = none := Msg.retry?_of_registers hm
  by_cases heq : k = k'
  · subst heq
    refine .register m msg o first hm hby (by simpa using hk) hf fun p => ?_
    rw [tokensFor, hx, ← tokensFor, tokensFor_sleep, ht p]
    simp [hr, ht']
  · exact .foreign hs ht (by simp [hr]) (by simp [ht', Ne.symm heq]) hx (by simpa [heq] using hk)

/-- A retry under `k'` that finds no entry or has no retries left. -/
theorem AtKey.of_giveUp (hm : m.retry? = some (k', left))
    (hn : e₁.state.entry k' = none ∨ left = .val 0) : AtKey opts e e₁ k (some m) := by
  by_cases heq : k = k'
  · subst heq
    refine .giveUp m left hm (by rwa [← hs]) (by rw [hs]) fun p => ?_
    rw [ht p]
    simp [hm]
  · refine .other (fun m' left' h => ?_) (.inl (by rw [hs])) fun p => ?_
    · cases h
      simp [hm, Ne.symm heq]
    · rw [ht p]
      simp [hm, Ne.symm heq]

/-- A retry under `k'` that sends the pending message again. -/
theorem AtKey.of_retry {v : SendMessage × OpId} {f : Frame} (hm : m.retry? = some (k', left))
    (hl : left ≠ .val 0) (hp : e₁.state.entry k' = some v)
    (ht' : t.retry? = some (k', opts.maxMessageAttempts.decrement)) :
    AtKey opts e ((e₁.tonicTx f).sleep t) k (some m) := by
  by_cases heq : k = k'
  · subst heq
    refine .retry m left v hm hl (hs ▸ hp) hp fun p => ?_
    rw [tokensFor_sleep, ht p]
    simp [hm, ht', tokensFor, tokens, tonicTx]
    omega
  · exact .foreign hs ht (by simp [hm, Ne.symm heq]) (by simp [ht', Ne.symm heq]) rfl rfl

end

theorem atKey_of_handled {e₁ : Exchange} (h : Handled opts e₁ m e') (hs : e₁.state = e.state)
    (ht : ∀ p, e.tokensFor k p =
      e₁.tokensFor k p + if m.retry?.any fun r => r.1 = k && p r.2 then 1 else 0) :
    AtKey opts e e' k (some m) := by
  cases h with
  | answer entity dst seq payload tag msg o hp =>
    refine AtKey.quiet hs ht rfl rfl ?_
    cases k with
    | ack k => exact .inl rfl
    | ask id k =>
      simp only [State.entry, State.removeReply, Function.update_apply]
      split_ifs
      · exact .inr rfl
      · exact .inl rfl
  | deliver entity dst seq payload tag hp => exact AtKey.quiet hs ht rfl rfl (.inl rfl)
  | ack seq n tag msg o hp =>
    refine AtKey.quiet hs ht rfl rfl ?_
    cases k with
    | ack k =>
      simp only [State.entry, State.removeAck, Function.update_apply]
      split_ifs
      · exact .inr rfl
      · exact .inl rfl
    | ask id k => exact .inl rfl
  | ignore msg tag hne hp => exact AtKey.quiet hs ht rfl rfl (.inl rfl)
  | send payload => exact AtKey.quiet hs ht rfl rfl (.inl rfl)
  | waitForAck msg o seq =>
    refine .of_register hs ht msg rfl rfl rfl (fun _ => rfl) rfl ?_
    cases k with
    | ack k => simp [State.entry, State.insertAck, sleep, Function.update_apply]
    | ask id k => rfl
  | waitForReply msg o seq =>
    refine .of_register hs ht msg rfl rfl rfl (fun hq => ?_) rfl ?_
    · rw [hq]
      rfl
    · cases k with
      | ack k => rfl
      | ask id k => simp [State.entry, State.insertReply, sleep, Function.update_apply]
  | giveUpAck seq left hp => exact .of_giveUp hs ht rfl hp
  | retryAck seq left msg o hp hl => exact .of_retry hs ht rfl hl hp rfl
  | giveUpAsk id seq left hp => exact .of_giveUp hs ht rfl hp
  | retryAsk id seq left msg o hp hl => exact .of_retry hs ht rfl hl hp rfl
  | heartbeat => exact .foreign hs ht (by simp [Msg.retry?]) (by simp [Msg.retry?]) rfl rfl

theorem Moves.atKey (h : e.Moves opts l e') (k : Key) : AtKey opts e e' k l := by
  have hstill (hs : e'.state.entry k = e.state.entry k)
      (ht : ∀ p, e'.tokens.countP p = e.tokens.countP p) : AtKey opts e e' k none :=
    .other (by simp) (.inl hs) fun p => ht _
  cases h with
  | stay => exact hstill rfl fun _ => rfl
  | tonic p hp => exact hstill rfl fun _ => rfl
  | dial p request n hp => exact hstill rfl fun _ => rfl
  | heartbeat =>
    exact .other (by simp) (.inl (by cases k <;> rfl)) fun p =>
      tokensFor_sleep_none (by simp [Msg.retry?]) p
  | called hc =>
    have hs : e'.state = e.state := by cases hc <;> rfl
    exact .other (by simp) (.inl (by rw [hs])) fun p =>
      hc.countP_tokens fun m hm => by simp [Msg.retry?_eq_none hm]
  | fire i msg hi => exact hstill rfl fun p => countP_tokens_fire p hi
  | forward msg tag =>
    exact .other (by simp) (.inl rfl) fun p => (countP_tokens_post _ e _).trans rfl
  | take msg rest hq hh => exact atKey_of_handled hh rfl fun p => countP_tokens_take _ hq
  | takeFail msg rest p hq hf hp =>
    obtain ⟨err, he⟩ := hf
    have hm : msg.retry? = none := by
      rcases handleMsg_error he with rfl | rfl | ⟨_, _, _, _, _, rfl, -⟩ <;> rfl
    refine .other (fun m left h => by cases h; simp [hm]) (.inl rfl) fun p => ?_
    have hcount := countP_tokens_take (fun m => m.retry?.any fun r => r.1 = k && p r.2) hq
    simp only [hm, Option.any_none, Bool.false_eq_true, if_false, Nat.add_zero] at hcount
    exact hcount.symm
  | read msg tag hq hh => exact atKey_of_handled hh rfl fun p => rfl
  | readFail msg tag p hq hf hp => exact .quiet (Eq.refl e.state) (fun p => rfl) rfl rfl (.inl rfl)

/-- Tokens of the kinds that registrations and retries set stay, but for the last one,
which had no retries left. -/
theorem Moves.token_kept (hm : e.Moves opts l e') {p : Amount → Bool}
    (hfirst : p opts.maxMessageAttempts = true) (hnext : p opts.maxMessageAttempts.decrement = true)
    {msg : SendMessage} {o : OpId} (hk : e'.state.entry k = some (msg, o))
    (hq : msg.qos = .atLeastOnce)
    (hold : e.state.entry k = some (msg, o) → 0 < e.tokensFor k p)
    (hl : ∀ m, l = some m → m.retry? = some (k, .val 0) → p (.val 0) = true →
      e.state.entry k = some (msg, o) → 1 < e.tokensFor k p) : 0 < e'.tokensFor k p := by
  cases hm.atKey k with
  | other hr he ht =>
    rw [ht]
    exact hold ((he.resolve_right (by simp [hk])).symm.trans hk)
  | register m msg' o' first hm hby he hf ht =>
    cases he.symm.trans hk
    rw [ht, hf hq, if_pos hfirst]
    exact Nat.succ_pos _
  | giveUp m left hm hn he ht =>
    have hkept := he.symm.trans hk
    obtain rfl := hn.resolve_left (by simp [hkept])
    have hcount := ht p
    have hbefore := hold hkept
    split_ifs at hcount with hp
    · have hmore := hl m rfl hm hp hkept
      omega
    · omega
  | retry m left v hm hleft he he' ht =>
    have hcount := ht p
    have hbefore := hold (he.trans (he'.symm.trans hk))
    rw [if_pos hnext] at hcount
    split_ifs at hcount <;> omega

theorem TokensHeld.iff_pos : e.TokensHeld ↔ ∀ k msg o, e.state.entry k = some (msg, o) →
    msg.qos = .atLeastOnce → 0 < e.tokensFor k fun _ => true := by
  simp only [tokensFor_pos_iff]
  rfl

/-- A call at its `await` can go on, or its registration is queued, or a token will look
at its entry again. -/
def Attended (opts : ClientOpts) (e : Exchange) (o : OpId) (call : Call) : Prop :=
  (e.poll opts false o ⟨call, .wait⟩).isSome ∨
    (∃ m ∈ e.actorRx, call.waiter o = some (.ok m)) ∨
      ∃ m ∈ e.tokens, ∃ left, m.retry? = some (call.key, left)

/-- The `await` of a call fails. -/
def Fails (opts : ClientOpts) (e : Exchange) (o : OpId) (call : Call) : Prop :=
  ∃ err, e.poll opts false o ⟨call, .wait⟩ =
    some (e.setPc o ⟨call, .wait⟩ (.returned (.error err)))

/-- The call that an entry belongs to. -/
theorem Booked.owner (hb : e.Booked) (ha : e.Accounted opts) {msg : SendMessage} {o : OpId}
    (hk : e.state.entry k = some (msg, o)) : ∃ op m, e.ops[o]? = some op ∧
      op.call.waiter o = some (.ok m) ∧ m ∈ e.handled ∧ m.registers? = some k ∧
        op.call.qos = msg.qos := by
  cases k with
  | ack seq =>
    have hmem := hb.acks seq msg o hk
    obtain ⟨op, ho, hw⟩ := ha.waiter_of_handled hmem rfl rfl
    refine ⟨op, _, ho, hw, hmem, rfl, ?_⟩
    rcases op.call.waiter_eq_ok hw with ⟨msg', hc, -, hm⟩ | ⟨msg', -, hm⟩ |
      ⟨on, payload, t, hc, -, hm⟩ <;> cases hm <;> rw [hc] <;> rfl
  | ask id seq =>
    obtain ⟨hmem, rfl⟩ := hb.replies id seq msg o hk
    obtain ⟨op, ho, hw⟩ := ha.waiter_of_handled hmem rfl rfl
    exact ⟨op, _, ho, hw, hmem, rfl, by rw [op.call.ask_of_waiter hw]; rfl⟩

theorem Booked.key_of_entry (hb : e.Booked) (ha : e.Accounted opts) {msg : SendMessage}
    {o : OpId} (hk : e.state.entry k = some (msg, o)) {op : Op} (ho : e.ops[o]? = some op) :
    op.call.key = k ∧ op.call.qos = msg.qos := by
  obtain ⟨op', m, ho', hw, -, hm, hq⟩ := hb.owner ha hk
  obtain rfl := Option.some.inj (ho.symm.trans ho')
  exact ⟨Option.some.inj ((Call.registers_of_waiter hw).symm.trans hm), hq⟩

theorem TokensHeld.attended (h : e.TokensHeld) (hb : e.Booked) (ha : e.Accounted opts)
    {o : OpId} {call : Call} (ho : e.ops[o]? = some ⟨call, .wait⟩)
    (hq : call.qos = .atLeastOnce) : e.Attended opts o call := by
  by_contra hn
  simp only [Attended, not_or, not_exists, not_and] at hn
  obtain ⟨hpoll, hqueue, htoken⟩ := hn
  have halive : e.senderAlive false o call = true := by
    by_contra hdead
    refine hpoll ?_
    unfold poll
    cases e.outcome o call with
    | some result => rfl
    | none => simp [hdead]
  -- the sender is not in the queue, so it is in a map
  obtain ⟨v, hv, rfl⟩ : ∃ v, e.state.entry call.key = some v ∧ v.2 = o := by
    cases call with
    | ask msg seq =>
      have hnone : Msg.waitForReply msg o seq ∉ e.actorRx := fun hm => hqueue _ hm rfl
      simpa [senderAlive, hnone, Option.any_eq_true, State.entry, Call.key] using halive
    | send msg seq =>
      have hnone : (e.actorRx.any fun m =>
          (Call.send msg seq).waiter o = some (.ok m)) = false := by
        simpa using hqueue
      simpa [senderAlive, hnone, Option.any_eq_true, State.entry, Call.key] using halive
    | reply on payload qos =>
      have hnone : (e.actorRx.any fun m =>
          (Call.reply on payload qos).waiter o = some (.ok m)) = false := by
        simpa using hqueue
      simpa [senderAlive, hnone, Option.any_eq_true, State.entry, Call.key] using halive
  obtain ⟨msg, o⟩ := v
  have hqos := (hb.key_of_entry ha hv ho).2
  obtain ⟨m, hm, left, hr⟩ := h call.key msg o hv (hqos.symm.trans hq)
  exact htoken m hm left hr

end Exchange

theorem Amount.decrement_eq_zero (a : Amount) :
    a.decrement = .val 0 ↔ a = .val 0 ∨ a = .val 1 := by
  rcases a with (_ | _ | v) | _ <;> simp [decrement]

namespace System

variable {opts : ClientOpts} {token : String} {s t : System} {tr : List (System × Action)}

/-- The step handles a retry with none left that finds the entry of the at-least-once call
`o`, as the last token for its key. -/
def GivesUp (s : System) (a : Action) (k : Key) (o : OpId) : Prop :=
  ∃ m msg, s.handles a = some m ∧ m.retry? = some (k, .val 0) ∧
    s.exchange.state.entry k = some (msg, o) ∧ msg.qos = .atLeastOnce ∧
      s.exchange.tokensFor k (fun _ => true) = 1

/-- In each state of a run the entries of at-least-once calls have tokens, so that no call
waits for nothing; and a call whose retries have run out loses its entry and fails. -/
structure NoOrphans (opts : ClientOpts) (tr : List (System × Action)) (t : System) : Prop where
  held : ∀ u ∈ visited tr t, u.exchange.TokensHeld
  attended : ∀ u ∈ visited tr t, u.phase.isEnded = false → ∀ o call,
    u.exchange.ops[o]? = some ⟨call, .wait⟩ → call.qos = .atLeastOnce →
      u.exchange.Attended opts o call
  exhausted : ∀ x ∈ tr, ∀ v k o, x.1.step opts x.2 = some v → x.1.GivesUp x.2 k o →
    v.exchange.state.entry k = none ∧ ∀ call, v.exchange.ops[o]? = some ⟨call, .wait⟩ →
      v.exchange.Fails opts o call

theorem tokensHeld_step {a : Action} (h : s.exchange.TokensHeld) (hs : s.step opts a = some t)
    (hg : ∀ k o, ¬ s.GivesUp a k o) : t.exchange.TokensHeld := by
  rw [Exchange.TokensHeld.iff_pos] at h ⊢
  intro k msg o hk hq
  refine (moves_of_step hs).token_kept rfl rfl hk hq (fun hold => h k msg o hold hq)
    fun m hl hr _ hold => ?_
  have hone := h k msg o hold hq
  by_contra hlast
  exact hg k o ⟨m, msg, hl, hr, hold, hq, by omega⟩

/-- The handler leaves the entry where it is, now without a token. -/
theorem GivesUp.orphans {a : Action} {k : Key} {o : OpId} (h : s.GivesUp a k o)
    (hs : s.step opts a = some t) : ¬ t.exchange.TokensHeld := by
  obtain ⟨m, msg, hl, hr, hk, hq, hlast⟩ := h
  have hm := moves_of_step hs
  rw [hl] at hm
  rw [Exchange.TokensHeld.iff_pos]
  intro hheld
  cases hm.atKey k with
  | other hne he ht => exact hne m _ rfl hr
  | register m' msg' o' first hm' hby he hf ht =>
    rw [Msg.retry?_of_registers hm'] at hr
    cases hr
  | giveUp m' left hm' hn he ht =>
    have hpos := hheld k msg o (he.trans hk) hq
    have hcount := ht fun _ => true
    rw [if_pos rfl] at hcount
    omega
  | retry m' left v hm' hleft he he' ht =>
    cases hr.symm.trans hm'
    exact hleft rfl

/-- All along a run there are no orphans exactly if no step handles the last token of an
at-least-once entry with no retries left. -/
theorem noOrphans_iff (h : Run (step opts) (initial token) tr t) :
    NoOrphans opts tr t ↔ ∀ x ∈ tr, ∀ k o, ¬ x.1.GivesUp x.2 k o := by
  constructor
  · rintro ⟨hheld, -, -⟩ x hx k o hg
    obtain ⟨-, v, hv, hs⟩ := h.step_of_mem hx
    exact hg.orphans hs (hheld v hv)
  · intro hg
    have hheld : ∀ u ∈ visited tr t, u.exchange.TokensHeld := fun u hu =>
      h.guarded_visited (P := fun u => u.exchange.TokensHeld)
        (G := fun s a => ∀ k o, ¬ s.GivesUp a k o) hg (fun k msg o hk => by cases k <;> cases hk)
        (fun _ _ _ _ hp hga hs => tokensHeld_step hp hs hga) hu
    refine ⟨hheld, fun u hu _ o call ho hq => ?_,
      fun x hx v k o _ hgive => absurd hgive (hg x hx k o)⟩
    obtain ⟨tr', -, hrun⟩ := h.of_visited hu
    exact (hheld u hu).attended (booked_of_reachable ⟨tr', hrun⟩)
      (accounted_of_reachable ⟨tr', hrun⟩) ho hq

/-- With two retries or more, each such entry has a token with retries left. -/
theorem armed_of_reachable (h0 : opts.maxMessageAttempts ≠ .val 0)
    (h1 : opts.maxMessageAttempts ≠ .val 1) (h : Reachable (step opts) (initial token) s) :
    ∀ k msg o, s.exchange.state.entry k = some (msg, o) → msg.qos = .atLeastOnce →
      0 < s.exchange.tokensFor k fun left => left ≠ .val 0 := by
  refine h.invariant (P := fun s => ∀ k msg o, s.exchange.state.entry k = some (msg, o) →
    msg.qos = .atLeastOnce → 0 < s.exchange.tokensFor k fun left => left ≠ .val 0)
    (fun k msg o hk => by cases k <;> cases hk) fun u v a _ hp hs k msg o hk hq => ?_
  refine (moves_of_step hs).token_kept (by simpa using h0) ?_ hk hq
    (fun hold => hp k msg o hold hq) fun _ _ _ hz => by simp at hz
  simp [Amount.decrement_eq_zero, h0, h1]

/-- Limits of two and more leave no orphans, since a retry gets its retries back. -/
theorem not_givesUp {a : Action} {k : Key} {o : OpId} (h0 : opts.maxMessageAttempts ≠ .val 0)
    (h1 : opts.maxMessageAttempts ≠ .val 1) (h : Reachable (step opts) (initial token) s) :
    ¬ s.GivesUp a k o := by
  rintro ⟨m, msg, hl, hr, hk, hq, hlast⟩
  have hlive := armed_of_reachable h0 h1 h k msg o hk hq
  have hmem : m ∈ s.exchange.tokens := by
    match a with
    | .take => exact List.mem_append_right _ (List.mem_of_mem_head? hl)
    | .response (.message (some x) tag) =>
      simp only [handles] at hl
      split_ifs at hl
      cases hl
      cases hr
  have hspent : 0 < s.exchange.tokensFor k fun left => !decide (left ≠ .val 0) :=
    List.countP_pos_iff.mpr ⟨m, hmem, by simp [hr]⟩
  have hsum := s.exchange.tokensFor_add k fun left => left ≠ .val 0
  omega

/-- The options of a client with this limit on retries. -/
def limited (limit : Amount) : ClientOpts :=
  { ClientOpts.build .app "app" "ns" (.token "t") with maxMessageAttempts := limit }

/-- An at-least-once send whose retry timer goes off `n + 1` times without an ack. -/
def unacked (n : ℕ) : List Action :=
  [.validate none, .dial .ok, .relayConnect none,
    .response (.message (some (.connectResponse "app" true "")) ⟨"", 0⟩),
    .client (.send ⟨.orb, [1], "orb", "ns", .atLeastOnce⟩), .client (.poll 0), .client (.poll 0),
    .take, .take] ++ (List.replicate (n + 1) [.fire 1, .take]).flatten

/-- With two retries, a send that is acked after the second. -/
theorem ackedLate_held :
    ∃ tr t, Run (step (limited (.val 2))) (initial "") tr t ∧ t.exchange.acked = [0] ∧
      t.exchange.tonic.pushed.map Frame.origin = [.connect 1, .op 0, .op 0, .op 0] ∧
      NoOrphans (limited (.val 2)) tr t := by
  have he : ((exec (step (limited (.val 2))) (initial "")
      (unacked 1 ++ [.response (.message (some (.ack 0 none)) ⟨"", 0⟩)])).map fun s =>
        (s.exchange.acked, s.exchange.tonic.pushed.map Frame.origin)) =
          some ([0], [.connect 1, .op 0, .op 0, .op 0]) := by decide
  obtain ⟨tr, t, h, hp⟩ := Run.of_exec_map he
  obtain ⟨hacked, hpushed⟩ := Prod.mk.inj hp
  refine ⟨tr, t, h, hacked, hpushed, (noOrphans_iff h).mpr fun x hx k o => ?_⟩
  exact not_givesUp (by simp [limited]) (by simp [limited]) (h.step_of_mem hx).1

/-- With one retry, a send that was retried once is never looked at again. -/
theorem retriedOnce_orphaned :
    ∃ tr t, Run (step (limited (.val 1))) (initial "") tr t ∧ t.phase.isConnected = true ∧
      ¬ NoOrphans (limited (.val 1)) tr t := by
  have he : ((exec (step (limited (.val 1))) (initial "") (unacked 1)).map fun s =>
      (s.phase.isConnected, s.exchange.tokens, (s.exchange.state.pendingAcks 0).map fun v =>
        v.1.qos)) = some (true, [.heartbeat], some .atLeastOnce) := by decide
  obtain ⟨tr, t, h, hp⟩ := Run.of_exec_map he
  simp only [Prod.mk.injEq] at hp
  obtain ⟨hc, htokens, hentry⟩ := hp
  refine ⟨tr, t, h, hc, fun hn => ?_⟩
  obtain ⟨⟨msg, o⟩, hk, hq⟩ := Option.map_eq_some_iff.mp hentry
  obtain ⟨m, hm, left, hr⟩ := hn.held t (by simp [visited]) (.ack 0) msg o hk hq
  rw [htokens, List.mem_singleton] at hm
  subst hm
  cases hr

end System
end OrbRelay.Client
