import OrbRelay.Client.Traffic

/-!
# Acks and their calls

A client with a relay that acknowledges payload frames it has received. An ack
carries a number only, and `pending_acks` is keyed by that number, which sends take
from the client's counter and replies from the message they answer.
-/
namespace OrbRelay.Client
open Transition

/-! ## Ack waiters -/

namespace Exchange

variable {opts : ClientOpts} {e e' : Exchange} {l : Option Msg} {o : OpId}

/-- What a move does to `pending_acks` and to the ack channels. -/
inductive AckMoves (e e' : Exchange) : Option Msg → Prop where
  | register (msg : SendMessage) (o : OpId) (k : Seq)
      (hp : e'.state.pendingAcks = (e.state.insertAck k (msg, o)).pendingAcks)
      (ha : e'.acked = e.acked) : AckMoves e e' (some (.waitForAck msg o k))
  | complete (k : Seq) (n : Option UInt32) (tag : Tag) (msg : SendMessage) (o : OpId)
      (hk : e.state.pendingAcks k = some (msg, o))
      (hp : e'.state.pendingAcks = (e.state.removeAck k).pendingAcks)
      (ha : e'.acked = e.acked ++ [o]) : AckMoves e e' (some (.relayResponse (.ack k n) tag))
  | keep {l : Option Msg} (hl : ∀ msg o k, l ≠ some (.waitForAck msg o k))
      (hn : ∀ k n tag, l = some (.relayResponse (.ack k n) tag) → e.state.pendingAcks k = none)
      (hp : e'.state.pendingAcks = e.state.pendingAcks) (ha : e'.acked = e.acked) :
      AckMoves e e' l

theorem ackMoves_of_handled {m : Msg} (h : Handled opts e m e') : AckMoves e e' (some m) := by
  cases h with
  | ack seq n tag msg o hp => exact .complete seq n tag msg o hp rfl rfl
  | waitForAck msg o seq => exact .register msg o seq rfl rfl
  | ignore msg tag hn hp =>
    refine .keep (by simp) (fun k n tag' heq => ?_) rfl rfl
    cases heq
    exact hn k n rfl
  | _ => exact .keep (by simp) (by simp) rfl rfl

theorem AckMoves.congr {e₁ : Exchange} (h : AckMoves e₁ e' l) (hs : e₁.state = e.state)
    (ha : e₁.acked = e.acked) : AckMoves e e' l := by
  cases h with
  | register msg o k hp hacked => exact .register msg o k (hs ▸ hp) (ha ▸ hacked)
  | complete k n tag msg o hk hp hacked =>
    exact .complete k n tag msg o (hs ▸ hk) (hs ▸ hp) (ha ▸ hacked)
  | keep hl hn hp hacked => exact .keep hl (hs ▸ hn) (hs ▸ hp) (ha ▸ hacked)

theorem Moves.acks (h : e.Moves opts l e') : AckMoves e e' l := by
  cases h with
  | called h => cases h <;> exact .keep (by simp) (by simp) rfl rfl
  | take msg rest hq h => exact (ackMoves_of_handled h).congr rfl rfl
  | takeFail msg rest p hq hf hp =>
    obtain ⟨err, he⟩ := hf
    refine .keep (fun msg' o k heq => ?_) (fun k n tag heq => ?_) rfl rfl <;> cases heq <;>
      rcases handleMsg_error he with h | h | ⟨_, _, _, _, _, h, -⟩ <;> cases h
  | read msg tag hq h => exact (ackMoves_of_handled h).congr rfl rfl
  | readFail msg tag p hq hf hp =>
    obtain ⟨err, he⟩ := hf
    refine .keep (by simp) (fun k n tag heq => ?_) rfl rfl
    cases heq
    rcases handleMsg_error he with h | h | ⟨_, _, _, _, _, h, -⟩ <;> cases h
  | _ => exact .keep (by simp) (by simp) rfl rfl

/-- An entry belongs to a call that has not been completed. -/
def PendingOpen (e : Exchange) : Prop :=
  ∀ k msg o, e.state.pendingAcks k = some (msg, o) → o ∉ e.acked

theorem PendingOpen.moves (h : e.PendingOpen) (ha : e.Accounted opts) (hb : e.Booked)
    (hm : e.Moves opts l e') : e'.PendingOpen := by
  cases hm.acks with
  | register msg o k hp hacked =>
    intro k' msg' o' hk
    rw [hp] at hk
    rw [hacked]
    rcases State.insertAck_eq_some hk with ⟨-, heq⟩ | hk
    · cases heq
      intro ho
      obtain ⟨msg₁, k₁, hw⟩ := hb.acked o ho
      obtain ⟨op, hop, hwait⟩ := ha.waiter_of_handled hw rfl rfl
      exact ha.nothing_left hop hwait hw _ (hm.queued (by simp)) rfl
    · exact h k' msg' o' hk
  | complete k n tag msg o hk hp hacked =>
    intro k' msg' o' hk'
    rw [hp] at hk'
    obtain ⟨hne, hk'⟩ := State.removeAck_eq_some hk'
    rw [hacked, List.mem_append, List.mem_singleton, not_or]
    refine ⟨h k' msg' o' hk', ?_⟩
    rintro rfl
    cases ha.same_waiter (hb.acks _ _ _ hk') rfl rfl (hb.acks _ _ _ hk) rfl rfl
    exact hne rfl
  | keep hl hn hp hacked =>
    intro k msg o hk
    rw [hp] at hk
    rw [hacked]
    exact h k msg o hk

/-- Acks complete calls whose waiter was pending. -/
theorem AckMoves.of_acked (h : AckMoves e e' l) (ho : o ∈ e'.acked) :
    o ∈ e.acked ∨ ∃ k n tag msg, l = some (.relayResponse (.ack k n) tag) ∧
      e.state.pendingAcks k = some (msg, o) := by
  cases h with
  | register msg o' k hp ha => exact .inl (ha ▸ ho)
  | complete k n tag msg o' hk hp ha =>
    rw [ha] at ho
    rcases List.mem_append.mp ho with ho | ho
    · exact .inl ho
    · obtain rfl := List.mem_singleton.mp ho
      exact .inr ⟨k, n, tag, msg, rfl, hk⟩
  | keep hl hn hp ha => exact .inl (ha ▸ ho)

/-- A waiter that was registered stays until its call is completed. -/
def KeepsWaiters (e : Exchange) : Prop :=
  ∀ msg o k, .waitForAck msg o k ∈ e.handled →
    o ∈ e.acked ∨ ∃ msg', e.state.pendingAcks k = some (msg', o)

/-- A waiter outlives every move that does not register another one in its place. -/
theorem AckMoves.waiter_stays (h : AckMoves e e' l) {msg : SendMessage} {k : Seq}
    (hk : e.state.pendingAcks k = some (msg, o))
    (hl : ∀ msg' o', l = some (.waitForAck msg' o' k) → o = o') :
    o ∈ e'.acked ∨ ∃ msg', e'.state.pendingAcks k = some (msg', o) := by
  cases h with
  | register msg' o' k' hp ha =>
    rw [hp]
    by_cases hkk : k = k'
    · subst hkk
      obtain rfl := hl msg' o' rfl
      exact .inr ⟨msg', by simp [State.insertAck]⟩
    · exact .inr ⟨msg, by simpa [State.insertAck, hkk] using hk⟩
  | complete k' n tag msg' o' hk' hp ha =>
    rw [ha, hp]
    by_cases hkk : k = k'
    · subst hkk
      cases hk.symm.trans hk'
      exact .inl (List.mem_append_right _ (List.mem_singleton_self _))
    · exact .inr ⟨msg, by simpa [State.removeAck, hkk] using hk⟩
  | keep hl hn hp ha => exact .inr ⟨msg, hp ▸ hk⟩

theorem KeepsWaiters.moves (h : e.KeepsWaiters) (hm : e.Moves opts l e')
    (hl : ∀ msg o k msg' o', l = some (.waitForAck msg o k) →
      e.state.pendingAcks k = some (msg', o') → o' = o) : e'.KeepsWaiters := by
  intro msg o k hw
  rw [hm.handled] at hw
  rcases List.mem_append.mp hw with hw | hw
  · rcases h msg o k hw with ho | ⟨msg', hk⟩
    · exact .inl (hm.channels.2 o ho)
    · exact hm.acks.waiter_stays hk fun msg₁ o₁ heq => hl msg₁ o₁ k msg' o heq hk
  · -- the waiter that this move registers
    obtain rfl : l = some (.waitForAck msg o k) := by simpa using hw
    cases hm.acks with
    | register _ _ _ hp ha => exact .inr ⟨msg, by simp [hp, State.insertAck]⟩
    | keep hn _ _ _ => exact absurd rfl (hn _ _ _)

end Exchange

theorem System.pendingOpen_of_reachable {opts : ClientOpts} {token : String} {s : System}
    (h : Reachable (System.step opts) (initial token) s) : s.exchange.PendingOpen :=
  h.invariant (P := fun s => s.exchange.PendingOpen)
    (by simp [Exchange.PendingOpen, initial, Exchange.initial, State.default]) fun _ _ _ hr hp hs =>
    hp.moves (System.accounted_of_reachable hr) (System.booked_of_reachable hr) (moves_of_step hs)

/-! ## Calls that wait for an ack -/

/-- At-least-once sends and replies. -/
def Call.waitsForAck : Call → Bool
  | send msg _ => msg.qos = .atLeastOnce
  | ask _ _ => false
  | reply _ _ qos => qos = .atLeastOnce

section

variable {e : Exchange} {call : Call} {o : OpId}

theorem Call.waiter_of_waitsForAck (h : call.waitsForAck = true) (o : OpId) :
    (call.waiter o).isSome := by
  cases call with
  | send msg seq =>
    simp only [waitsForAck, decide_eq_true_eq] at h
    simp [waiter, h]
  | ask msg seq => rfl
  | reply on payload qos =>
    simp only [waitsForAck, decide_eq_true_eq] at h
    simp only [waiter, h]
    split <;> rfl

theorem Call.waiter_of_acks {m : Msg} (h : call.waitsForAck = true)
    (hm : call.waiter o = some (.ok m)) : ∃ msg, m = .waitForAck msg o call.seq := by
  rcases call.waiter_eq_ok hm with ⟨msg, -, -, rfl⟩ | ⟨msg, hc, -⟩ | ⟨on, payload, t, -, -, rfl⟩
  · exact ⟨msg, rfl⟩
  · rw [hc] at h
    cases h
  · exact ⟨_, rfl⟩

theorem Call.seq_of_waiter {msg : SendMessage} {o₁ : OpId} {k : Seq}
    (hm : call.waiter o = some (.ok (.waitForAck msg o₁ k))) : k = call.seq := by
  rcases call.waiter_eq_ok hm with ⟨_, -, -, h⟩ | ⟨_, -, h⟩ | ⟨_, _, _, -, -, h⟩ <;> cases h <;> rfl

theorem Exchange.senderAlive_of_acks (h : call.waitsForAck = true) :
    e.senderAlive false o call = (e.actorRx.any (fun m => call.waiter o = some (.ok m)) ||
      (e.state.pendingAcks call.seq).any (·.2 = o)) := by
  cases call with
  | ask msg seq => cases h
  | _ => rfl

theorem Exchange.outcome_of_acks (h : call.waitsForAck = true) (ho : o ∈ e.acked) :
    (e.outcome o call).isSome := by
  cases call with
  | ask msg seq => cases h
  | _ => simp [outcome, ho]

end

/-! ## A relay that acknowledges what it received -/

/-- A client, and the calls whose frames the relay has acknowledged, with the numbers
of these frames. -/
structure AckRelay where
  client : System
  acknowledged : List (OpId × Seq)

/-- `acknowledge` names a stream of the client and a frame that it has yielded. -/
inductive AckAction where
  | step (a : Action)
  | acknowledge (k n : ℕ)

@[simp] theorem Call.relayPayload_seq (opts : ClientOpts) (call : Call) :
    (call.relayPayload opts).seq = call.seq := by
  cases call <;> rfl

namespace AckRelay

def initial (token : String) : AckRelay := ⟨.initial token, []⟩

/-- An ack on the response stream is one that the relay has sent. -/
def honest (r : AckRelay) : Action → Bool
  | .response (.message (some (.ack seq _)) tag) => r.acknowledged.contains (tag.op, seq)
  | _ => true

def step (opts : ClientOpts) (r : AckRelay) : AckAction → Option AckRelay
  | .step a =>
    if r.honest a then (r.client.step opts a).map fun s => { r with client := s } else none
  | .acknowledge k n => do
    let w ← r.client.exchange.tonic.streams[k]?
    match w.yielded[n]? with
    | some ⟨.payload p, .op o⟩ =>
      some { r with acknowledged := r.acknowledged ++ [(o, p.seq)] }
    | _ => none

variable {opts : ClientOpts} {token : String} {r r' t : AckRelay} {a : AckAction} {o : OpId}
  {tr : List (AckRelay × AckAction)}

theorem step_cases (h : r.step opts a = some r') :
    (∃ b, a = .step b ∧ r.honest b = true ∧ r.client.step opts b = some r'.client ∧
      r'.acknowledged = r.acknowledged) ∨
    ∃ k n w p o, a = .acknowledge k n ∧ w ∈ r.client.exchange.tonic.streams ∧
      ⟨.payload p, .op o⟩ ∈ w.yielded ∧
      r' = { r with acknowledged := r.acknowledged ++ [(o, p.seq)] } := by
  cases a with
  | step b =>
    simp only [step] at h
    split_ifs at h with hh
    obtain ⟨s, hs, rfl⟩ := Option.map_eq_some_iff.mp h
    exact .inl ⟨b, rfl, hh, hs, rfl⟩
  | acknowledge k n =>
    simp only [step, Option.bind_eq_bind, Option.bind_eq_some_iff] at h
    obtain ⟨w, hw, h⟩ := h
    split at h
    · next p o hf =>
      obtain rfl := Option.some.inj h
      exact .inr ⟨k, n, w, p, o, rfl, List.mem_of_getElem? hw, List.mem_of_getElem? hf, rfl⟩
    · cases h

theorem client_reachable (h : Reachable (step opts) (initial token) r) :
    Reachable (System.step opts) (System.initial token) r.client :=
  h.invariant (P := fun r => Reachable (System.step opts) (System.initial token) r.client) .refl
    fun _ _ _ _ hp hs => by
      rcases step_cases hs with ⟨b, -, -, hb, -⟩ | ⟨_, _, _, _, _, -, -, -, rfl⟩
      · exact hp.snoc hb
      · exact hp

/-- Acks that the client has heard were sent, and what was acknowledged is the frame of
a call, with the number of that call. -/
structure Genuine (r : AckRelay) : Prop where
  acks : ∀ k n tag, .relayResponse (.ack k n) tag ∈ r.client.exchange.trail →
    (tag.op, k) ∈ r.acknowledged
  seqs : ∀ o k, (o, k) ∈ r.acknowledged →
    ∃ op, r.client.exchange.ops[o]? = some op ∧ op.call.seq = k

theorem genuine_step (hr : Reachable (step opts) (initial token) r) (h : r.Genuine)
    (hs : r.step opts a = some r') : r'.Genuine := by
  have hc := client_reachable hr
  rcases step_cases hs with ⟨b, -, hh, hb, hack⟩ | ⟨j, i, w, p, o, -, hw, hf, rfl⟩
  · have ha := System.accounted_of_reachable hc
    refine ⟨fun k n tag hm => ?_, fun o k hok => ?_⟩
    · rw [hack]
      rcases System.response_of_step hb ha.timers rfl hm with hm | rfl
      · exact h.acks k n tag hm
      · simpa [honest] using hh
    · obtain ⟨op, ho, hseq⟩ := h.seqs o k (hack ▸ hok)
      obtain ⟨pc, ho'⟩ := (System.moves_of_step hb).call ha.timers ho
      exact ⟨_, ho', hseq⟩
  · refine ⟨fun k n tag hm => List.mem_append_left _ (h.acks k n tag hm), fun o' k hok => ?_⟩
    rcases List.mem_append.mp hok with hok | hok
    · exact h.seqs o' k hok
    · cases List.mem_singleton.mp hok
      obtain ⟨op, hop, hpay⟩ := System.said_of_reachable hc hw hf rfl
      cases hpay
      exact ⟨op, hop, (op.call.relayPayload_seq opts).symm⟩

theorem genuine_of_reachable (h : Reachable (step opts) (initial token) r) : r.Genuine :=
  h.invariant ⟨by simp [initial, System.initial, Exchange.initial, Exchange.trail],
    by simp [initial]⟩ fun _ _ _ hr hp hs => genuine_step hr hp hs

/-- An ack that a step handles was sent. -/
theorem acknowledged_of_handles {b : Action} {k : Seq} {n : Option UInt32} {tag : Tag}
    (h : r.Genuine) (hh : r.honest b = true)
    (hl : r.client.handles b = some (.relayResponse (.ack k n) tag)) :
    (tag.op, k) ∈ r.acknowledged := by
  rcases System.handles_eq_some hl with hq | ⟨msg, tag', hm, rfl⟩
  · exact h.acks k n tag (List.mem_append_right _ hq)
  · cases hm
    simpa [honest] using hh

/-! ## Correlation -/

/-- Calls are completed by acks of their own frames, and a waiter that was registered
stays until then. What the calls return follows. -/
structure AcksCorrelate (r : AckRelay) : Prop where
  completes : ∀ o ∈ r.client.exchange.acked, ∃ k, (o, k) ∈ r.acknowledged
  returns : ∀ o op result, r.client.exchange.ops[o]? = some op → op.call.waitsForAck = true →
    op.pc = .returned (.ok result) → ∃ k, (o, k) ∈ r.acknowledged
  kept : r.client.exchange.KeepsWaiters
  stays : ∀ o op, r.client.exchange.ops[o]? = some op → op.call.waitsForAck = true →
    op.pc = .wait → (r.client.exchange.outcome o op.call).isSome ∨
      r.client.exchange.senderAlive false o op.call = true

/-- Two calls meet under one number: a waiter is registered where another is pending,
or the ack of one call's frame is handled while the waiter belongs to another call,
whose own frame the relay has not acknowledged. -/
def Clash (r : AckRelay) : AckAction → Prop
  | .step a =>
    (∃ msg o k msg' o', r.client.handles a = some (.waitForAck msg o k) ∧
      r.client.exchange.state.pendingAcks k = some (msg', o') ∧ o' ≠ o) ∨
    ∃ k n tag msg o, r.client.handles a = some (.relayResponse (.ack k n) tag) ∧
      r.client.exchange.state.pendingAcks k = some (msg, o) ∧ tag.op ≠ o ∧
      ∀ k', (o, k') ∉ r.acknowledged
  | .acknowledge _ _ => False

/-- The part of the property that single steps keep. -/
structure Matched (r : AckRelay) : Prop where
  completes : ∀ o ∈ r.client.exchange.acked, ∃ k, (o, k) ∈ r.acknowledged
  kept : r.client.exchange.KeepsWaiters

theorem Matched.correlate (h : r.Matched) (hr : Reachable (step opts) (initial token) r) :
    r.AcksCorrelate := by
  have hc := client_reachable hr
  refine ⟨h.completes, fun o op result ho hw hpc => ?_, h.kept, fun o op ho hw hpc => ?_⟩
  · rcases System.settled_of_reachable hc o op result ho hpc (Call.waiter_of_waitsForAck hw o) with
      ⟨-, msg, seq, hask⟩ | hacked
    · simp [hask, Call.waitsForAck] at hw
    · exact h.completes o hacked
  · have hi := (System.accounted_of_reachable hc).calls o op ho
    rw [hpc] at hi
    obtain ⟨m, hm, hl⟩ := hi.of_wait
    obtain ⟨msg, rfl⟩ := Call.waiter_of_acks hw hm
    rw [Exchange.senderAlive_of_acks hw]
    have hmem : .waitForAck msg o op.call.seq ∈ r.client.exchange.trail :=
      (List.mem_filter.mp (hl ▸ by simp : _ ∈ r.client.exchange.issued o)).1
    rcases List.mem_append.mp hmem with hmem | hmem
    · rcases h.kept msg o op.call.seq hmem with hacked | ⟨msg', hp⟩
      · exact .inl (Exchange.outcome_of_acks hw hacked)
      · exact .inr (by simp [hp])
    · exact .inr (by simpa using .inl ⟨_, hmem, hm⟩)

theorem matched_initial (token : String) : (initial token).Matched := by
  constructor <;> simp [initial, System.initial, Exchange.initial, Exchange.KeepsWaiters]

theorem matched_step (hr : Reachable (step opts) (initial token) r) (h : r.Matched)
    (hg : ¬ r.Clash a) (hs : r.step opts a = some r') : r'.Matched := by
  rcases step_cases hs with ⟨b, rfl, hh, hb, hack⟩ | ⟨_, _, _, _, _, -, -, -, rfl⟩
  · have hm := System.moves_of_step hb
    refine ⟨fun o ho => ?_, h.kept.moves hm fun msg o k msg' o' hl hk => ?_⟩
    · rw [hack]
      rcases hm.acks.of_acked ho with ho | ⟨k, n, tag, msg, hl, hk⟩
      · exact h.completes o ho
      · by_contra hno
        -- the ack is that of the call's own frame, or there is a clash
        have htag : tag.op = o := by
          by_contra hne
          exact hg (.inr ⟨k, n, tag, msg, o, hl, hk, hne, fun k' hk' => hno ⟨k', hk'⟩⟩)
        exact hno ⟨k, htag ▸ acknowledged_of_handles (genuine_of_reachable hr) hh hl⟩
    · by_contra hne
      exact hg (.inl ⟨msg, o, k, msg', o', hl, hk, hne⟩)
  · exact ⟨fun o ho => (h.completes o ho).imp fun k hk => List.mem_append_left _ hk, h.kept⟩

theorem Clash.not_matched (hr : Reachable (step opts) (initial token) r) (hg : r.Clash a)
    (hs : r.step opts a = some r') : ¬ r'.Matched := by
  rcases step_cases hs with ⟨b, rfl, hh, hb, hack⟩ | ⟨_, _, _, _, _, rfl, -, -, -⟩
  swap
  · cases hg
  have hc := client_reachable hr
  have hm := System.moves_of_step hb
  have hhandled := hm.handled
  intro h
  rcases hg with ⟨msg, o, k, msg', o', hl, hk, hne⟩ | ⟨k, n, tag, msg, o, hl, hk, -, hno⟩
  · rw [hl] at hm hhandled
    have hw := (System.booked_of_reachable hc).acks k msg' o' hk
    cases hm.acks with
    | register _ _ _ hp ha =>
      rcases h.kept msg' o' k (by rw [hhandled]; exact List.mem_append_left _ hw) with ho | ⟨_, hk'⟩
      · rw [ha] at ho
        exact System.pendingOpen_of_reachable hc k msg' o' hk ho
      · rw [hp] at hk'
        simp only [State.insertAck, Function.update_self, Option.some.injEq, Prod.mk.injEq] at hk'
        exact hne hk'.2.symm
    | keep hn _ _ _ => exact hn _ _ _ rfl
  · rw [hl] at hm
    cases hm.acks with
    | complete _ _ _ msg₁ o₁ hk₁ hp ha =>
      cases hk.symm.trans hk₁
      obtain ⟨k', hk'⟩ := h.completes o (by rw [ha]; simp)
      exact hno k' (hack ▸ hk')
    | keep _ hn _ _ =>
      have := hn _ _ _ rfl
      simp [hk] at this

theorem correlate_iff_noClash (h : Run (step opts) (initial token) tr t) :
    (∀ u ∈ visited tr t, u.AcksCorrelate) ↔ ∀ x ∈ tr, ¬ x.1.Clash x.2 := by
  refine h.exact (matched_initial token) (fun _ _ _ hr hp hg hs => matched_step hr hp hg hs)
    (fun _ hr hp => hp.correlate hr) ?_
  intro s v a hr hg hs hcor
  exact hg.not_matched hr hs ⟨hcor.completes, hcor.kept⟩

/-! ## Distinct numbers -/

/-- No two calls of the client carry one number. -/
def NumbersDistinct (r : AckRelay) : Prop :=
  ∀ (o₁ o₂ : OpId) (op₁ op₂ : Op), r.client.exchange.ops[o₁]? = some op₁ →
    r.client.exchange.ops[o₂]? = some op₂ → op₁.call.seq = op₂.call.seq → o₁ = o₂

theorem NumbersDistinct.before (hr : Reachable (step opts) (initial token) r)
    (h : r'.NumbersDistinct) (hs : r.step opts a = some r') : r.NumbersDistinct := by
  rcases step_cases hs with ⟨b, -, -, hb, -⟩ | ⟨_, _, _, _, _, -, -, -, rfl⟩
  · intro o₁ o₂ op₁ op₂ h₁ h₂ hseq
    have ht := (System.accounted_of_reachable (client_reachable hr)).timers
    obtain ⟨pc₁, h₁⟩ := (System.moves_of_step hb).call ht h₁
    obtain ⟨pc₂, h₂⟩ := (System.moves_of_step hb).call ht h₂
    exact h o₁ o₂ _ _ h₁ h₂ hseq
  · exact h

theorem NumbersDistinct.noClash (hr : Reachable (step opts) (initial token) r)
    (h : r.NumbersDistinct) (hs : r.step opts a = some r') : ¬ r.Clash a := by
  rcases step_cases hs with ⟨b, rfl, hh, hb, -⟩ | ⟨_, _, _, _, _, rfl, -, -, -⟩
  swap
  · exact id
  have hc := client_reachable hr
  have ha := System.accounted_of_reachable hc
  have hseq : ∀ msg o k, .waitForAck msg o k ∈ r.client.exchange.trail →
      ∃ op, r.client.exchange.ops[o]? = some op ∧ op.call.seq = k := by
    intro msg o k hm
    obtain ⟨op, ho, hw⟩ := ha.waiter_of_trail hm rfl rfl
    exact ⟨op, ho, (Call.seq_of_waiter hw).symm⟩
  have hentry : ∀ msg o k, r.client.exchange.state.pendingAcks k = some (msg, o) →
      ∃ op, r.client.exchange.ops[o]? = some op ∧ op.call.seq = k := fun msg o k hk =>
    hseq msg o k (List.mem_append_left _ ((System.booked_of_reachable hc).acks k msg o hk))
  rintro (⟨msg, o, k, msg', o', hl, hk, hne⟩ | ⟨k, n, tag, msg, o, hl, hk, hne, -⟩)
  · obtain ⟨op', ho', hk'⟩ := hentry msg' o' k hk
    have hq := (hl ▸ System.moves_of_step hb).queued (by simp)
    obtain ⟨op, ho, hk₁⟩ := hseq msg o k (List.mem_append_right _ hq)
    exact hne (h o' o op' op ho' ho (hk'.trans hk₁.symm))
  · obtain ⟨op, ho, hk'⟩ := hentry msg o k hk
    have hg := genuine_of_reachable hr
    obtain ⟨op₁, ho₁, hk₁⟩ := hg.seqs tag.op k (acknowledged_of_handles hg hh hl)
    exact hne (h tag.op o op₁ op ho₁ ho (hk₁.trans hk'.symm))

theorem noClash_of_distinct (h : Run (step opts) (initial token) tr t) (hd : t.NumbersDistinct) :
    ∀ x ∈ tr, ¬ x.1.Clash x.2 := by
  refine h.invariant (P := fun tr t => t.NumbersDistinct → ∀ x ∈ tr, ¬ x.1.Clash x.2)
    (by simp) (fun tr t u a hrun ih hs hd x hx => ?_) hd
  have hd' := hd.before ⟨tr, hrun⟩ hs
  rcases List.mem_append.mp hx with hx | hx
  · exact ih hd' x hx
  · obtain rfl := List.mem_singleton.mp hx
    exact hd'.noClash ⟨tr, hrun⟩ hs

/-- In a run with a relay that acknowledges what it received, acks complete the right
calls and waiters stay exactly if no step is a clash; there is none as long as all calls
carry different numbers. -/
theorem acksCorrelate_iff (h : Run (step opts) (initial token) tr t) :
    ((∀ u ∈ visited tr t, u.AcksCorrelate) ↔ ∀ x ∈ tr, ¬ x.1.Clash x.2) ∧
      (t.NumbersDistinct → ∀ u ∈ visited tr t, u.AcksCorrelate) :=
  ⟨correlate_iff_noClash h, fun hd => (correlate_iff_noClash h).mpr (noClash_of_distinct h hd)⟩

/-! ## Runs -/

/-- Connected, with the `ConnectRequest` taken by the transport. -/
def opened : List AckAction :=
  [.step (.validate none), .step (.dial .ok), .step (.relayConnect none),
    .step (.response (.message (some (.connectResponse "app" true "")) ⟨"", 0⟩)),
    .step (.tonic (.poll 0)), .step (.tonic (.handOver 0)), .step (.tonic (.yield_ 0))]

/-- One frame on its way to the relay. -/
def forwarded : List AckAction :=
  [.step (.tonic (.poll 0)), .step (.tonic (.handOver 0)), .step (.tonic (.yield_ 0))]

def sendAtLeastOnce : AckAction :=
  .step (.client (.send ⟨.orb, [1], "orb", "ns", .atLeastOnce⟩))

def pollCall (o : OpId) : AckAction := .step (.client (.poll o))

def ackOf (o : OpId) : AckAction :=
  .step (.response (.message (some (.ack 0 none)) ⟨"app", o⟩))

/-- A send that returns with its own ack. -/
def ackedSend : List AckAction :=
  opened ++ [sendAtLeastOnce, pollCall 0, pollCall 0, .step .take, .step .take] ++ forwarded ++
    [.acknowledge 0 1, ackOf 0, pollCall 0]

theorem ackedSend_correlates :
    ∃ tr t, Run (step (.build .app "app" "ns" (.token "t"))) (initial "") tr t ∧
      (t.acknowledged = [(0, 0)] ∧ t.client.exchange.acked = [0]) ∧
      (((∀ u ∈ visited tr t, u.AcksCorrelate) ↔ ∀ x ∈ tr, ¬ x.1.Clash x.2) ∧
        (t.NumbersDistinct → ∀ u ∈ visited tr t, u.AcksCorrelate)) := by
  have he : ((exec (step (.build .app "app" "ns" (.token "t"))) (initial "") ackedSend).map
      fun r => (r.acknowledged, r.client.exchange.acked)) = some ([(0, 0)], [0]) := by decide
  obtain ⟨tr, t, h, hp⟩ := Run.of_exec_map he
  exact ⟨tr, t, h, Prod.mk.inj hp, acksCorrelate_iff h⟩

/-- What a call has returned, if it has: `Ok` or an error. -/
def returnedOk (op : Op) : Option Bool :=
  match op.pc with
  | .returned (.ok _) => some true
  | .returned (.error _) => some false
  | _ => none

/-- A send and a reply to a message of the peer, both under the number 0; the relay
receives the frame of the send only. -/
def takenAck : List AckAction :=
  opened ++ [.step (.response (.message (some (.payload
      ⟨some ⟨"orb", 2, "ns"⟩, some ⟨"app", 1, "ns"⟩, 0, some ⟨"", [2]⟩⟩)) ⟨"orb", 0⟩)),
    .step (.client .recv), sendAtLeastOnce, pollCall 0, pollCall 0, .step .take, .step .take] ++
    forwarded ++ [.step (.client (.reply 0 [3] .atLeastOnce)), pollCall 1, pollCall 1,
      .step .take, .step .take, .acknowledge 0 1, ackOf 0, pollCall 0, pollCall 1]

/-- The reply returns `Ok` on the ack of the send, and the send fails. -/
theorem takenAck_not_correlated :
    ∃ tr t, Run (step (.build .app "app" "ns" (.token "t"))) (initial "") tr t ∧
      (t.acknowledged = [(0, 0)] ∧
        t.client.exchange.ops.map returnedOk = [some false, some true]) ∧
      ¬ ∀ u ∈ visited tr t, u.AcksCorrelate := by
  have he : ((exec (step (.build .app "app" "ns" (.token "t"))) (initial "") takenAck).map
      fun r => (r.client.exchange.acked, r.acknowledged, r.client.exchange.ops.map returnedOk)) =
        some ([1], [(0, 0)], [some false, some true]) := by decide
  obtain ⟨tr, t, h, hp⟩ := Run.of_exec_map he
  obtain ⟨hacked, hrest⟩ := Prod.mk.inj hp
  obtain ⟨hack, hops⟩ := Prod.mk.inj hrest
  refine ⟨tr, t, h, ⟨hack, hops⟩, fun hall => ?_⟩
  obtain ⟨k, hk⟩ := (hall t (by simp [visited])).completes 1 (by simp [hacked])
  simp [hack] at hk

end AckRelay
end OrbRelay.Client
