import OrbRelay.Client.Moves

/-!
# What a call has enqueued

The actor's queue is served in order, so the messages it has handled followed by
those that wait only ever grow at the end. What a call adds to them is its `Send`
and then its waiter, as far as the call has come.
-/
namespace OrbRelay.Client
open Transition

/-- The call that enqueued a message. -/
def Msg.by? : Msg → Option OpId
  | .send ⟨_, .op o⟩ => some o
  | .waitForAck _ o _ => some o
  | .waitForReply _ o _ => some o
  | _ => none

theorem Msg.by?_timer {m : Msg} (h : m.timer = true) : m.by? = none := by
  cases m <;> first | rfl | cases h

theorem Msg.by?_send_iff {f : Frame} {o : OpId} :
    (Msg.send f).by? = some o ↔ f.origin = .op o := by
  rcases f with ⟨request, _ | _ | _⟩ <;> simp [Msg.by?]

theorem Msg.by?_send {f : Frame} {o : OpId} (h : f.origin = .op o) :
    (Msg.send f).by? = some o :=
  Msg.by?_send_iff.mpr h

def Msg.isSend : Msg → Bool
  | .send _ => true
  | _ => false

/-- The first message of a call. -/
def Call.first (opts : ClientOpts) (o : OpId) (call : Call) : Msg :=
  .send ⟨.payload (call.relayPayload opts), .op o⟩

@[simp] theorem Call.first_by? (opts : ClientOpts) (o : OpId) (call : Call) :
    (call.first opts o).by? = some o := rfl

/-- The shapes of a waiter: of a send, of an ask and of a reply. -/
theorem Call.waiter_eq_ok {call : Call} {o : OpId} {m : Msg}
    (h : call.waiter o = some (.ok m)) :
    (∃ msg, call = .send msg call.seq ∧ msg.qos = .atLeastOnce ∧ m = .waitForAck msg o call.seq) ∨
    (∃ msg, call = .ask msg call.seq ∧ m = .waitForReply msg o call.seq) ∨
    ∃ on payload targetType, call = .reply on payload .atLeastOnce ∧
      EntityType.tryFrom on.from_.entityType = some targetType ∧
      m = .waitForAck ⟨targetType, payload, on.from_.id, on.from_.namespace_, .atLeastOnce⟩ o
        call.seq := by
  cases call with
  | send msg seq =>
    cases hq : msg.qos <;> simp only [waiter, hq] at h <;> cases h
    exact .inl ⟨msg, rfl, hq, rfl⟩
  | ask msg seq =>
    cases h
    exact .inr (.inl ⟨msg, rfl, rfl⟩)
  | reply on payload qos =>
    cases qos with
    | atMostOnce => cases h
    | atLeastOnce =>
      simp only [waiter] at h
      split at h <;> cases h
      next targetType ht => exact .inr (.inr ⟨on, payload, targetType, rfl, ht, rfl⟩)

theorem Call.waiter_by? {call : Call} {o : OpId} {m : Msg}
    (h : call.waiter o = some (.ok m)) : m.by? = some o := by
  rcases call.waiter_eq_ok h with ⟨msg, -, -, rfl⟩ | ⟨msg, -, rfl⟩ | ⟨on, payload, t, -, -, rfl⟩ <;>
    rfl

theorem Call.waiter_timer {call : Call} {o : OpId} {m : Msg}
    (h : call.waiter o = some (.ok m)) : m.timer = false := by
  rcases call.waiter_eq_ok h with ⟨msg, -, -, rfl⟩ | ⟨msg, -, rfl⟩ | ⟨on, payload, t, -, -, rfl⟩ <;>
    rfl

theorem Call.waiter_isSend {call : Call} {o : OpId} {m : Msg}
    (h : call.waiter o = some (.ok m)) : m.isSend = false := by
  rcases call.waiter_eq_ok h with ⟨msg, -, -, rfl⟩ | ⟨msg, -, rfl⟩ | ⟨on, payload, t, -, -, rfl⟩ <;>
    rfl

/-- Only asks wait for a reply. -/
theorem Call.ask_of_waiter {call : Call} {o o' : OpId} {msg : SendMessage} {k : Seq}
    (h : call.waiter o = some (.ok (.waitForReply msg o' k))) : call = .ask msg k := by
  rcases call.waiter_eq_ok h with ⟨_, -, -, hm⟩ | ⟨_, hc, hm⟩ | ⟨_, _, _, -, -, hm⟩
  · cases hm
  · cases hm
    exact hc
  · cases hm

/-- The retry of a registered call is the frame of its `Send`. -/
theorem Call.relayPayload_of_waiter {opts : ClientOpts} {call : Call} {o o₁ : OpId}
    {msg : SendMessage} {seq : Seq}
    (hw : call.waiter o = some (.ok (.waitForAck msg o₁ seq)) ∨
      call.waiter o = some (.ok (.waitForReply msg o₁ seq))) :
    Client.relayPayload opts msg seq = call.relayPayload opts := by
  rcases hw with hw | hw
  · rcases call.waiter_eq_ok hw with ⟨msg', hc, -, hm⟩ | ⟨msg', hc, hm⟩ |
      ⟨on, payload, t, hc, ht, hm⟩
    · cases hm
      rw [hc]
      rfl
    · cases hm
    · cases hm
      rw [hc]
      simp only [Call.relayPayload, Client.relayPayload, EntityType.toI32_of_tryFrom ht]
      rfl
  · rw [call.ask_of_waiter hw]
    rfl

/-- What a call that stands at `pc` has enqueued so far. -/
inductive Issued (opts : ClientOpts) (o : OpId) (call : Call) : Pc → List Msg → Prop where
  | enqueue : Issued opts o call .enqueue []
  | register (hw : (call.waiter o).isSome) : Issued opts o call .register [call.first opts o]
  | wait (m : Msg) (hw : call.waiter o = some (.ok m)) :
      Issued opts o call .wait [call.first opts o, m]
  | over₀ (pc : Pc) (hpc : Op.finished ⟨call, pc⟩ = true) : Issued opts o call pc []
  | over₁ (pc : Pc) (hpc : Op.finished ⟨call, pc⟩ = true) :
      Issued opts o call pc [call.first opts o]
  | over₂ (pc : Pc) (hpc : Op.finished ⟨call, pc⟩ = true) (m : Msg)
      (hw : call.waiter o = some (.ok m)) : Issued opts o call pc [call.first opts o, m]

theorem Issued.of_enqueue {opts : ClientOpts} {o : OpId} {call : Call} {l : List Msg}
    (h : Issued opts o call .enqueue l) : l = [] := by
  cases h with
  | enqueue => rfl
  | over₀ _ hpc => rfl
  | over₁ _ hpc => cases hpc
  | over₂ _ hpc => cases hpc

theorem Issued.of_register {opts : ClientOpts} {o : OpId} {call : Call} {l : List Msg}
    (h : Issued opts o call .register l) :
    l = [call.first opts o] ∧ (call.waiter o).isSome := by
  cases h with
  | register hw => exact ⟨rfl, hw⟩
  | over₀ _ hpc => cases hpc
  | over₁ _ hpc => cases hpc
  | over₂ _ hpc => cases hpc

theorem Issued.of_wait {opts : ClientOpts} {o : OpId} {call : Call} {l : List Msg}
    (h : Issued opts o call .wait l) :
    ∃ m, call.waiter o = some (.ok m) ∧ l = [call.first opts o, m] := by
  cases h with
  | wait m hw => exact ⟨m, hw, rfl⟩
  | over₀ _ hpc => cases hpc
  | over₁ _ hpc => cases hpc
  | over₂ _ hpc => cases hpc

theorem Issued.shape {opts : ClientOpts} {o : OpId} {call : Call} {pc : Pc} {l : List Msg}
    (h : Issued opts o call pc l) :
    l = [] ∨ l = [call.first opts o] ∨
      ∃ m, call.waiter o = some (.ok m) ∧ l = [call.first opts o, m] := by
  cases h with
  | enqueue => exact .inl rfl
  | register hw => exact .inr (.inl rfl)
  | wait m hw => exact .inr (.inr ⟨m, hw, rfl⟩)
  | over₀ _ hpc => exact .inl rfl
  | over₁ _ hpc => exact .inr (.inl rfl)
  | over₂ _ hpc m hw => exact .inr (.inr ⟨m, hw, rfl⟩)

theorem Issued.finish {opts : ClientOpts} {o : OpId} {call : Call} {pc pc' : Pc} {l : List Msg}
    (h : Issued opts o call pc l) (hpc : Op.finished ⟨call, pc'⟩ = true) :
    Issued opts o call pc' l := by
  rcases h.shape with rfl | rfl | ⟨m, hw, rfl⟩
  · exact .over₀ pc' hpc
  · exact .over₁ pc' hpc
  · exact .over₂ pc' hpc m hw

namespace Exchange

variable {opts : ClientOpts} {e e' : Exchange} {l : Option Msg}

/-- Everything that was ever put into the actor's queue or read from the stream. -/
def trail (e : Exchange) : List Msg := e.handled ++ e.actorRx

/-- The part of it that one call has put there. -/
def issued (e : Exchange) (o : OpId) : List Msg := e.trail.filter fun m => m.by? = some o

theorem trail_post (e : Exchange) (m : Msg) : (e.post m).trail = e.trail ++ [m] := by
  simp [trail, post]

theorem issued_post (e : Exchange) (m : Msg) (o : OpId) :
    (e.post m).issued o = e.issued o ++ [m].filter fun m => m.by? = some o := by
  simp [issued, trail_post]

theorem issued_post_none (e : Exchange) {m : Msg} (hm : m.by? = none) (o : OpId) :
    (e.post m).issued o = e.issued o := by
  simp [issued_post, hm]

theorem trail_take {m : Msg} {rest : List Msg} (hq : e.actorRx = m :: rest) :
    ({ e with actorRx := rest }.note m).trail = e.trail := by
  simp [trail, note, hq]

theorem trail_handled {m : Msg} (h : Handled opts e m e') : e'.trail = e.trail := by
  simp only [trail, h.actorRx, h.handled]

theorem issued_read {m : ResponseMsg} {tag : Tag} (hq : e.actorRx = []) (o : OpId) :
    (e.note (.relayResponse m tag)).issued o = e.issued o := by
  simp [issued, trail, note, hq, Msg.by?]

/-- No move but that of a call changes the calls or what they have enqueued. -/
theorem Moves.called_or (h : e.Moves opts l e') (ht : ∀ m ∈ e.sleeping, m.timer = true) :
    Called opts e e' ∧ l = none ∨ e'.ops = e.ops ∧ ∀ o, e'.issued o = e.issued o := by
  cases h with
  | called h => exact .inl ⟨h, rfl⟩
  | fire i msg hm =>
    exact .inr ⟨rfl, fun o => issued_post_none _ (Msg.by?_timer (ht _ (List.mem_of_getElem? hm))) o⟩
  | forward msg tag => exact .inr ⟨rfl, fun o => issued_post_none _ rfl o⟩
  | take msg rest hq h =>
    exact .inr ⟨h.ops, fun o => by rw [issued, trail_handled h, trail_take hq, issued]⟩
  | takeFail msg rest p hq hf hp =>
    exact .inr ⟨rfl, fun o => congrArg (List.filter _) (trail_take hq)⟩
  | read msg tag hq h =>
    exact .inr ⟨h.ops, fun o => by rw [issued, trail_handled h, ← issued, issued_read hq]⟩
  | readFail msg tag p hq hf hp => exact .inr ⟨rfl, issued_read hq⟩
  | _ => exact .inr ⟨rfl, fun _ => rfl⟩

/-- Every call has enqueued what its task stands for, and nothing else is in the
trail under its name. -/
structure Accounted (opts : ClientOpts) (e : Exchange) : Prop where
  timers : ∀ m ∈ e.sleeping, m.timer = true
  calls : ∀ o op, e.ops[o]? = some op → Issued opts o op.call op.pc (e.issued o)
  absent : ∀ o, e.ops[o]? = none → e.issued o = []

theorem setPc_get {o : OpId} {op : Op} {pc : Pc} (ho : e.ops[o]? = some op) (j : OpId) :
    (e.setPc o op pc).ops[j]? = if o = j then some ⟨op.call, pc⟩ else e.ops[j]? := by
  have hlt := (List.getElem?_eq_some_iff.mp ho).1
  simp only [setPc, List.getElem?_set, hlt, if_true]

/-- A new call, or one that was there before. -/
theorem open_get {e₁ : Exchange} {call : Call} (hops : e₁.ops = e.ops ++ [⟨call, .enqueue⟩])
    {j : OpId} {op : Op} (hj : e₁.ops[j]? = some op) :
    e.ops[j]? = some op ∨ e.ops[j]? = none ∧ op = ⟨call, .enqueue⟩ := by
  rw [hops, List.getElem?_append] at hj
  split_ifs at hj with hlt
  · exact .inl hj
  · rw [List.getElem?_singleton] at hj
    split_ifs at hj
    cases hj
    exact .inr ⟨List.getElem?_eq_none (Nat.le_of_not_lt hlt), rfl⟩

/-- A move that changes at most the task of one call, and what it has enqueued. -/
theorem Accounted.setPc {e₁ : Exchange} {o : OpId} {op : Op} {pc : Pc} (h : e.Accounted opts)
    (ho : e.ops[o]? = some op) (hops : e₁.ops = e.ops) (hs : e₁.sleeping = e.sleeping)
    (hother : ∀ j, j ≠ o → e₁.issued j = e.issued j)
    (hown : Issued opts o op.call pc (e₁.issued o)) : (e₁.setPc o op pc).Accounted opts := by
  have ho₁ : e₁.ops[o]? = some op := hops ▸ ho
  refine ⟨fun m hm => h.timers m (hs ▸ hm), fun j opj hj => ?_, fun j hj => ?_⟩
  · rw [setPc_get ho₁] at hj
    split_ifs at hj with hoj
    · subst hoj
      cases hj
      exact hown
    · have := h.calls j opj (hops ▸ hj)
      rwa [← hother j (Ne.symm hoj)] at this
  · rw [setPc_get ho₁] at hj
    split_ifs at hj with hoj
    exact (hother j (Ne.symm hoj)).trans (h.absent j (hops ▸ hj))

theorem Accounted.open {e₁ : Exchange} {call : Call} (h : e.Accounted opts)
    (hops : e₁.ops = e.ops ++ [⟨call, .enqueue⟩]) (hs : e₁.sleeping = e.sleeping)
    (hi : ∀ j, e₁.issued j = e.issued j) : e₁.Accounted opts := by
  refine ⟨fun m hm => h.timers m (hs ▸ hm), fun j opj hj => ?_, fun j hj => ?_⟩
  · rw [hi]
    rcases open_get hops hj with hj | ⟨hnone, rfl⟩
    · exact h.calls j opj hj
    · rw [h.absent j hnone]
      exact .enqueue
  · rw [hi]
    refine h.absent j ?_
    rw [List.getElem?_eq_none_iff] at hj ⊢
    rw [hops] at hj
    simp only [List.length_append] at hj
    omega

theorem Accounted.called (h : e.Accounted opts) (hc : Called opts e e') : e'.Accounted opts := by
  cases hc with
  | own call hc hs => exact h.open rfl rfl fun _ => rfl
  | reply on payload qos hr => exact h.open rfl rfl fun _ => rfl
  | enqueue o op pc ho hpc hpc' =>
    have hi := h.calls o op ho
    rw [hpc] at hi
    refine h.setPc ho rfl rfl (fun j hj => ?_) ?_
    · rw [issued_post]
      simp [Msg.by?, hj.symm]
    · rw [issued_post, hi.of_enqueue]
      rcases hpc' with ⟨rfl, hw⟩ | ⟨rfl, -⟩
      · simpa [Msg.by?, Call.first] using Issued.register hw
      · simpa [Msg.by?, Call.first] using Issued.over₁ (.returned (.ok none)) rfl
  | register o op msg ho hpc hw =>
    have hi := h.calls o op ho
    rw [hpc] at hi
    refine h.setPc ho rfl rfl (fun j hj => ?_) ?_
    · rw [issued_post]
      simp [Call.waiter_by? hw, hj.symm]
    · rw [issued_post, hi.of_register.1]
      simpa [Call.waiter_by? hw] using Issued.wait msg hw
  | finish o op result ho hpc hr =>
    exact h.setPc ho rfl rfl (fun _ _ => rfl) ((h.calls o op ho).finish rfl)
  | abandon o op pc ho hpc hpc' =>
    refine h.setPc ho rfl rfl (fun _ _ => rfl) ((h.calls o op ho).finish ?_)
    rcases hpc' with rfl | ⟨err, rfl⟩ <;> rfl
  | recv msg rest hm => exact ⟨h.timers, h.calls, h.absent⟩
  | control msg hm =>
    have hb : msg.by? = none := by rcases hm with rfl | rfl <;> rfl
    refine ⟨h.timers, fun j op hj => ?_, fun j hj => ?_⟩
    · rw [issued_post_none e hb]
      exact h.calls j op hj
    · rw [issued_post_none e hb]
      exact h.absent j hj
  | release => exact ⟨h.timers, h.calls, h.absent⟩

theorem Accounted.congr (h : e.Accounted opts) (ht : ∀ m ∈ e'.sleeping, m.timer = true)
    (hops : e'.ops = e.ops) (hi : ∀ o, e'.issued o = e.issued o) : e'.Accounted opts :=
  ⟨ht, fun o op ho => by rw [hi]; exact h.calls o op (hops ▸ ho),
    fun o ho => by rw [hi]; exact h.absent o (hops ▸ ho)⟩

theorem Accounted.moves (h : e.Accounted opts) (hm : e.Moves opts l e') : e'.Accounted opts := by
  rcases hm.called_or h.timers with ⟨hc, -⟩ | ⟨hops, hi⟩
  · exact h.called hc
  · exact h.congr (fun m hmem => (hm.sleeping hmem).elim (h.timers m) id) hops hi

theorem accounted_initial (opts : ClientOpts) : initial.Accounted opts := by
  constructor <;> simp [initial, issued, trail]

end Exchange

theorem System.accounted_of_reachable {opts : ClientOpts} {token : String} {s : System}
    (h : Reachable (System.step opts) (initial token) s) : s.exchange.Accounted opts :=
  h.invariant (P := fun s => s.exchange.Accounted opts) (Exchange.accounted_initial opts)
    fun _ _ _ _ hp hs => hp.moves (moves_of_step hs)

end OrbRelay.Client
