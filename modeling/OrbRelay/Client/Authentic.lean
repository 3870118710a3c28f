import OrbRelay.Client.Deliveries
import OrbRelay.Client.Inbound
import OrbRelay.Client.Network

/-!
# Who a message is from

A relay that forwards frames unmodified vouches for their sources. What `recv` gives, and
what an ask returns, was made for this very client by a call of the client whose id it
bears. Which call that was an ask cannot tell: its own number is all it asks for.
-/
namespace OrbRelay.Client
open Encoding Transition

/-! ## What is sent -/

/-- A frame of client `opts`: a payload of a call, a heartbeat, or a connect request that
announces the client itself. -/
inductive Frame.Own (opts : ClientOpts) : Frame → Prop where
  | payload (p : RelayPayload) (o : OpId) : Own opts ⟨.payload p, .op o⟩
  | heartbeat : Own opts ⟨.heartbeat 0, .heartbeat⟩
  | connect (auth : Option AuthMethod) (n : ℕ) :
      Own opts ⟨.connectRequest ⟨some opts.entity, auth⟩, .connect n⟩

/-- All frames that were pushed or are to be sent. -/
structure Exchange.AllOwn (opts : ClientOpts) (e : Exchange) : Prop where
  pushed : ∀ f ∈ e.tonic.pushed, f.Own opts
  queued : ∀ f, .send f ∈ e.actorRx → f.Own opts

section

variable {opts : ClientOpts} {e e' : Exchange} {l : Option Msg}

theorem Exchange.AllOwn.pushes {p : Tonic Frame} {f : Frame} (h : e.AllOwn opts) (hf : f.Own opts)
    (hp : p.pushed = e.tonic.pushed ++ [f]) : ∀ f ∈ p.pushed, f.Own opts := by
  intro g hg
  rw [hp] at hg
  rcases List.mem_append.mp hg with hg | hg
  · exact h.pushed g hg
  · exact List.mem_singleton.mp hg ▸ hf

theorem Exchange.AllOwn.handled {m : Msg} (h : e.AllOwn opts)
    (hm : ∀ f, m = .send f → f.Own opts) (hh : Handled opts e m e') : e'.AllOwn opts := by
  refine ⟨?_, fun f hf => h.queued f (hh.actorRx ▸ hf)⟩
  cases hh with
  | send f => exact h.pushes (hm f rfl) rfl
  | retryAck seq left msg o hp hl => exact h.pushes (.payload _ o) rfl
  | retryAsk id seq left msg o hp hl => exact h.pushes (.payload _ o) rfl
  | heartbeat => exact h.pushes .heartbeat rfl
  | _ => exact h.pushed

theorem Exchange.AllOwn.posted {m : Msg} (h : e.AllOwn opts) (hm : ∀ f, m = .send f → f.Own opts) :
    (e.post m).AllOwn opts := by
  refine ⟨h.pushed, fun f hf => ?_⟩
  rcases List.mem_append.mp hf with hf | hf
  · exact h.queued f hf
  · exact hm f (List.mem_singleton.mp hf).symm

theorem Exchange.AllOwn.called (h : e.AllOwn opts) (hc : e.Called opts e') : e'.AllOwn opts := by
  cases hc with
  | enqueue o op pc ho hpc hpc' =>
    have hpost := h.posted (m := .send ⟨.payload (op.call.relayPayload opts), .op o⟩)
      fun f hf => by cases hf; exact .payload _ o
    exact ⟨hpost.pushed, hpost.queued⟩
  | register o op m ho hpc hw =>
    have hpost := h.posted (m := m) fun f hf => by
      subst hf
      exact absurd hw (op.call.waiter_ne_send o f)
    exact ⟨hpost.pushed, hpost.queued⟩
  | control m hc =>
    exact h.posted fun f hf => by rcases hc with rfl | rfl <;> cases hf
  | _ => exact ⟨h.pushed, h.queued⟩

theorem Exchange.AllOwn.moves (h : e.AllOwn opts) (ht : ∀ m ∈ e.sleeping, m.timer = true)
    (hm : e.Moves opts l e')
    (hd : ∀ request n, e'.tonic.pushed = e.tonic.pushed ++ [⟨.connectRequest request, .connect n⟩] →
      Frame.Own opts ⟨.connectRequest request, .connect n⟩) : e'.AllOwn opts := by
  have hrest {m : Msg} {rest : List Msg} (hq : e.actorRx = m :: rest) :
      ∀ f, .send f ∈ rest → f.Own opts := fun f hf => h.queued f (hq ▸ List.mem_cons_of_mem m hf)
  cases hm with
  | stay => exact h
  | tonic p hp => exact ⟨fun f hf => h.pushed f (hp ▸ hf), h.queued⟩
  | dial p request n hp => exact ⟨h.pushes (hd request n hp) hp, h.queued⟩
  | heartbeat hs => exact ⟨h.pushed, h.queued⟩
  | called hc => exact h.called hc
  | fire i msg hi =>
    have htimer := ht msg (List.mem_of_getElem? hi)
    have hpost := h.posted (m := msg) fun f hf => by
      subst hf
      cases htimer
    exact ⟨hpost.pushed, hpost.queued⟩
  | forward msg tag => exact h.posted fun f hf => by cases hf
  | take msg rest hq hh =>
    have htaken : ({ e with actorRx := rest }.note msg).AllOwn opts := ⟨h.pushed, hrest hq⟩
    exact htaken.handled (fun f hf => h.queued f (hq ▸ hf ▸ List.mem_cons_self)) hh
  | takeFail msg rest p hq hf hp => exact ⟨fun f hf => h.pushed f (hp ▸ hf), hrest hq⟩
  | read msg tag hq hh =>
    have hnoted : (e.note (.relayResponse msg tag)).AllOwn opts := ⟨h.pushed, h.queued⟩
    exact hnoted.handled (fun f hf => by cases hf) hh
  | readFail msg tag p hq hf hp => exact ⟨fun f hf => h.pushed f (hp ▸ hf), h.queued⟩

end

namespace System

variable {opts : ClientOpts} {token : String} {s s' : System} {a : Action}

/-- The only connect request that a step pushes is made by `connect`. -/
theorem own_of_dial {request : ConnectRequest} {n : ℕ} (hl : s.Link opts a s')
    (hsends : ∀ f, .send f ∈ s.exchange.actorRx → ∀ n, f.origin ≠ .connect n)
    (hp : s'.exchange.tonic.pushed =
      s.exchange.tonic.pushed ++ [⟨.connectRequest request, .connect n⟩]) :
    Frame.Own opts ⟨.connectRequest request, .connect n⟩ := by
  have hsame : s'.exchange.tonic.pushed ≠ s.exchange.tonic.pushed := by
    rw [hp]
    simp
  cases hl with
  | dial r hph hr =>
    have hlast := List.singleton_inj.mp (List.append_cancel_left hp)
    cases hlast
    unfold connectRequest at hr
    split at hr
    · cases hr
      exact .connect _ _
    · cases hr
      exact .connect _ _
    · cases hr
  | push f hk ht hf =>
    rw [ht] at hp
    obtain rfl := List.singleton_inj.mp (List.append_cancel_left hp)
    exact (hf.elim (fun hf => hsends _ hf n) fun hf => hf n) rfl |>.elim
  | quiet hk ht => exact absurd (congrArg Tonic.pushed ht) hsame
  | tonic p hm => exact absurd (by cases hm <;> rfl) hsame
  | fail hph ha hc hh ht => exact absurd (congrArg Tonic.pushed ht) hsame
  | accept hph he hp' ha hc ht hh => exact absurd (congrArg Tonic.pushed ht) hsame
  | eof hph hp' ha hc ht hh => exact absurd (congrArg Tonic.pushed ht) hsame
  | _ => exact absurd rfl hsame

theorem allOwn_of_reachable (h : Reachable (step opts) (initial token) s) :
    s.exchange.AllOwn opts := by
  refine h.invariant (P := fun s => s.exchange.AllOwn opts)
    ⟨by simp [initial, Exchange.initial, Tonic.empty], by simp [initial, Exchange.initial]⟩
    fun u v a hr hu hs => ?_
  have hserving := serving_of_reachable hr
  exact hu.moves hserving.timers (moves_of_step hs) fun request n hp =>
    own_of_dial (link_of_step hs) hserving.sends hp

theorem own_of_yielded (h : Reachable (step opts) (initial token) s) {w : Forwarder Frame}
    (hw : w ∈ s.exchange.tonic.streams) {f : Frame} (hf : f ∈ w.yielded) : f.Own opts := by
  have hmem : f ∈ s.exchange.yielded := List.mem_flatMap.mpr ⟨w, hw, hf⟩
  have hsub := (Exchange.yielded_sublist (serving_of_reachable h).inv).subset hmem
  exact (allOwn_of_reachable h).pushed f hsub

end System

/-! ## Streams stay -/

theorem Forwarder.Moves.yielded_kept {T : Type*} {w w' : Forwarder T} (h : w.Moves w') :
    w.yielded <+: w'.yielded := by
  cases h with
  | yield_ x rest hd hb => exact List.prefix_append _ _
  | _ => exact List.prefix_rfl

theorem Tonic.Moves.stream_kept {T : Type*} {p p' : Tonic T} (h : p.Moves p') {k : ℕ}
    {w : Forwarder T} (hk : p.streams[k]? = some w) :
    ∃ w', p'.streams[k]? = some w' ∧ w'.token = w.token ∧ w.yielded <+: w'.yielded := by
  have hset {j : ℕ} {v v' : Forwarder T} (hj : p.streams[j]? = some v)
      (ht : v'.token = v.token) (hy : v.yielded <+: v'.yielded) :
      ∃ w', (p.streams.set j v')[k]? = some w' ∧ w'.token = w.token ∧ w.yielded <+: w'.yielded := by
    by_cases hjk : j = k
    · subst hjk
      obtain rfl := Option.some.inj (hj.symm.trans hk)
      exact ⟨v', List.getElem?_set_self (List.getElem?_eq_some_iff.mp hk).1, ht, hy⟩
    · exact ⟨w, (List.getElem?_set_ne hjk).trans hk, rfl, List.prefix_rfl⟩
  cases h with
  | stay => exact ⟨w, hk, rfl, List.prefix_rfl⟩
  | forwarder j v v' hj hm => exact hset hj hm.same.1 hm.yielded_kept
  | take j v x rest hj hc hh hq => exact hset hj rfl List.prefix_rfl

namespace System

variable {opts : ClientOpts} {s s' : System} {a : Action}

/-- A stream keeps its place and its token, and what it has yielded. -/
theorem stream_kept (h : s.step opts a = some s') {k : ℕ} {w : Forwarder Frame}
    (hk : s.exchange.tonic.streams[k]? = some w) :
    ∃ w', s'.exchange.tonic.streams[k]? = some w' ∧ w'.token = w.token ∧
      w.yielded <+: w'.yielded := by
  have hsame {p : Tonic Frame} (hp : p.streams[k]? = some w) :
      ∃ w', p.streams[k]? = some w' ∧ w'.token = w.token ∧ w.yielded <+: w'.yielded :=
    ⟨w, hp, rfl, List.prefix_rfl⟩
  cases link_of_step h with
  | quiet hkept ht => exact hsame (ht ▸ hk)
  | push f hkept ht hf => exact hsame (ht ▸ hk)
  | tonic p hm => exact hm.stream_kept hk
  | enter hp => exact hsame hk
  | halt p hp => exact hsame hk
  | fail hp ha hc hh ht =>
    rw [ht]
    have hget : (s.exchange.tonic.cancel s.attempt).streams[k]? =
        some (if w.token = s.attempt then { w with cancelled := true } else w) := by
      simp [Tonic.cancel, hk]
    refine ⟨_, hget, ?_⟩
    split_ifs <;> exact ⟨rfl, List.prefix_rfl⟩
  | dial request hp hr =>
    have hlt := (List.getElem?_eq_some_iff.mp hk).1
    exact hsame ((List.getElem?_append_left hlt).trans hk)
  | call hp => exact hsame hk
  | accept hp he hp' ha hc ht hh => exact hsame (ht ▸ hk)
  | eof hp hp' ha hc ht hh => exact hsame (ht ▸ hk)

end System

/-! ## What is heard -/

namespace Exchange

variable {opts : ClientOpts} {e e' : Exchange} {l : Option Msg}

theorem trail_of_heard {msg : ResponseMsg} {tag : Tag} (h : (msg, tag) ∈ e.heard) :
    .relayResponse msg tag ∈ e.trail := by
  obtain ⟨m, hm, heq⟩ := List.mem_filterMap.mp h
  unfold Msg.heard? at heq
  split at heq
  · split_ifs at heq
    cases heq
    exact hm
  · cases heq

/-- What the waiters were sent has been handled. -/
def AnswersHeard (e : Exchange) : Prop :=
  ∀ x ∈ e.answered, e.Heard x.2.from_ x.2.payload x.2.seq x.2.tag

theorem AnswersHeard.moves (h : e.AnswersHeard) (hm : e.Moves opts l e') : e'.AnswersHeard := by
  have hsub : e.handled ⊆ e'.handled := by
    rw [hm.handled]
    exact List.subset_append_left _ _
  have hh := hm.handled
  have hkeep (ha : e'.answered = e.answered) : e'.AnswersHeard := fun x hx =>
    (h x (ha ▸ hx)).mono hsub
  cases hm.hands with
  | answer entity dst seq payload tag msg o hp hc hr ha =>
    intro x hx
    rw [ha] at hx
    rcases List.mem_append.mp hx with hx | hx
    · exact (h x hx).mono hsub
    · rw [List.mem_singleton.mp hx]
      exact ⟨dst, payload.typeUrl, by simp [hh]⟩
  | deliver entity dst seq payload tag hp hc hr ha => exact hkeep ha
  | recv x hc hr ha => exact hkeep ha
  | keep hc hr ha hp => exact hkeep ha

end Exchange

theorem System.answersHeard_of_reachable {opts : ClientOpts} {token : String} {s : System}
    (h : Reachable (step opts) (initial token) s) : s.exchange.AnswersHeard :=
  h.invariant (P := fun s => s.exchange.AnswersHeard)
    (by simp [Exchange.AnswersHeard, initial, Exchange.initial])
    fun _ _ _ _ hp hs => hp.moves (moves_of_step hs)

namespace Members

variable {ι : Type*} [DecidableEq ι] {M : Members ι} {n : ι → System} {i : ι}

/-- A call of client `j` was made for client `i`, and this is its payload. -/
structure MadeBy (M : Members ι) (n : ι → System) (i j : ι) (from_ : Entity) (payload : Bytes)
    (seq : Seq) (tag : Tag) (call : Call) : Prop where
  made : (n j).exchange.calls[tag.op]? = some call
  client : tag.client = (M.opts j).clientId
  from_ : from_ = (M.opts j).entity
  target : call.targetId = (M.opts i).clientId
  payload : payload = call.data
  seq : seq = call.seq

theorem madeBy_of_heard (hr : Reachable M.step M.initial n) {from_ : Entity} {payload : Bytes}
    {seq : Seq} {tag : Tag} (h : (n i).exchange.Heard from_ payload seq tag) :
    ∃ j call, M.MadeBy n i j from_ payload seq tag call := by
  obtain ⟨dst, url, hh⟩ := h
  obtain ⟨j, call, htag, hcall, hp, htarget⟩ :=
    genuine_of_reachable hr i _ _ (List.mem_append_left _ hh)
  obtain ⟨dst', -, heq⟩ := call.relayPayload_eq (M.opts j)
  rw [heq] at hp
  simp only [RelayPayload.mk.injEq, Option.some.injEq, Any.mk.injEq] at hp
  exact ⟨j, call, hcall, htag, hp.1, htarget, hp.2.2.2.2, hp.2.2.1⟩

/-- Every received message comes from the client that it names, and every ask returns
what a call of its target has addressed to the asking client under the ask's number. -/
structure Authentic (M : Members ι) (n : ι → System) : Prop where
  received : ∀ i, ∀ msg ∈ (n i).exchange.received,
    ∃ j call, M.MadeBy n i j msg.from_ msg.payload msg.seq msg.tag call
  returned : ∀ (i : ι) (o : OpId) (op : Op) (msg : SendMessage) (seq : Seq) result,
    (n i).exchange.ops[o]? = some op → op.call = .ask msg seq → op.pc = .returned (.ok result) →
      ∃ payload from_ tag j call, result = some payload ∧ (M.opts j).clientId = msg.targetId ∧
        M.MadeBy n i j from_ payload seq tag call

theorem authentic_of_reachable (hr : Reachable M.step M.initial n) : M.Authentic n := by
  refine ⟨fun i msg hmsg => ?_, fun i o op msg seq result ho hcall hpc => ?_⟩
  · exact madeBy_of_heard hr ((System.delivered_of_reachable (client_reachable hr i)).received
      msg hmsg)
  have hc := client_reachable hr i
  have hb := System.booked_of_reachable hc
  have ha := System.accounted_of_reachable hc
  rcases System.settled_of_reachable hc o op result ho hpc (by rw [hcall]; rfl) with
    ⟨⟨x, hx, rfl, hres⟩, -⟩ | hacked
  · obtain ⟨msg', hw, hid⟩ := hb.answered x hx
    obtain ⟨op', ho', hwait⟩ := ha.waiter_of_handled hw rfl rfl
    obtain rfl := Option.some.inj (ho.symm.trans ho')
    rw [hcall] at hwait
    cases hwait
    obtain ⟨j, call, hmade⟩ := madeBy_of_heard hr (System.answersHeard_of_reachable hc x hx)
    refine ⟨x.2.payload, x.2.from_, x.2.tag, j, call, hres, ?_, hmade⟩
    rw [← hid, hmade.from_]
    rfl
  · -- the channel of an ask holds no ack
    obtain ⟨msg', k, hw⟩ := hb.acked o hacked
    obtain ⟨op', ho', hwait⟩ := ha.waiter_of_handled hw rfl rfl
    obtain rfl := Option.some.inj (ho.symm.trans ho')
    rw [hcall] at hwait
    cases hwait

/-- The ask that is answered with a message of the orb's own is answered by the orb. -/
theorem orbSends_authentic :
    ∃ t, Reachable appAndOrb.step appAndOrb.initial t ∧
      appAnswers t = [(0, [3], ⟨"orb", 0⟩)] ∧ appAndOrb.Authentic t := by
  have he : (exec appAndOrb.step appAndOrb.initial (appAsks ++ orbSends)).map appAnswers =
      some [(0, [3], ⟨"orb", 0⟩)] := by decide
  obtain ⟨tr, t, h, hp⟩ := Run.of_exec_map he
  exact ⟨t, ⟨tr, h⟩, hp, authentic_of_reachable ⟨tr, h⟩⟩

end Members
end OrbRelay.Client
