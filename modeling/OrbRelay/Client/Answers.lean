import OrbRelay.Client.Traffic

/-!
# The calls of a client and the payloads it hears

Sends and asks are numbered in turn, up to the size of the counter. What `recv` and
the reply channels hand out are payloads that the actor has handled.
-/
namespace OrbRelay.Client
open Encoding Transition

namespace Exchange

variable {opts : ClientOpts} {e e' : Exchange} {l : Option Msg} {o o' : OpId} {call call' : Call}

/-- The calls that were made on the client, in order. -/
def calls (e : Exchange) : List Call := e.ops.map Op.call

theorem calls_get {op : Op} (ho : e.ops[o]? = some op) : e.calls[o]? = some op.call := by
  simp [calls, ho]

theorem calls_setPc {op : Op} (pc : Pc) (ho : e.ops[o]? = some op) :
    (e.setPc o op pc).calls = e.calls := by
  obtain ⟨hlt, hop⟩ := List.getElem?_eq_some_iff.mp (calls_get ho)
  change (e.ops.set o ⟨op.call, pc⟩).map Op.call = e.calls
  rw [List.map_set, ← hop]
  exact List.set_getElem_self hlt

/-- Either nothing is called, or one call is added: a send or an ask under the next
number, or a reply to a received message. -/
inductive Adds (e e' : Exchange) : Prop where
  | none (hc : e'.calls = e.calls) (hs : e'.seq = e.seq)
  | own (call : Call) (hc : e'.calls = e.calls ++ [call]) (ho : call.own = true)
      (hq : call.seq = e.seq) (hs : e'.seq = e.seq + 1)
  | reply (on : RecvMessage) (payload : Bytes) (qos : QoS)
      (hc : e'.calls = e.calls ++ [.reply on payload qos]) (hr : on ∈ e.received)
      (hs : e'.seq = e.seq)

theorem Called.adds (h : Called opts e e') : Adds e e' := by
  cases h with
  | own call hc hs => exact .own call (by simp [calls]) hc hs rfl
  | reply on payload qos hr => exact .reply on payload qos (by simp [calls]) hr rfl
  | enqueue o op pc ho hpc hpc' => exact .none (calls_setPc (e := e.post _) pc ho) rfl
  | register o op msg ho hpc hw => exact .none (calls_setPc (e := e.post msg) .wait ho) rfl
  | finish o op result ho hpc hr => exact .none (calls_setPc _ ho) rfl
  | abandon o op pc ho hpc hpc' => exact .none (calls_setPc pc ho) rfl
  | recv msg rest hm => exact .none rfl rfl
  | control msg hm => exact .none rfl rfl
  | release => exact .none rfl rfl

theorem Moves.adds (h : e.Moves opts l e') : Adds e e' := by
  cases h with
  | called h => exact h.adds
  | take msg rest hq h =>
    have hops := congrArg (List.map Op.call) h.ops
    exact .none hops (by cases h <;> rfl)
  | read msg tag hq h =>
    have hops := congrArg (List.map Op.call) h.ops
    exact .none hops (by cases h <;> rfl)
  | _ => exact .none rfl rfl

theorem Moves.calls_kept (h : e.Moves opts l e') : e.calls <+: e'.calls := by
  cases h.adds with
  | none hc hs => rw [hc]
  | own call hc ho hq hs => exact hc ▸ List.prefix_append _ _
  | reply on payload qos hc hr hs => exact hc ▸ List.prefix_append _ _

/-- Handling a message makes no calls. -/
theorem Moves.calls_of_handled {m : Msg} (h : e.Moves opts (some m) e') : e'.calls = e.calls := by
  cases h with
  | take msg rest hq h => exact congrArg (List.map Op.call) h.ops
  | takeFail msg rest p hq hf hp => rfl
  | read msg tag hq h => exact congrArg (List.map Op.call) h.ops
  | readFail msg tag p hq hf hp => rfl

theorem calls_get_kept (h : e.calls <+: e'.calls) (ho : e.calls[o]? = some call) :
    e'.calls[o]? = some call := by
  obtain ⟨more, hm⟩ := h
  rw [← hm, List.getElem?_append_left (List.getElem?_eq_some_iff.mp ho).1]
  exact ho

/-! ## Numbers -/

/-- The sends and asks among the first `o` calls. -/
def ownBefore (e : Exchange) (o : OpId) : ℕ := (e.calls.take o).countP Call.own

/-- The counter and the numbers of sends and asks count the sends and asks before. -/
structure Numbered (e : Exchange) : Prop where
  seq : e.seq = UInt64.ofNat (e.calls.countP Call.own)
  own : ∀ o call, e.calls[o]? = some call → call.own = true →
    call.seq = UInt64.ofNat (e.ownBefore o)

theorem ownBefore_kept (h : e.calls <+: e'.calls) (ho : e.calls[o]? = some call) :
    e'.ownBefore o = e.ownBefore o := by
  obtain ⟨more, hm⟩ := h
  have hlt := (List.getElem?_eq_some_iff.mp ho).1
  simp only [ownBefore, ← hm, List.take_append_of_le_length hlt.le]

theorem Numbered.append (h : e.Numbered) (hc : e'.calls = e.calls ++ [call])
    (hs : e'.seq = if call.own then e.seq + 1 else e.seq)
    (hq : call.own = true → call.seq = e.seq) : e'.Numbered := by
  have hpre : e.calls <+: e'.calls := hc ▸ List.prefix_append _ _
  refine ⟨?_, fun o call' ho hown => ?_⟩
  · rw [hs, hc, List.countP_append, h.seq]
    cases hown : call.own <;> simp [hown, UInt64.ofNat_add]
  · rcases Nat.lt_or_ge o e.calls.length with hlt | hge
    · have ho' : e.calls[o]? = some call' := by
        rw [hc, List.getElem?_append_left hlt] at ho
        exact ho
      rw [ownBefore_kept hpre ho']
      exact h.own o call' ho' hown
    · have hlast : e.calls.length = o := by
        have hlt := (List.getElem?_eq_some_iff.mp ho).1
        rw [hc, List.length_append, List.length_singleton] at hlt
        omega
      obtain rfl : call = call' := by simpa [hc, ← hlast] using ho
      rw [hq hown, h.seq, ownBefore, hc, List.take_left' hlast]

theorem Numbered.moves (h : e.Numbered) (hm : e.Moves opts l e') : e'.Numbered := by
  cases hm.adds with
  | none hc hs => exact ⟨by rw [hs, hc, h.seq], fun o call ho hown => by
      rw [hc] at ho
      rw [ownBefore, hc]
      exact h.own o call ho hown⟩
  | own call hc ho hq hs => exact h.append hc (by simp [ho, hs]) fun _ => hq
  | reply on payload qos hc hr hs => exact h.append hc (by simp [Call.own, hs]) (by simp [Call.own])

/-- Fewer sends and asks than there are numbers lie between two calls. -/
def near (e : Exchange) (o o' : OpId) : Prop :=
  e.ownBefore o < e.ownBefore o' + 2 ^ 64 ∧ e.ownBefore o' < e.ownBefore o + 2 ^ 64

theorem ownBefore_lt (h : o < o') (ho : e.calls[o]? = some call) (hown : call.own = true) :
    e.ownBefore o < e.ownBefore o' := by
  have hpre : e.calls.take o ++ [call] <+: e.calls.take o' := by
    have hsucc : e.calls.take (o + 1) = e.calls.take o ++ [call] := by simp [List.take_add_one, ho]
    exact hsucc ▸ List.take_prefix_take_left h
  have hle := hpre.sublist.countP_le (p := Call.own)
  rw [List.countP_append, List.countP_singleton, hown, if_pos rfl] at hle
  exact hle

theorem ownBefore_lt_count (ho : e.calls[o]? = some call) (hown : call.own = true) :
    e.ownBefore o < e.calls.countP Call.own := by
  have hlt := ownBefore_lt (List.getElem?_eq_some_iff.mp ho).1 ho hown
  rwa [ownBefore, ownBefore, List.take_length] at hlt

/-- Two sends or asks with one number are far apart. -/
theorem Numbered.eq_of_near (h : e.Numbered) (ho : e.calls[o]? = some call)
    (ho' : e.calls[o']? = some call') (hown : call.own = true) (hown' : call'.own = true)
    (hseq : call.seq = call'.seq) (hn : e.near o o') : o = o' := by
  have hmod : e.ownBefore o % 2 ^ 64 = e.ownBefore o' % 2 ^ 64 := by
    rw [h.own o call ho hown, h.own o' call' ho' hown'] at hseq
    simpa using congrArg UInt64.toNat hseq
  obtain ⟨hlt, hlt'⟩ := hn
  have heq : e.ownBefore o = e.ownBefore o' := by omega
  rcases Nat.lt_trichotomy o o' with hoo | hoo | hoo
  · exact absurd heq (ownBefore_lt hoo ho hown).ne
  · exact hoo
  · exact absurd heq (ownBefore_lt hoo ho' hown').ne'

/-! ## Payloads -/

/-- The actor has handled a payload from an entity. -/
def Heard (e : Exchange) (from_ : Entity) (payload : Bytes) (seq : Seq) (tag : Tag) : Prop :=
  ∃ dst url, .relayResponse (.payload ⟨some from_, dst, seq, some ⟨url, payload⟩⟩) tag ∈ e.handled

/-- What `recv` gives was handled, and replies are made on what it gave. -/
structure Delivered (e : Exchange) : Prop where
  queued : ∀ x ∈ e.clientRx, e.Heard x.from_ x.payload x.seq x.tag
  received : ∀ x ∈ e.received, e.Heard x.from_ x.payload x.seq x.tag
  replies : ∀ (o : OpId) (on : RecvMessage) (payload : Bytes) (qos : QoS),
    e.calls[o]? = some (.reply on payload qos) → on ∈ e.received

theorem Heard.mono {from_ : Entity} {payload : Bytes} {seq : Seq} {tag : Tag}
    (h : e.Heard from_ payload seq tag) (hm : e.handled ⊆ e'.handled) :
    e'.Heard from_ payload seq tag := by
  obtain ⟨dst, url, hh⟩ := h
  exact ⟨dst, url, hm hh⟩

/-- What a move adds for `recv` and to the reply channels. -/
inductive Hands (e e' : Exchange) : Option Msg → Prop where
  | answer (entity : Entity) (dst : Option Entity) (seq : Seq) (payload : Any) (tag : Tag)
      (msg : SendMessage) (o : OpId)
      (hp : e.state.pendingReplies (entity.id, seq) = some (msg, o))
      (hc : e'.clientRx = e.clientRx) (hr : e'.received = e.received)
      (ha : e'.answered = e.answered ++ [(o, ⟨entity, payload.value, seq, tag⟩)]) :
      Hands e e' (some (.relayResponse (.payload ⟨some entity, dst, seq, some payload⟩) tag))
  | deliver (entity : Entity) (dst : Option Entity) (seq : Seq) (payload : Any) (tag : Tag)
      (hp : e.state.pendingReplies (entity.id, seq) = none)
      (hc : e'.clientRx = e.clientRx ++ [⟨entity, payload.value, seq, tag⟩])
      (hr : e'.received = e.received) (ha : e'.answered = e.answered) :
      Hands e e' (some (.relayResponse (.payload ⟨some entity, dst, seq, some payload⟩) tag))
  | recv (x : RecvdRelayPayload) (hc : e.clientRx = x :: e'.clientRx)
      (hr : e'.received = e.received ++ [⟨x.from_, x.payload, x.seq, x.tag⟩])
      (ha : e'.answered = e.answered) : Hands e e' none
  | keep {l : Option Msg} (hc : e'.clientRx = e.clientRx) (hr : e'.received = e.received)
      (ha : e'.answered = e.answered)
      (hp : ∀ entity dst seq payload tag,
        l = some (.relayResponse (.payload ⟨some entity, dst, seq, some payload⟩) tag) →
          e.state.pendingReplies (entity.id, seq) = none) : Hands e e' l

theorem hands_of_handled {e₁ : Exchange} {m : Msg} (h : Handled opts e₁ m e')
    (hs : e₁.state = e.state) (hc : e₁.clientRx = e.clientRx) (hr : e₁.received = e.received)
    (ha : e₁.answered = e.answered) : Hands e e' (some m) := by
  cases h with
  | answer entity dst seq payload tag msg o hp =>
    exact .answer entity dst seq payload tag msg o (hs ▸ hp) hc hr (by simp [ha])
  | deliver entity dst seq payload tag hp =>
    exact .deliver entity dst seq payload tag (hs ▸ hp) (by simp [hc]) hr ha
  | ignore msg tag hn hp =>
    refine .keep hc hr ha fun entity dst seq payload tag' heq => ?_
    cases heq
    exact absurd rfl (hp entity dst seq payload)
  | _ => exact .keep hc hr ha (by simp)

theorem Moves.hands (h : e.Moves opts l e') : Hands e e' l := by
  cases h with
  | called h =>
    cases h with
    | recv msg rest hm => exact .recv msg hm rfl rfl
    | _ => exact .keep rfl rfl rfl (by simp)
  | take msg rest hq h => exact hands_of_handled h rfl rfl rfl rfl
  | takeFail msg rest p hq hf hp =>
    obtain ⟨err, he⟩ := hf
    refine .keep rfl rfl rfl fun entity dst seq payload tag heq => ?_
    cases heq
    rcases handleMsg_error he with h | h | ⟨_, _, _, _, _, h, hnone, -⟩ <;> cases h
    exact hnone
  | read msg tag hq h => exact hands_of_handled h rfl rfl rfl rfl
  | readFail msg tag p hq hf hp =>
    obtain ⟨err, he⟩ := hf
    refine .keep rfl rfl rfl fun entity dst seq payload tag' heq => ?_
    cases heq
    rcases handleMsg_error he with h | h | ⟨_, _, _, _, _, h, hnone, -⟩ <;> cases h
    exact hnone
  | _ => exact .keep rfl rfl rfl (by simp)

theorem Moves.received_subset (h : e.Moves opts l e') : e.received ⊆ e'.received := by
  cases h.hands with
  | recv x hc hr ha => exact hr ▸ List.subset_append_left _ _
  | answer _ _ _ _ _ _ _ _ _ hr _ => rw [hr]; exact List.Subset.refl _
  | deliver _ _ _ _ _ _ _ hr _ => rw [hr]; exact List.Subset.refl _
  | keep _ hr _ _ => rw [hr]; exact List.Subset.refl _

theorem Delivered.moves (h : e.Delivered) (hm : e.Moves opts l e') : e'.Delivered := by
  have hhandled : e.handled ⊆ e'.handled := by
    rw [hm.handled]
    exact List.subset_append_left _ _
  have hreplies : ∀ (o : OpId) (on : RecvMessage) (payload : Bytes) (qos : QoS),
      e'.calls[o]? = some (.reply on payload qos) → on ∈ e'.received := by
    intro o on payload qos ho
    have hold : ∀ call, e'.calls = e.calls ++ [call] → call ≠ .reply on payload qos →
        on ∈ e.received := by
      intro call hc hne
      rw [hc, List.getElem?_append] at ho
      split_ifs at ho
      · exact h.replies o on payload qos ho
      · exact absurd (List.mem_singleton.mp (List.mem_of_getElem? ho)).symm hne
    apply hm.received_subset
    cases hm.adds with
    | none hc hs => exact h.replies o on payload qos (hc ▸ ho)
    | own call hc hown hq hs => exact hold call hc (by rintro rfl; cases hown)
    | reply on' payload' qos' hc hr hs =>
      by_cases heq : Call.reply on' payload' qos' = .reply on payload qos
      · cases heq
        exact hr
      · exact hold _ hc heq
  cases hm.hands with
  | answer entity dst seq payload tag msg o hp hc hr ha =>
    exact ⟨fun x hx => (h.queued x (hc ▸ hx)).mono hhandled,
      fun x hx => (h.received x (hr ▸ hx)).mono hhandled, hreplies⟩
  | deliver entity dst seq payload tag hp hc hr ha =>
    refine ⟨fun x hx => ?_, fun x hx => ?_, hreplies⟩
    · rw [hc] at hx
      rcases List.mem_append.mp hx with hx | hx
      · exact (h.queued x hx).mono hhandled
      · rw [List.mem_singleton.mp hx]
        exact ⟨dst, payload.typeUrl, by rw [hm.handled]; simp⟩
    · exact (h.received x (hr ▸ hx)).mono hhandled
  | recv y hc hr ha =>
    refine ⟨fun x hx => ?_, fun x hx => ?_, hreplies⟩
    · exact (h.queued x (by rw [hc]; exact List.mem_cons_of_mem _ hx)).mono hhandled
    · rw [hr] at hx
      rcases List.mem_append.mp hx with hx | hx
      · exact (h.received x hx).mono hhandled
      · rw [List.mem_singleton.mp hx]
        exact (h.queued y (by rw [hc]; exact List.mem_cons_self)).mono hhandled
  | keep hc hr ha hp =>
    exact ⟨fun x hx => (h.queued x (hc ▸ hx)).mono hhandled,
      fun x hx => (h.received x (hr ▸ hx)).mono hhandled, hreplies⟩

end Exchange

namespace System

variable {opts : ClientOpts} {token : String} {s : System}

theorem numbered_of_reachable (h : Reachable (step opts) (initial token) s) :
    s.exchange.Numbered :=
  h.invariant (P := fun s => s.exchange.Numbered)
    ⟨rfl, by simp [initial, Exchange.initial, Exchange.calls]⟩ fun _ _ _ _ hp hs =>
    hp.moves (moves_of_step hs)

theorem delivered_of_reachable (h : Reachable (step opts) (initial token) s) :
    s.exchange.Delivered :=
  h.invariant (P := fun s => s.exchange.Delivered)
    (by constructor <;> simp [initial, Exchange.initial, Exchange.calls]) fun _ _ _ _ hp hs =>
    hp.moves (moves_of_step hs)

end System
end OrbRelay.Client
