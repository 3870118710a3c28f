import OrbRelay.Client.Attempts
import OrbRelay.Client.Registration
import OrbRelay.Client.Resends

/-!
# What the streams of all connections yield

Whatever is pushed is yielded by one of the successive streams, waits in the queue, or
was in the hands of a forwarder when its stream went. A forwarder has room for one
frame in its hand and four in its channel, so this is all that a connection can lose.
The order of calls that wait for nothing is kept within each stream and from one stream
to the next, but the last frames of a stream that was given up may be yielded late.
-/
namespace OrbRelay.Client
open Transition

variable {T : Type*}

/-! ## Losses -/

/-- Taken and not yielded: in the hand, in the channel, or gone with the stream. -/
def Forwarder.unyielded (w : Forwarder T) : List T := w.taken.drop w.yielded.length

/-- The channel is bounded. After its stream is gone a forwarder that has nothing in
its hand takes one more element, and stops when it cannot hand it over. -/
structure Forwarder.Bounded (w : Forwarder T) : Prop where
  buffer : w.buffer.length ≤ streamBuffer
  dropped : w.dropped = true →
    w.taken.length + (if w.finished || w.holding.isSome then 0 else 1) ≤
      w.yielded.length + (streamBuffer + 1)

theorem Forwarder.Bounded.unyielded_le {w : Forwarder T} (h : w.Bounded) (ho : w.Ordered) :
    w.unyielded.length ≤ streamBuffer + 1 := by
  rw [unyielded, List.length_drop]
  cases hd : w.dropped with
  | true =>
    have := h.dropped hd
    omega
  | false =>
    have hkept := congrArg List.length (ho.kept hd)
    have hone : w.holding.toList.length ≤ 1 := by cases w.holding <;> simp
    have hbuffer := h.buffer
    simp only [List.length_append] at hkept
    omega

namespace Tonic

variable {p p' : Tonic T}

theorem bounded_of_step {a : TonicAction} (h : p.step a = some p')
    (hb : ∀ w ∈ p.streams, w.Bounded) (ho : ∀ w ∈ p.streams, w.Ordered) :
    ∀ w ∈ p'.streams, w.Bounded := by
  have hset {k : ℕ} {v : Forwarder T} (hv : v.Bounded) : ∀ w ∈ p.streams.set k v, w.Bounded := by
    intro w hw
    rcases List.mem_or_eq_of_mem_set hw with hw | rfl
    · exact hb w hw
    · exact hv
  cases a with
  | poll k =>
    simp only [step, Option.bind_eq_bind, Option.bind_eq_some_iff] at h
    obtain ⟨w, hk, h⟩ := h
    have hw := hb w (List.mem_of_getElem? hk)
    split_ifs at h with hf
    simp only [not_or, Bool.not_eq_true, Option.isSome_eq_false_iff,
      Option.isNone_iff_eq_none] at hf
    obtain rfl := Option.some.inj h
    unfold poll
    split_ifs with hc
    · refine hset ⟨hw.buffer, fun hd => ?_⟩
      have := hw.dropped hd
      simp only [Bool.true_or, if_true]
      omega
    · split
      · exact hb
      · refine hset ⟨hw.buffer, fun hd => ?_⟩
        have := hw.dropped hd
        simp only [hf, Option.isSome_none, Bool.or_self, Bool.false_eq_true, if_false] at this
        simpa using this
  | handOver k =>
    simp only [step, Option.bind_eq_bind, Option.bind_eq_some_iff] at h
    obtain ⟨w, hk, x, hh, h⟩ := h
    have hw := hb w (List.mem_of_getElem? hk)
    split_ifs at h
    unfold handOver at h
    split_ifs at h with hd hlt
    · obtain rfl := Option.some.inj h
      refine hset ⟨hw.buffer, fun hd => ?_⟩
      have := hw.dropped hd
      simp only [Bool.true_or, if_true]
      omega
    · obtain rfl := Option.some.inj h
      refine hset ⟨?_, fun hd' => absurd hd' (by simpa using hd)⟩
      rw [List.length_append, List.length_singleton]
      exact hlt
  | yield_ k =>
    simp only [step, Option.bind_eq_bind, Option.bind_eq_some_iff] at h
    obtain ⟨w, hk, h⟩ := h
    have hw := hb w (List.mem_of_getElem? hk)
    split_ifs at h with hd
    split at h
    · cases h
    · next x rest hbuf =>
      obtain rfl := Option.some.inj h
      refine hset ⟨?_, fun hd' => absurd hd' (by simpa using hd)⟩
      have := hw.buffer
      rw [hbuf, List.length_cons] at this
      exact (Nat.le_succ _).trans this
  | drop k =>
    simp only [step, Option.bind_eq_bind, Option.bind_eq_some_iff] at h
    obtain ⟨w, hk, h⟩ := h
    have hmem := List.mem_of_getElem? hk
    split_ifs at h with hd
    obtain rfl := Option.some.inj h
    refine hset ⟨by simp, fun _ => ?_⟩
    -- whatever was taken so far is yielded, or in the hand or the channel
    have hkept := congrArg List.length ((ho w hmem).kept (by simpa using hd))
    have hbuffer := (hb w hmem).buffer
    simp only [List.length_append] at hkept
    split_ifs with hf
    · have hone : w.holding.toList.length ≤ 1 := by cases w.holding <;> simp
      dsimp only
      omega
    · have hnone : w.holding.toList.length = 0 := by
        cases hh : w.holding with
        | none => rfl
        | some x => simp [hh] at hf
      dsimp only
      omega

end Tonic

/-! ## Frames that are sent once -/

/-- The frame that a `Send` brings to the actor. -/
def Msg.sent? : Msg → Option Frame
  | .send f => some f
  | _ => none

namespace Exchange

variable {opts : ClientOpts} {e e' : Exchange} {l : Option Msg} {o : OpId} {op : Op}

/-- The frame of a call that waits for nothing. -/
def plain (e : Exchange) (f : Frame) : Bool :=
  match f.origin with
  | .op o => (e.ops[o]?).any fun op => !op.call.waits
  | _ => false

/-- What streams have yielded, those of one connection before those of the next. Two
streams may take turns for a while, so this is no order in time. -/
def yielded (e : Exchange) : List Frame := e.tonic.streams.flatMap Forwarder.yielded

/-- The frames of all calls so far, in the order in which the calls enqueued them. -/
def enqueued (e : Exchange) : List Frame := e.trail.filterMap Msg.sent?

/-- What a stream has yielded for calls that wait for nothing. -/
def plainYields (e : Exchange) (w : Forwarder Frame) : List Frame := w.yielded.filter e.plain

/-- Frames of plain calls are yielded in order, connection by connection: each stream
yields them as the calls enqueued them, what an earlier stream yields was enqueued before
what a later one does, and no call has its frame yielded twice. -/
structure PlainInOrder (e : Exchange) : Prop where
  within : ∀ w ∈ e.tonic.streams, (e.plainYields w).Sublist e.enqueued
  across : ∀ (i j : ℕ) (v w : Forwarder Frame), i < j → e.tonic.streams[i]? = some v →
    e.tonic.streams[j]? = some w → ∀ f ∈ e.plainYields v, ∀ g ∈ e.plainYields w,
      [f, g].Sublist e.enqueued
  once : ((e.tonic.streams.flatMap e.plainYields).map Frame.origin).Nodup

theorem plain_eq {f : Frame} (hf : f.origin = .op o) (ho : e.ops[o]? = some op) :
    e.plain f = !op.call.waits := by
  simp [plain, hf, ho]

theorem plain_of_origin {f : Frame} (hf : ∀ o, f.origin ≠ .op o) : e.plain f = false := by
  rcases f with ⟨request, o | _ | n⟩
  · exact absurd rfl (hf o)
  · rfl
  · rfl

/-- Calls that register a waiter wait. -/
theorem waits_of_waiter {call : Call} {m : Msg} (h : call.waiter o = some (.ok m)) :
    call.waits = true := by
  rcases call.waiter_eq_ok h with ⟨msg, hc, hq, -⟩ | ⟨msg, hc, -⟩ | ⟨on, payload, t, hc, -⟩
  · rw [hc]
    exact decide_eq_true hq
  · rw [hc]
    rfl
  · rw [hc]
    rfl

/-- The frames of plain calls are pushed as their `Send`s are handled, one by one. -/
def PlainSends (e : Exchange) : Prop :=
  e.tonic.pushed.filter e.plain = (e.handled.filterMap Msg.sent?).filter e.plain

/-- Whether a handled frame is plain never changes. -/
theorem Moves.plain_eq (hm : e.Moves opts l e') (ha : e.Accounted opts) {f : Frame}
    (hf : .send f ∈ e.handled) : e'.plain f = e.plain f := by
  rcases f with ⟨request, o | _ | n⟩
  · obtain ⟨op, ho, -⟩ := ha.of_trail (List.mem_append_left _ hf) (Msg.by?_send rfl)
    obtain ⟨pc, ho'⟩ := hm.call ha.timers ho
    rw [Exchange.plain_eq rfl ho, Exchange.plain_eq rfl ho']
  · rfl
  · rfl

theorem PlainSends.moves (h : e.PlainSends) (hb : e.Booked) (ha : e.Accounted opts)
    (hm : e.Moves opts l e') : e'.PlainSends := by
  have hpushed : e.tonic.pushed.filter e'.plain = e.tonic.pushed.filter e.plain := by
    refine List.filter_congr fun f hf => ?_
    by_cases hop : ∃ o, f.origin = .op o
    · obtain ⟨o, ho⟩ := hop
      exact hm.plain_eq ha (hb.pushed f hf o ho)
    · have hop : ∀ o, f.origin ≠ .op o := fun o ho => hop ⟨o, ho⟩
      rw [plain_of_origin hop, plain_of_origin hop]
  have hhandled : (e.handled.filterMap Msg.sent?).filter e'.plain =
      (e.handled.filterMap Msg.sent?).filter e.plain := by
    refine List.filter_congr fun f hf => ?_
    obtain ⟨m, hmem, hs⟩ := List.mem_filterMap.mp hf
    cases m <;> cases hs
    exact hm.plain_eq ha hmem
  have hnone (hl : ∀ f, l ≠ some (.send f)) : l.toList.filterMap Msg.sent? = [] := by
    cases l with
    | none => rfl
    | some m => cases m <;> first | rfl | exact absurd rfl (hl _)
  -- a retry finds the entry of a call that waits
  have hretry {m : Msg} {o : OpId} {request : RelayConnectRequest} (hmem : m ∈ e.handled)
      (hby : m.by? = some o) (hs : m.isSend = false) : e'.plain ⟨request, .op o⟩ = false := by
    obtain ⟨op, ho, hw⟩ := ha.waiter_of_handled hmem hby hs
    obtain ⟨pc, ho'⟩ := hm.call ha.timers ho
    have hp : e'.plain ⟨request, .op o⟩ = !(Op.mk op.call pc).call.waits :=
      Exchange.plain_eq rfl ho'
    rw [hp, waits_of_waiter hw, Bool.not_true]
  unfold PlainSends
  rw [hm.handled, List.filterMap_append, List.filter_append, hhandled, ← h, ← hpushed]
  cases hm.pushed with
  | none hl hp => simp [hp, hnone hl]
  | own f hl hf hp =>
    have hl : ∀ f, l ≠ some (.send f) := by rcases hl with rfl | rfl <;> simp
    simp [hp, hnone hl, plain_of_origin hf]
  | send f hp => simp [hp, Msg.sent?, List.filter_append]
  | retryAck k left msg o hk hleft hp =>
    simp [hp, Msg.sent?, List.filter_append, hretry (hb.acks _ _ _ hk) rfl rfl]
  | retryAsk id k left msg o hk hleft hp =>
    simp [hp, Msg.sent?, List.filter_append, hretry (hb.replies _ _ _ _ hk).1 rfl rfl]

/-- Each call has one `Send`. -/
theorem plainSends_nodup (ha : e.Accounted opts) :
    (((e.handled.filterMap Msg.sent?).filter e.plain).map Frame.origin).Nodup := by
  refine List.nodup_iff_count_le_one.mpr fun origin => ?_
  by_cases hop : ∃ o, origin = .op o
  · obtain ⟨o, rfl⟩ := hop
    refine le_trans ?_ (ha.sends_le o)
    rw [List.count_eq_countP, List.countP_map]
    refine List.filter_sublist.countP_le.trans ?_
    rw [List.countP_filterMap, sends]
    refine (List.countP_congr fun m _ => ?_).le
    cases m <;> simp [Msg.sent?, Msg.isSend, Msg.by?_send_iff]
  · refine (List.count_eq_zero.mpr fun hmem => ?_).le.trans (Nat.zero_le 1)
    obtain ⟨f, hf, rfl⟩ := List.mem_map.mp hmem
    have hplain := (List.mem_filter.mp hf).2
    rw [plain_of_origin fun o ho => hop ⟨o, ho⟩] at hplain
    cases hplain

theorem yielded_sublist (hi : e.tonic.Inv) : e.yielded.Sublist e.tonic.pushed := by
  rw [← hi.conserved]
  refine (flatMap_sublist fun w hw => ?_).trans (List.sublist_append_left _ _)
  exact (hi.ordered w hw).yields.sublist

end Exchange

namespace System

variable {opts : ClientOpts} {token : String} {s : System}

theorem bounded_of_reachable (h : Reachable (step opts) (initial token) s) :
    ∀ w ∈ s.exchange.tonic.streams, w.Bounded := by
  refine h.invariant (P := fun s => ∀ w ∈ s.exchange.tonic.streams, w.Bounded) ?_
    fun u v a hr hb hs => ?_
  · simp [initial, Exchange.initial, Tonic.empty]
  have hcancel : ∀ w ∈ (u.exchange.tonic.cancel u.attempt).streams, w.Bounded := by
    intro w hw
    obtain ⟨v, hv, rfl⟩ := List.mem_map.mp hw
    split_ifs
    · exact ⟨(hb v hv).buffer, (hb v hv).dropped⟩
    · exact hb v hv
  cases link_of_step hs with
  | quiet hk ht => exact ht ▸ hb
  | push f hk ht hf => exact ht ▸ hb
  | @tonic a p hm =>
    obtain ⟨p', hp', heq⟩ := Option.bind_eq_some_iff.mp hs
    obtain rfl : p' = p := by
      have := congrArg (fun s => s.exchange.tonic) (Option.some.inj heq)
      exact this
    exact Tonic.bounded_of_step hp' hb (serving_of_reachable hr).inv.ordered
  | enter hp => exact hb
  | halt p hp => exact hb
  | fail hp ha hc hh ht => exact ht ▸ hcancel
  | dial request hp hr' =>
    intro w hw
    rcases List.mem_append.mp hw with hw | hw
    · exact hb w hw
    · rw [List.mem_singleton.mp hw]
      exact ⟨by simp, by simp⟩
  | call hp => exact hb
  | accept hp he hp' ha hc ht => exact ht ▸ hb
  | eof hp hp' ha hc ht => exact ht ▸ hb

/-- What was pushed is, stream by stream, what the stream has yielded and at most five
frames more that its forwarder took, and then the queue. So all that a client can lose
are five frames for each connection. -/
theorem losses_of_reachable (h : Reachable (step opts) (initial token) s) :
    s.exchange.tonic.pushed =
        s.exchange.tonic.streams.flatMap (fun w => w.yielded ++ w.unyielded) ++
          s.exchange.tonic.queue ∧
      ∀ w ∈ s.exchange.tonic.streams, w.unyielded.length ≤ 5 := by
  have hi := (serving_of_reachable h).inv
  constructor
  · rw [← hi.conserved]
    congr 1
    refine List.flatMap_congr fun w hw => ?_
    obtain ⟨rest, hr⟩ := (hi.ordered w hw).yields
    rw [Forwarder.unyielded, ← hr, List.drop_left]
  · exact fun w hw => (bounded_of_reachable h w hw).unyielded_le (hi.ordered w hw)

/-- Four messages and the connect request are on their way when the stream goes. -/
def burst : List Action :=
  .validate none :: establish ++
    (List.range 4).flatMap (fun o => [.client (.send ⟨.orb, [1], "orb", "ns", .atMostOnce⟩),
      .client (.poll o), .take]) ++
    (List.replicate 4 [.tonic (.poll 0), .tonic (.handOver 0)]).flatten ++
    [.tonic (.poll 0), .tonic (.drop 0), .tonic (.handOver 0)]

theorem burst_lost :
    ∃ tr t, Run (step (.build .app "app" "ns" (.token "t"))) (initial "") tr t ∧
      (t.exchange.tonic.streams.map fun w => (w.yielded.length, w.unyielded.length)) = [(0, 5)] ∧
      (t.exchange.tonic.pushed =
          t.exchange.tonic.streams.flatMap (fun w => w.yielded ++ w.unyielded) ++
            t.exchange.tonic.queue ∧
        ∀ w ∈ t.exchange.tonic.streams, w.unyielded.length ≤ 5) := by
  have he : ((exec (step (.build .app "app" "ns" (.token "t"))) (initial "") burst).map fun s =>
      s.exchange.tonic.streams.map fun w => (w.yielded.length, w.unyielded.length)) =
        some [(0, 5)] := by decide
  obtain ⟨tr, t, h, hl⟩ := Run.of_exec_map he
  exact ⟨tr, t, h, hl, losses_of_reachable ⟨tr, h⟩⟩

theorem plainSends_of_reachable (h : Reachable (step opts) (initial token) s) :
    s.exchange.PlainSends :=
  h.invariant (P := fun s => s.exchange.PlainSends)
    (by simp [Exchange.PlainSends, initial, Exchange.initial, Tonic.empty])
    fun _ _ _ hr hp hs =>
      hp.moves (booked_of_reachable hr) (accounted_of_reachable hr) (moves_of_step hs)

theorem pair_sublist_flatMap {α β : Type*} {l : List α} {p : α → List β} {i j : ℕ} {a b : α}
    {x y : β} (hij : i < j) (ha : l[i]? = some a) (hb : l[j]? = some b) (hx : x ∈ p a)
    (hy : y ∈ p b) : [x, y].Sublist (l.flatMap p) := by
  have hfront : x ∈ (l.take j).flatMap p := by
    refine List.mem_flatMap.mpr ⟨a, List.mem_of_getElem? (i := i) ?_, hx⟩
    rw [List.getElem?_take_of_lt hij, ha]
  have hback : y ∈ (l.drop j).flatMap p := by
    refine List.mem_flatMap.mpr ⟨b, List.mem_of_getElem? (i := 0) ?_, hy⟩
    rw [List.getElem?_drop, Nat.add_zero, hb]
  rw [← List.take_append_drop j l, List.flatMap_append]
  exact (List.singleton_sublist.mpr hfront).append (List.singleton_sublist.mpr hback)

/-- The frames of at-most-once sends and replies are yielded in order. -/
theorem plain_inOrder (h : Reachable (step opts) (initial token) s) :
    s.exchange.PlainInOrder := by
  have hsends := plainSends_of_reachable h
  have hyield : (s.exchange.tonic.streams.flatMap s.exchange.plainYields).Sublist
      ((s.exchange.handled.filterMap Msg.sent?).filter s.exchange.plain) := by
    have hsub := (Exchange.yielded_sublist (serving_of_reachable h).inv).filter s.exchange.plain
    rwa [Exchange.yielded, List.filter_flatMap, hsends] at hsub
  have hall : (s.exchange.tonic.streams.flatMap s.exchange.plainYields).Sublist
      s.exchange.enqueued := by
    refine (hyield.trans List.filter_sublist).trans ?_
    rw [Exchange.enqueued, Exchange.trail, List.filterMap_append]
    exact List.sublist_append_left _ _
  refine ⟨fun w hw => ?_, fun i j v w hij hv hw f hf g hg => ?_, ?_⟩
  · rw [List.flatMap_def] at hall
    exact (List.sublist_flatten_of_mem (List.mem_map_of_mem hw)).trans hall
  · exact (pair_sublist_flatMap hij hv hw hf hg).trans hall
  · exact (hyield.map Frame.origin).nodup
      (Exchange.plainSends_nodup (accounted_of_reachable h))

/-- A message gets into the channel of a first connection, and is yielded only after the
second connection has yielded another one. -/
def acrossReconnect : List Action :=
  .validate none :: establish ++ [.client (.send ⟨.orb, [1], "orb", "ns", .atMostOnce⟩),
    .client (.poll 0), .take] ++
    (List.replicate 2 [.tonic (.poll 0), .tonic (.handOver 0)]).flatten ++
    [.client (.send ⟨.orb, [2], "orb", "ns", .atMostOnce⟩), .client (.poll 1),
      .client .reconnect, .take, .take, .dial .ok, .tonic (.poll 1), .tonic (.handOver 1),
      .tonic (.yield_ 1), .tonic (.yield_ 0), .tonic (.yield_ 0)]

theorem acrossReconnect_inOrder :
    ∃ tr t, Run (step (.build .app "app" "ns" (.token "t"))) (initial "") tr t ∧
      t.yields = [[.connect 1, .op 0], [.op 1]] ∧ t.exchange.PlainInOrder := by
  have he : ((exec (step (.build .app "app" "ns" (.token "t"))) (initial "")
      acrossReconnect).map yields) = some [[.connect 1, .op 0], [.op 1]] := by decide
  obtain ⟨tr, t, h, hy⟩ := Run.of_exec_map he
  exact ⟨tr, t, h, hy, plain_inOrder ⟨tr, h⟩⟩

end System
end OrbRelay.Client
