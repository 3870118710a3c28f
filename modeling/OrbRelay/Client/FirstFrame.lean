import OrbRelay.Client.Link

/-!
# The first frame of a connection

The tonic queue is created once for all connections. What lies in it when an
attempt pushes its `ConnectRequest` is yielded before that request.
-/
namespace OrbRelay.Client.System
open Transition

variable {opts : ClientOpts} {token : String} {s s' t : System} {tr : List (System × Action)}

/-- The frame that the current attempt pushes once its channel is open. -/
def ownConnect (opts : ClientOpts) (s : System) : Option Frame :=
  (connectRequest opts s.token).map fun request =>
    ⟨.connectRequest request, .connect s.attempt⟩

/-- Every stream starts with the frame that the attempt it was opened by pushed, in
the step `x` of the run. -/
def ConnectsFirst (opts : ClientOpts) (tr : List (System × Action)) (t : System) : Prop :=
  ∀ w ∈ t.exchange.tonic.streams, ∀ f, w.yielded.head? = some f →
    ∃ x ∈ tr, x.2 = .dial .ok ∧ x.1.attempt = w.token ∧ ownConnect opts x.1 = some f

/-- The number is that of an attempt which has dialed, or of an earlier one. -/
def Dialed (s : System) (n : ℕ) : Prop := n ≤ s.attempt ∧ (s.phase = .dialing → n < s.attempt)

theorem dialed_step {a : Action} {n : ℕ} (h : s.Dialed n) (hs : s.Link opts a s') :
    s'.Dialed n := by
  obtain ⟨hle, hlt⟩ := h
  cases hs with
  | quiet hk ht => exact ⟨hk.attempt ▸ hle, hk.attempt ▸ hk.phase ▸ hlt⟩
  | push f hk ht hf => exact ⟨hk.attempt ▸ hle, hk.attempt ▸ hk.phase ▸ hlt⟩
  | tonic p hm => exact ⟨hle, hlt⟩
  | enter hp => exact ⟨hle.trans (Nat.le_succ _), fun _ => Nat.lt_succ_of_le hle⟩
  | halt p hp =>
    refine ⟨hle, fun hd => ?_⟩
    dsimp only at hd
    simp [hd, Phase.isEnded] at hp
  | fail hp ha hc hh ht =>
    rcases ha with ⟨-, ha⟩ | ⟨hd, ha⟩
    · exact ⟨ha ▸ hle.trans (Nat.le_succ _), fun _ => ha ▸ Nat.lt_succ_of_le hle⟩
    · refine ⟨ha ▸ hle, fun hdial => ?_⟩
      simp [hdial, Phase.isEnded] at hd
  | dial request hp hr => exact ⟨hle, fun hd => by cases hd⟩
  | call hp => exact ⟨hle, fun hd => by cases hd⟩
  | accept hp he hp' ha hc ht => exact ⟨ha ▸ hle, fun hd => by simp [hp'] at hd⟩
  | eof hp hp' ha hc ht => exact ⟨ha ▸ hle, fun hd => by simp [hp'] at hd⟩

theorem dialed_dial {s' : System} (hp : s'.phase = .calling) (ha : s'.attempt = s.attempt) :
    s'.Dialed s.attempt :=
  ⟨ha.ge, fun hd => by simp [hp] at hd⟩

/-! ## Streams and pushed frames after a step -/

/-- A stream after a step was there before it, or is the one that a dial opens. -/
theorem stream_origin {a : Action} (hs : s.Link opts a s') {w' : Forwarder Frame}
    (hw : w' ∈ s'.exchange.tonic.streams) :
    (∃ w ∈ s.exchange.tonic.streams, w'.token = w.token ∧ w'.seen = w.seen ∧
      (w'.cancelled = false → w.cancelled = false)) ∨
    ∃ f, a = .dial .ok ∧ s.phase = .dialing ∧ s'.phase = .calling ∧ s'.attempt = s.attempt ∧
      ownConnect opts s = some f ∧ w'.token = s.attempt ∧
      w'.seen = s.exchange.tonic.queue ++ [f] := by
  cases hs with
  | quiet hk ht =>
    rw [ht] at hw
    exact .inl ⟨w', hw, rfl, rfl, id⟩
  | push f hk ht hf =>
    rw [ht] at hw
    exact .inl ⟨w', hw, rfl, rfl, id⟩
  | tonic p hm =>
    obtain ⟨w, hmem, ht, hseen, hc⟩ := hm.origin hw
    exact .inl ⟨w, hmem, ht, hseen, fun h => hc ▸ h⟩
  | enter hp => exact .inl ⟨w', hw, rfl, rfl, id⟩
  | halt p hp => exact .inl ⟨w', hw, rfl, rfl, id⟩
  | fail hp ha hc hh ht =>
    rw [ht] at hw
    obtain ⟨w, hmem, htok, hseen, hcan⟩ := Tonic.cancel_origin hw
    exact .inl ⟨w, hmem, htok, hseen, fun h => (hcan h).1⟩
  | dial request hp hr =>
    rcases List.mem_append.mp hw with hw | hw
    · exact .inl ⟨w', hw, rfl, rfl, id⟩
    · obtain rfl := List.mem_singleton.mp hw
      exact .inr ⟨_, rfl, hp, rfl, rfl, by simp [ownConnect, hr], rfl, rfl⟩
  | call hp => exact .inl ⟨w', hw, rfl, rfl, id⟩
  | accept hp he hp' ha hc ht =>
    rw [ht] at hw
    exact .inl ⟨w', hw, rfl, rfl, id⟩
  | eof hp hp' ha hc ht =>
    rw [ht] at hw
    exact .inl ⟨w', hw, rfl, rfl, id⟩

/-- A `ConnectRequest` is pushed by the attempt it is for, unless it comes out of the
actor's queue. -/
theorem pushed_origin {a : Action} (hs : s.Link opts a s') {f : Frame} {n : ℕ}
    (hf : f ∈ s'.exchange.tonic.pushed) (hn : f.origin = .connect n) :
    f ∈ s.exchange.tonic.pushed ∨ .send f ∈ s.exchange.actorRx ∨
      n = s.attempt ∧ s'.phase = .calling ∧ s'.attempt = s.attempt := by
  cases hs with
  | quiet hk ht => exact .inl (ht ▸ hf)
  | push g hk ht hg =>
    rw [ht] at hf
    rcases List.mem_append.mp hf with hf | hf
    · exact .inl hf
    · obtain rfl := List.mem_singleton.mp hf
      exact .inr (.inl (hg.resolve_right fun hg => hg n hn))
  | tonic p hm =>
    left
    cases hm <;> exact hf
  | enter hp => exact .inl hf
  | halt p hp => exact .inl hf
  | fail hp ha hc hh ht => exact .inl (by rw [ht] at hf; exact hf)
  | dial request hp hr =>
    rcases List.mem_append.mp hf with hf | hf
    · exact .inl hf
    · obtain rfl := List.mem_singleton.mp hf
      cases hn
      exact .inr (.inr ⟨rfl, rfl, rfl⟩)
  | call hp => exact .inl hf
  | accept hp he hp' ha hc ht => exact .inl (ht ▸ hf)
  | eof hp hp' ha hc ht => exact .inl (ht ▸ hf)

/-- What enters the actor's queue as a `Send` belongs to a call. -/
theorem send_origin {e e' : Exchange} {l : Option Msg} (hm : e.Moves opts l e')
    (ht : ∀ m ∈ e.sleeping, m.timer = true) {f : Frame} (hf : .send f ∈ e'.actorRx) :
    .send f ∈ e.actorRx ∨ ∃ o, f.origin = .op o := by
  cases hm with
  | called h =>
    cases h with
    | enqueue o op pc ho hpc hpc' =>
      refine (List.mem_append.mp hf).imp_right fun h => ⟨o, ?_⟩
      cases List.mem_singleton.mp h
      rfl
    | register o op msg ho hpc hw =>
      refine (List.mem_append.mp hf).imp_right fun h => ?_
      cases List.mem_singleton.mp h
      exact absurd hw (op.call.waiter_ne_send o f)
    | control msg hm =>
      refine .inl ((List.mem_append.mp hf).resolve_right fun h => ?_)
      cases List.mem_singleton.mp h
      simp at hm
    | _ => exact .inl hf
  | fire i msg hi =>
    refine .inl ((List.mem_append.mp hf).resolve_right fun h => ?_)
    cases List.mem_singleton.mp h
    cases ht _ (List.mem_of_getElem? hi)
  | forward msg tag =>
    refine .inl ((List.mem_append.mp hf).resolve_right fun h => ?_)
    cases List.mem_singleton.mp h
  | take msg rest hq h =>
    rw [h.actorRx] at hf
    exact .inl (hq ▸ List.mem_cons_of_mem _ hf)
  | takeFail msg rest p hq hf' hp => exact .inl (hq ▸ List.mem_cons_of_mem _ hf)
  | read msg tag hq h => exact .inl (h.actorRx ▸ hf)
  | _ => exact .inl hf

/-! ## The tonic queue over attempts -/

/-- The tonic queue is served in order, only the forwarder of the current attempt
still takes from it, and what attempts have pushed bears their numbers. -/
structure Serving (s : System) : Prop where
  inv : s.exchange.tonic.Inv
  live : ∀ w ∈ s.exchange.tonic.streams, w.cancelled = false →
    w.token = s.attempt ∧ s.phase.idle = false
  streams : ∀ w ∈ s.exchange.tonic.streams, s.Dialed w.token
  timers : ∀ m ∈ s.exchange.sleeping, m.timer = true
  sends : ∀ f, .send f ∈ s.exchange.actorRx → ∀ n, f.origin ≠ .connect n
  pushed : ∀ f ∈ s.exchange.tonic.pushed, ∀ n, f.origin = .connect n → s.Dialed n

theorem serving_initial (token : String) : (initial token).Serving := by
  refine ⟨Tonic.inv_empty, ?_, ?_, ?_, ?_, ?_⟩ <;>
    simp [initial, Exchange.initial, Tonic.empty]

theorem Serving.inv_step {a : Action} (h : s.Serving) (hs : s.Link opts a s') :
    s'.exchange.tonic.Inv := by
  cases hs with
  | quiet hk ht => exact ht ▸ h.inv
  | push f hk ht hf => exact ht ▸ h.inv.push f
  | tonic p hm => exact h.inv.moves hm
  | enter hp => exact h.inv
  | halt p hp => exact h.inv
  | fail hp ha hc hh ht => exact ht ▸ h.inv.cancel s.attempt
  | dial request hp hr =>
    refine (h.inv.push _).new s.attempt fun w hw => ?_
    by_contra hc
    have := (h.live w hw (by simpa using hc)).2
    simp [hp, Phase.idle] at this
  | call hp => exact h.inv
  | accept hp he hp' ha hc ht => exact ht ▸ h.inv
  | eof hp hp' ha hc ht => exact ht ▸ h.inv

theorem Serving.live_step {a : Action} (h : s.Serving) (hs : s.Link opts a s')
    {w : Forwarder Frame} (hw : w ∈ s'.exchange.tonic.streams) (hc : w.cancelled = false) :
    w.token = s'.attempt ∧ s'.phase.idle = false := by
  cases hs with
  | quiet hk ht => rw [hk.attempt, hk.phase]; exact h.live w (ht ▸ hw) hc
  | push f hk ht hf =>
    rw [ht] at hw
    rw [hk.attempt, hk.phase]
    exact h.live w hw hc
  | tonic p hm =>
    obtain ⟨v, hv, ht, -, hcan⟩ := hm.origin hw
    rw [ht]
    exact h.live v hv (hcan ▸ hc)
  | enter hp =>
    have := (h.live w hw hc).2
    rcases hp with hp | hp <;> simp [hp, Phase.idle] at this
  | halt p hp =>
    refine ⟨(h.live w hw hc).1, ?_⟩
    cases p <;> first | rfl | cases hp
  | fail hp ha hacc hh ht =>
    rw [ht] at hw
    obtain ⟨v, hv, -, -, hcan⟩ := Tonic.cancel_origin hw
    obtain ⟨hvc, hne⟩ := hcan hc
    exact absurd (h.live v hv hvc).1 hne
  | dial request hp hr =>
    rcases List.mem_append.mp hw with hw | hw
    · have := (h.live w hw hc).2
      simp [hp, Phase.idle] at this
    · obtain rfl := List.mem_singleton.mp hw
      exact ⟨rfl, rfl⟩
  | call hp => exact ⟨(h.live w hw hc).1, rfl⟩
  | accept hp he hp' ha hacc ht =>
    rw [ht] at hw
    exact ⟨ha ▸ (h.live w hw hc).1, by rw [hp']; rfl⟩
  | eof hp hp' ha hacc ht =>
    rw [ht] at hw
    exact ⟨ha ▸ (h.live w hw hc).1, by rw [hp']; rfl⟩

theorem serving_step {a : Action} (h : s.Serving) (hs : s.step opts a = some s') :
    s'.Serving := by
  have hl := link_of_step hs
  have hm := moves_of_step hs
  refine ⟨h.inv_step hl, fun w hw hc => h.live_step hl hw hc, fun w hw => ?_, fun m hmem => ?_,
    fun f hf n hn => ?_, fun f hf n hn => ?_⟩
  · rcases stream_origin hl hw with ⟨v, hv, ht, -, -⟩ | ⟨f, -, -, hp', ha, -, ht, -⟩
    · exact ht ▸ dialed_step (h.streams v hv) hl
    · exact ht ▸ dialed_dial hp' ha
  · exact (hm.sleeping hmem).elim (h.timers m) id
  · rcases send_origin hm h.timers hf with hf | ⟨o, ho⟩
    · exact h.sends f hf n hn
    · simp [ho] at hn
  · rcases pushed_origin hl hf hn with hf | hf | ⟨rfl, hp', ha⟩
    · exact dialed_step (h.pushed f hf n hn) hl
    · exact absurd hn (h.sends f hf n)
    · exact dialed_dial hp' ha

theorem serving_of_reachable (h : Reachable (step opts) (initial token) s) : s.Serving :=
  h.invariant (serving_initial token) fun _ _ _ _ hp hs => serving_step hp hs

/-! ## The dials of a run -/

/-- The forwarder `w` was spawned by the dial in state `s`. -/
structure Opens (opts : ClientOpts) (s : System) (w : Forwarder Frame) : Prop where
  token : s.attempt = w.token
  seen : ∃ f, ownConnect opts s = some f ∧ w.seen = s.exchange.tonic.queue ++ [f]
  foreign : ∀ f ∈ s.exchange.tonic.queue, f.origin ≠ .connect w.token

theorem Opens.congr {w w' : Forwarder Frame} (h : Opens opts s w) (ht : w'.token = w.token)
    (hs : w'.seen = w.seen) : Opens opts s w' :=
  ⟨ht ▸ h.token, hs ▸ h.seen, ht ▸ h.foreign⟩

theorem opens_dial (h : s.Serving) (hp : s.phase = .dialing) {f : Frame}
    (hf : ownConnect opts s = some f) {w : Forwarder Frame} (ht : w.token = s.attempt)
    (hs : w.seen = s.exchange.tonic.queue ++ [f]) : Opens opts s w := by
  refine ⟨ht.symm, ⟨f, hf, hs⟩, fun g hg hn => ?_⟩
  have hpushed : g ∈ s.exchange.tonic.pushed := by
    rw [← h.inv.conserved]
    exact List.mem_append_right _ hg
  have := (h.pushed g hpushed _ hn).2 hp
  omega

theorem phase_of_dial (hs : s.step opts (.dial .ok) = some s') :
    s.phase = .dialing ∧ s'.attempt = s.attempt ∧ s'.phase ≠ .dialing := by
  simp only [step] at hs
  split at hs
  · next hp _ =>
    cases hs
    unfold callRelay
    split <;> exact ⟨hp, rfl, fun hd => by cases hd⟩
  · next heq => cases heq
  · next heq => cases heq
  · cases hs

/-- Each stream has one dial in the run, the only one of its attempt. -/
structure Opened (opts : ClientOpts) (tr : List (System × Action)) (t : System) : Prop where
  dials : ∀ x ∈ tr, x.2 = .dial .ok → t.Dialed x.1.attempt
  opener : ∀ w ∈ t.exchange.tonic.streams, ∃ x ∈ tr, x.2 = .dial .ok ∧ Opens opts x.1 w
  opens : ∀ x ∈ tr, x.2 = .dial .ok → ∀ w ∈ t.exchange.tonic.streams,
    x.1.attempt = w.token → Opens opts x.1 w

theorem opened_step {a : Action} (h : Opened opts tr s) (hv : s.Serving)
    (hs : s.step opts a = some s') : Opened opts (tr ++ [(s, a)]) s' := by
  have hl := link_of_step hs
  refine ⟨?_, fun w hw => ?_, ?_⟩
  · intro x hx hd
    rcases List.mem_append.mp hx with hx | hx
    · exact dialed_step (h.dials x hx hd) hl
    · obtain rfl := List.mem_singleton.mp hx
      dsimp only at hd ⊢
      subst hd
      obtain ⟨-, ha, hp'⟩ := phase_of_dial hs
      exact ⟨ha.ge, fun hp => absurd hp hp'⟩
  · rcases stream_origin hl hw with ⟨v, hmem, ht, hseen, -⟩ | ⟨f, rfl, hp, hp', ha, hf, ht, hseen⟩
    · obtain ⟨x, hx, hd, ho⟩ := h.opener v hmem
      exact ⟨x, List.mem_append_left _ hx, hd, ho.congr ht hseen⟩
    · exact ⟨(s, .dial .ok), by simp, rfl, opens_dial hv hp hf ht hseen⟩
  · intro x hx hd w hw htok
    rcases stream_origin hl hw with ⟨v, hmem, ht, hseen, -⟩ | ⟨f, rfl, hp, hp', ha, hf, ht, hseen⟩
    · rcases List.mem_append.mp hx with hx | hx
      · exact (h.opens x hx hd v hmem (htok.trans ht)).congr ht hseen
      · -- a stream of this attempt cannot be older than its dial
        obtain rfl := List.mem_singleton.mp hx
        dsimp only at hd htok
        subst hd
        have := (hv.streams v hmem).2 (phase_of_dial hs).1
        omega
    · rcases List.mem_append.mp hx with hx | hx
      · have := (h.dials x hx hd).2 hp
        omega
      · obtain rfl := List.mem_singleton.mp hx
        exact opens_dial hv hp hf ht hseen

theorem opened_of_run (h : Run (step opts) (initial token) tr t) : Opened opts tr t := by
  refine h.invariant ⟨by simp, ?_, by simp⟩ fun tr s s' a hr hp hs =>
    opened_step hp (serving_of_reachable ⟨tr, hr⟩) hs
  simp [initial, Exchange.initial, Tonic.empty]

/-! ## Who comes first -/

theorem Opens.head {w : Forwarder Frame} (ho : Opens opts s w) (hv : t.Serving)
    (hw : w ∈ t.exchange.tonic.streams) {f : Frame} (hf : w.yielded.head? = some f) :
    s.exchange.tonic.queue = [] ∧ ownConnect opts s = some f ∨
      f ∈ s.exchange.tonic.queue ∧ f.origin ≠ .connect w.token := by
  obtain ⟨g, hg, hseen⟩ := ho.seen
  have hhead := hv.inv.head_yielded hw (by simp [hseen]) hf
  rw [hseen] at hhead
  cases hq : s.exchange.tonic.queue with
  | nil =>
    left
    rw [hq] at hhead
    exact ⟨rfl, hg.trans hhead⟩
  | cons x rest =>
    right
    rw [hq] at hhead
    obtain rfl := Option.some.inj hhead
    exact ⟨by simp, ho.foreign x (by simp [hq])⟩

theorem ownConnect_origin {f : Frame} (hf : ownConnect opts s = some f) :
    f.origin = .connect s.attempt := by
  obtain ⟨request, -, rfl⟩ := Option.map_eq_some_iff.mp hf
  rfl

/-- In a run, every stream starts with the `ConnectRequest` of its own attempt exactly
when the tonic queue was empty at each dial whose stream has yielded anything. -/
theorem connectsFirst_iff (h : Run (step opts) (initial token) tr t) :
    ConnectsFirst opts tr t ↔ ∀ x ∈ tr, x.2 = .dial .ok →
      (∃ w ∈ t.exchange.tonic.streams, w.token = x.1.attempt ∧ w.yielded ≠ []) →
        x.1.exchange.tonic.queue = [] := by
  have hv := serving_of_reachable ⟨tr, h⟩
  have ho := opened_of_run h
  constructor
  · rintro hfirst x hx hd ⟨w, hw, htok, hy⟩
    obtain ⟨f, hf⟩ := Option.isSome_iff_exists.mp (List.isSome_head?.mpr hy)
    rcases (ho.opens x hx hd w hw htok.symm).head hv hw hf with ⟨hq, -⟩ | ⟨-, hne⟩
    · exact hq
    · obtain ⟨x', -, -, ht', hown⟩ := hfirst w hw f hf
      exact absurd (ht' ▸ ownConnect_origin hown) hne
  · intro hq w hw f hf
    obtain ⟨x, hx, hd, hop⟩ := ho.opener w hw
    have hy : w.yielded ≠ [] := fun hy => by simp [hy] at hf
    have hempty := hq x hx hd ⟨w, hw, hop.token.symm, hy⟩
    rcases hop.head hv hw hf with ⟨-, hown⟩ | ⟨hmem, -⟩
    · exact ⟨x, hx, hd, hop.token, hown⟩
    · simp [hempty] at hmem

/-- A first attempt whose stream hands its first frame to the transport. -/
def firstConnection : List Action :=
  [.validate none, .dial .ok, .tonic (.poll 0), .tonic (.handOver 0), .tonic (.yield_ 0)]

theorem firstConnection_connects :
    ∃ tr t, Run (step (.build .app "app" "ns" (.token "t"))) (initial "") tr t ∧
      (t.exchange.tonic.streams.map fun w => w.yielded.map Frame.origin) = [[.connect 1]] ∧
      (ConnectsFirst (.build .app "app" "ns" (.token "t")) tr t ↔
        ∀ x ∈ tr, x.2 = .dial .ok →
          (∃ w ∈ t.exchange.tonic.streams, w.token = x.1.attempt ∧ w.yielded ≠ []) →
            x.1.exchange.tonic.queue = []) := by
  have he : ((exec (step (.build .app "app" "ns" (.token "t"))) (initial "")
      firstConnection).map fun s =>
        s.exchange.tonic.streams.map fun w => w.yielded.map Frame.origin) =
          some [[.connect 1]] := by decide
  obtain ⟨tr, t, h, hy⟩ := Run.of_exec_map he
  exact ⟨tr, t, h, hy, connectsFirst_iff h⟩

/-- A message is handed to the tonic queue just before a reconnect, and the second
connection sends it ahead of its `ConnectRequest`. -/
def sendThenReconnect : List Action :=
  firstConnection ++ [.relayConnect none, .response (.message (some
    (.connectResponse "app" true "")) ⟨"", 0⟩),
    .client (.send ⟨.orb, [1], "orb", "ns", .atMostOnce⟩), .client (.poll 0),
    .client .reconnect, .take, .take,
    .dial .ok, .tonic (.poll 1), .tonic (.handOver 1), .tonic (.yield_ 1)]

theorem sendThenReconnect_not_first :
    ∃ tr t, Run (step (.build .app "app" "ns" (.token "t"))) (initial "") tr t ∧
      ¬ ConnectsFirst (.build .app "app" "ns" (.token "t")) tr t := by
  have he : ((exec (step (.build .app "app" "ns" (.token "t"))) (initial "")
      sendThenReconnect).bind fun s =>
        s.exchange.tonic.streams[1]?.bind fun w => w.yielded.head?.map Frame.origin) =
          some (.op 0) := by decide
  obtain ⟨t, ht, hy⟩ := Option.bind_eq_some_iff.mp he
  obtain ⟨w, hw, hy⟩ := Option.bind_eq_some_iff.mp hy
  obtain ⟨f, hf, hop⟩ := Option.map_eq_some_iff.mp hy
  obtain ⟨tr, h⟩ := Run.of_exec ht
  refine ⟨tr, t, h, fun hc => ?_⟩
  obtain ⟨x, -, -, -, hown⟩ := hc w (List.mem_of_getElem? hw) f hf
  rw [ownConnect_origin hown] at hop
  cases hop

end OrbRelay.Client.System
