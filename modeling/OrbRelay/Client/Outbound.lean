import OrbRelay.Client.FirstFrame

/-!
# Outbound frames over reconnects

What the forwarders of successive attempts take from the tonic queue are blocks of
what was pushed, one after the other. A frame that was taken and not yielded when its
attempt ends is lost to the attempts that follow.
-/
namespace OrbRelay.Client
open Transition

variable {T : Type*}

/-- Overwriting a place does not change what looks the same there. -/
theorem map_set_same {α β : Type*} {l : List α} {k : ℕ} {a b : α} {f : α → β}
    (hk : l[k]? = some a) (hf : f b = f a) : (l.set k b).map f = l.map f := by
  obtain ⟨l₁, l₂, hl, -, hset⟩ := split_at hk b
  rw [hset, hl, List.map_append, List.map_append, List.map_cons, List.map_cons, hf]

/-- What becomes of a forwarder: its block grows at the end, and no more once it is
cancelled. -/
structure Forwarder.Grows (w w' : Forwarder T) : Prop where
  token : w'.token = w.token
  taken : w.taken <+: w'.taken
  cancelled : w.cancelled = true → w'.cancelled = true ∧ w'.taken = w.taken

theorem Forwarder.Grows.refl (w : Forwarder T) : w.Grows w :=
  ⟨rfl, List.prefix_rfl, fun hc => ⟨hc, rfl⟩⟩

theorem Forwarder.Grows.trans {w w' w'' : Forwarder T} (h : w.Grows w') (h' : w'.Grows w'') :
    w.Grows w'' := by
  refine ⟨h'.token.trans h.token, h.taken.trans h'.taken, fun hc => ?_⟩
  obtain ⟨hc', ht⟩ := h.cancelled hc
  obtain ⟨hc'', ht'⟩ := h'.cancelled hc'
  exact ⟨hc'', ht'.trans ht⟩

namespace Tonic

variable {p p' p'' : Tonic T}

/-! ## Blocks -/

/-- Where the block of stream `k` starts in the sequence of pushed elements. -/
def start (p : Tonic T) (k : ℕ) : ℕ := ((p.streams.map Forwarder.taken).take k).flatten.length

/-- Every forwarder took a contiguous block, later forwarders took later blocks, a
stream yields its block from the front, and all forwarders but the newest are
cancelled. -/
structure Blocks (p : Tonic T) : Prop where
  block : ∀ k w, p.streams[k]? = some w → w.taken <+: p.pushed.drop (p.start k)
  disjoint : ∀ j k v, j < k → p.streams[j]? = some v → p.start j + v.taken.length ≤ p.start k
  yields : ∀ w ∈ p.streams, w.yielded <+: w.taken
  retired : ∀ k w, p.streams[k]? = some w → k + 1 < p.streams.length → w.cancelled = true

theorem start_succ {k : ℕ} {w : Forwarder T} (hk : p.streams[k]? = some w) :
    p.start (k + 1) = p.start k + w.taken.length := by
  simp [start, List.take_add_one, hk]

theorem start_mono {j k : ℕ} (h : j ≤ k) : p.start j ≤ p.start k := by
  obtain ⟨more, hm⟩ := List.take_prefix_take_left (l := p.streams.map Forwarder.taken) h
  rw [start, start, ← hm, List.flatten_append, List.length_append]
  exact Nat.le_add_right _ _

theorem Inv.blocks (h : p.Inv) : p.Blocks where
  block k w hk := by
    obtain ⟨l₁, l₂, hl, hlen, -⟩ := split_at hk w
    have hstart : p.start k = (l₁.flatMap Forwarder.taken).length := by
      rw [start, hl, List.map_append, List.take_left' (by simpa using hlen), List.flatMap_def]
    have hp := h.conserved
    rw [hl, List.flatMap_append, List.flatMap_cons, List.append_assoc, List.append_assoc] at hp
    rw [hstart, ← hp, List.drop_left]
    exact List.prefix_append _ _
  disjoint j k v hjk hj := by
    rw [← start_succ hj]
    exact start_mono hjk
  yields w hw := (h.ordered w hw).yields
  retired k w hk hlt := by
    by_contra hc
    have := h.solo k w hk (by simpa using hc)
    omega

/-! ## What later steps add -/

/-- What was pushed stays, forwarders keep their places, and blocks their starts. -/
structure Grows (p p' : Tonic T) : Prop where
  pushed : p.pushed <+: p'.pushed
  streams : ∀ (k : ℕ) (w : Forwarder T), p.streams[k]? = some w →
    ∃ w', p'.streams[k]? = some w' ∧ w.Grows w'
  starts : ∀ k, k < p.streams.length → p'.start k = p.start k

theorem Grows.refl (p : Tonic T) : p.Grows p :=
  ⟨List.prefix_rfl, fun _ w hk => ⟨w, hk, .refl w⟩, fun _ _ => rfl⟩

theorem Grows.length_le (h : p.Grows p') : p.streams.length ≤ p'.streams.length := by
  by_contra hlt
  have hk : p'.streams.length < p.streams.length := by omega
  obtain ⟨w', hw', -⟩ := h.streams _ _ (List.getElem?_eq_getElem hk)
  simp at hw'

theorem Grows.trans (h : p.Grows p') (h' : p'.Grows p'') : p.Grows p'' := by
  refine ⟨h.pushed.trans h'.pushed, fun k w hk => ?_, fun k hk => ?_⟩
  · obtain ⟨w', hk', hw⟩ := h.streams k w hk
    obtain ⟨w'', hk'', hw'⟩ := h'.streams k w' hk'
    exact ⟨w'', hk'', hw.trans hw'⟩
  · exact (h'.starts k (hk.trans_le h.length_le)).trans (h.starts k hk)

theorem grows_push (p : Tonic T) (x : T) : p.Grows (p.push x) :=
  ⟨List.prefix_append _ _, fun _ w hk => ⟨w, hk, .refl w⟩, fun _ _ => rfl⟩

theorem grows_new (p : Tonic T) (token : ℕ) : p.Grows (p.new token) := by
  refine ⟨List.prefix_rfl, fun k w hk => ⟨w, ?_, .refl w⟩, fun k hk => ?_⟩
  · simp only [new]
    rw [List.getElem?_append_left (List.getElem?_eq_some_iff.mp hk).1]
    exact hk
  · simp only [start, new, List.map_append]
    rw [List.take_append_of_le_length (by simpa using hk.le)]

theorem grows_cancel (p : Tonic T) (token : ℕ) : p.Grows (p.cancel token) := by
  have ht : (p.cancel token).streams.map Forwarder.taken = p.streams.map Forwarder.taken := by
    simp only [cancel, List.map_map]
    refine List.map_congr_left fun w _ => ?_
    simp only [Function.comp_apply]
    split_ifs <;> rfl
  refine ⟨List.prefix_rfl, fun k w hk => ?_, fun k _ => by rw [start, start, ht]⟩
  refine ⟨if w.token = token then { w with cancelled := true } else w, by simp [cancel, hk], ?_⟩
  split_ifs
  · exact ⟨rfl, List.prefix_rfl, fun _ => ⟨rfl, rfl⟩⟩
  · exact .refl w

/-- A forwarder put into the place of one that it grows from. -/
theorem grows_set {k : ℕ} {w w' : Forwarder T} (queue : List T) (hk : p.streams[k]? = some w)
    (hw : w.Grows w') (hlast : w'.taken = w.taken ∨ k + 1 = p.streams.length) :
    p.Grows ⟨queue, p.streams.set k w', p.pushed⟩ := by
  have hlt := (List.getElem?_eq_some_iff.mp hk).1
  refine ⟨List.prefix_rfl, fun j v hj => ?_, fun j hj => ?_⟩
  · simp only [List.getElem?_set, hlt, if_true]
    split_ifs with hkj
    · subst hkj
      obtain rfl := Option.some.inj (hk.symm.trans hj)
      exact ⟨w', rfl, hw⟩
    · exact ⟨v, hj, .refl v⟩
  · simp only [start, List.map_set]
    rcases hlast with ht | hlast
    · rw [← List.map_set, map_set_same hk ht]
    · rw [List.take_set_of_le (by omega)]

theorem Inv.grows (h : p.Inv) (hm : p.Moves p') : p.Grows p' := by
  cases hm with
  | stay => exact .refl p
  | forwarder k w w' hk hm =>
    obtain ⟨htok, hc, ht, -⟩ := hm.same
    exact grows_set p.queue hk ⟨htok, by rw [ht], fun h => ⟨hc ▸ h, ht⟩⟩ (.inl ht)
  | take k w x rest hk hc hh hq =>
    refine grows_set rest hk ⟨rfl, List.prefix_append _ _, fun h => ?_⟩ (.inr (h.solo k w hk hc))
    simp [hc] at h

end Tonic

/-! ## Attempts -/

namespace System

variable {opts : ClientOpts} {token : String} {s s' t : System} {tr : List (System × Action)}

theorem grows_of_link {a : Action} (hi : s.exchange.tonic.Inv) (h : s.Link opts a s') :
    s.exchange.tonic.Grows s'.exchange.tonic := by
  cases h with
  | quiet hk ht => exact ht ▸ .refl _
  | push f hk ht hf => exact ht ▸ Tonic.grows_push _ f
  | tonic p hm => exact hi.grows hm
  | enter hp => exact .refl _
  | halt p hp => exact .refl _
  | fail hp ha hc hh ht => exact ht ▸ Tonic.grows_cancel _ _
  | dial request hp hr => exact (Tonic.grows_push _ _).trans (Tonic.grows_new _ _)
  | call hp => exact .refl _
  | accept hp he hp' ha hc ht => exact ht ▸ .refl _
  | eof hp hp' ha hc ht => exact ht ▸ .refl _

theorem grows_of_run (hr : Reachable (step opts) (initial token) s) (h : Run (step opts) s tr t) :
    s.exchange.tonic.Grows t.exchange.tonic := by
  refine h.invariant (P := fun _ u => s.exchange.tonic.Grows u.exchange.tonic) (.refl _)
    fun tr u v a hrun hg hs => ?_
  have hu : Reachable (step opts) (initial token) u := hr.trans ⟨tr, hrun⟩
  exact hg.trans (grows_of_link (serving_of_reachable hu).inv (link_of_step hs))

/-- The attempts that have opened a stream, in order. -/
def opened (s : System) : List ℕ := s.exchange.tonic.streams.map Forwarder.token

theorem opened_of_link {a : Action} (h : s.Link opts a s') :
    s'.opened = s.opened ∨ s.phase = .dialing ∧ s'.opened = s.opened ++ [s.attempt] := by
  cases h with
  | quiet hk ht => exact .inl (by rw [opened, ht, opened])
  | push f hk ht hf => exact .inl (by rw [opened, ht]; rfl)
  | tonic p hm =>
    left
    cases hm with
    | stay => rfl
    | forwarder k w w' hk hm => exact map_set_same hk hm.same.1
    | take k w x rest hk hc hh hq => exact map_set_same hk rfl
  | enter hp => exact .inl rfl
  | halt p hp => exact .inl rfl
  | fail hp ha hc hh ht =>
    left
    rw [opened, ht, opened]
    simp only [Tonic.cancel, List.map_map]
    refine List.map_congr_left fun w _ => ?_
    simp only [Function.comp_apply]
    split_ifs <;> rfl
  | dial request hp hr => exact .inr ⟨hp, by simp [opened, Tonic.new, Tonic.push]⟩
  | call hp => exact .inl rfl
  | accept hp he hp' ha hc ht => exact .inl (by rw [opened, ht, opened])
  | eof hp hp' ha hc ht => exact .inl (by rw [opened, ht, opened])

theorem opened_sorted (h : Reachable (step opts) (initial token) s) :
    s.opened.Pairwise (· < ·) := by
  refine h.invariant (P := fun s => s.opened.Pairwise (· < ·)) ?_ fun u v a hr hp hs => ?_
  · exact List.Pairwise.nil
  · rcases opened_of_link (link_of_step hs) with heq | ⟨hd, heq⟩
    · exact heq ▸ hp
    · rw [heq, List.pairwise_append]
      refine ⟨hp, List.pairwise_singleton _ _, fun n hn m hm => ?_⟩
      obtain ⟨w, hw, rfl⟩ := List.mem_map.mp hn
      rw [List.mem_singleton.mp hm]
      exact ((serving_of_reachable hr).streams w hw).2 hd

/-- The streams of successive attempts are fed with successive blocks of what was
pushed, at every moment of a run. -/
structure InOrder (opts : ClientOpts) (tr : List (System × Action)) (t : System) : Prop where
  blocks : ∀ u ∈ visited tr t, u.exchange.tonic.Blocks
  attempts : ∀ u ∈ visited tr t, u.opened.Pairwise (· < ·)
  grows : ∀ x ∈ tr, ∀ v, x.1.step opts x.2 = some v →
    x.1.exchange.tonic.Grows v.exchange.tonic

theorem inOrder_of_run (h : Run (step opts) (initial token) tr t) : InOrder opts tr t := by
  refine ⟨fun u hu => ?_, fun u hu => ?_, fun x hx v hs => ?_⟩
  · obtain ⟨tr', -, hrun⟩ := h.of_visited hu
    exact (serving_of_reachable ⟨tr', hrun⟩).inv.blocks
  · obtain ⟨tr', -, hrun⟩ := h.of_visited hu
    exact opened_sorted ⟨tr', hrun⟩
  · have hr := (h.step_of_mem hx).1
    exact grows_of_link (serving_of_reachable hr).inv (link_of_step hs)

theorem sendThenReconnect_inOrder :
    ∃ tr t, Run (step (.build .app "app" "ns" (.token "t"))) (initial "") tr t ∧
      t.opened = [1, 2] ∧
      (t.exchange.tonic.streams.map fun w => w.taken.map Frame.origin) =
        [[.connect 1], [.op 0]] ∧
      InOrder (.build .app "app" "ns" (.token "t")) tr t := by
  have he : ((exec (step (.build .app "app" "ns" (.token "t"))) (initial "")
      sendThenReconnect).map fun s => (s.opened,
        s.exchange.tonic.streams.map fun w => w.taken.map Frame.origin)) =
          some ([1, 2], [[.connect 1], [.op 0]]) := by decide
  obtain ⟨tr, t, h, hp⟩ := Run.of_exec_map he
  exact ⟨tr, t, h, congrArg Prod.fst hp, congrArg Prod.snd hp, inOrder_of_run h⟩

end System

/-! ## What is left when an attempt ends -/

/-- Nothing of what the forwarder has taken is held or buffered, or was dropped. -/
def Forwarder.Drained (w : Forwarder T) : Prop := w.yielded = w.taken

theorem Forwarder.Moves.drained {w w' : Forwarder T} (ho : w.Ordered) (hm : w.Moves w')
    (h : w.Drained) : w'.Drained := by
  have hempty : w.dropped = false → w.buffer = [] ∧ w.holding = none := by
    intro hd
    have hk := ho.kept hd
    rw [← h, List.append_assoc, List.append_right_eq_self, List.append_eq_nil_iff] at hk
    exact ⟨hk.1, by simpa using hk.2⟩
  cases hm with
  | stop hc hh => exact h
  | lose x hd hh => exact h
  | store x hd hh => simp [(hempty hd).2] at hh
  | yield_ x rest hd hb => simp [(hempty hd).1] at hb
  | drop hd => exact h

namespace Tonic

variable {p p' : Tonic T}

/-- What was pushed and no stream has yielded, oldest first. -/
def unsent (p : Tonic T) : List T :=
  p.streams.flatMap (fun w => w.taken.drop w.yielded.length) ++ p.queue

/-- What the streams from place `n` on have yielded, in order. -/
def yieldedFrom (p : Tonic T) (n : ℕ) : List T := (p.streams.drop n).flatMap Forwarder.yielded

/-- All that was not yielded is in the queue exactly if all forwarders are drained. -/
theorem Inv.unsent_eq_queue (h : p.Inv) :
    p.unsent = p.queue ↔ ∀ w ∈ p.streams, w.Drained := by
  have hw : ∀ w ∈ p.streams, w.taken.drop w.yielded.length = [] ↔ w.Drained := by
    intro w hw
    have hy := (h.ordered w hw).yields
    rw [List.drop_eq_nil_iff]
    exact ⟨fun hle => hy.eq_of_length_le hle, fun hd => by rw [hd]⟩
  rw [unsent, List.append_left_eq_self, List.flatMap_eq_nil_iff]
  exact forall₂_congr hw

/-- Later streams take what an earlier queue held and what was pushed since. -/
theorem Inv.takenFrom (h : p.Inv) (h' : p'.Inv) (hg : p.Grows p')
    (hc : ∀ w ∈ p.streams, w.cancelled = true) :
    (p'.streams.drop p.streams.length).flatMap Forwarder.taken ++ p'.queue =
      p.queue ++ p'.pushed.drop p.pushed.length := by
  have hold : (p'.streams.take p.streams.length).flatMap Forwarder.taken =
      p.streams.flatMap Forwarder.taken := by
    rw [List.flatMap_def, List.flatMap_def]
    refine congrArg List.flatten (List.ext_getElem? fun k => ?_)
    rcases Nat.lt_or_ge k p.streams.length with hk | hk
    · obtain ⟨w', hw', hw⟩ := hg.streams k _ (List.getElem?_eq_getElem hk)
      have ht := (hw.cancelled (hc _ (List.getElem_mem hk))).2
      simp [List.getElem?_take_of_lt hk, hw', hk, ht]
    · rw [List.getElem?_eq_none (by simp [hk]), List.getElem?_eq_none (by simpa using hk)]
  have hp := h.conserved
  have hp' := h'.conserved
  obtain ⟨more, hm⟩ := hg.pushed
  rw [← List.take_append_drop p.streams.length p'.streams, List.flatMap_append,
    hold, ← hm, ← hp, List.append_assoc, List.append_assoc] at hp'
  rw [← hm, List.drop_left]
  exact List.append_cancel_left hp'

theorem flatMap_yielded_prefix {l : List (Forwarder T)} (ho : ∀ w ∈ l, w.Ordered)
    (hd : ∀ w ∈ l.dropLast, w.Drained) :
    l.flatMap Forwarder.yielded <+: l.flatMap Forwarder.taken := by
  rcases List.eq_nil_or_concat l with rfl | ⟨init, w, rfl⟩
  · exact List.prefix_rfl
  · rw [List.concat_eq_append] at ho hd ⊢
    have hinit : init.flatMap Forwarder.yielded = init.flatMap Forwarder.taken := by
      rw [List.flatMap_def, List.flatMap_def]
      exact congrArg List.flatten (List.map_congr_left fun v hv => hd v (by simpa using hv))
    rw [List.flatMap_append, List.flatMap_append, hinit, List.flatMap_singleton,
      List.flatMap_singleton]
    exact (List.prefix_append_right_inj _).mpr (ho w (by simp)).yields

end Tonic

namespace System

variable {opts : ClientOpts} {token : String} {s s' t : System} {tr : List (System × Action)}

/-- The attempt of `s` is over in `v`, and another one can follow. -/
def Ends (s v : System) : Prop :=
  (s.phase.connecting = true ∨ s.phase = .connected) ∧
    (v.phase = .backoff ∨ v.attempt = s.attempt + 1)

/-- Whenever an attempt ends, the frames that were not yielded are all in the queue, and
the streams of the attempts that follow yield these first and then what was pushed
later, in order and without a gap. -/
def CarriesOver (opts : ClientOpts) (tr : List (System × Action)) (t : System) : Prop :=
  ∀ tr₁ x tr₂ v, tr = tr₁ ++ x :: tr₂ → x.1.step opts x.2 = some v → x.1.Ends v →
    v.exchange.tonic.unsent = v.exchange.tonic.queue ∧
      ∀ u ∈ visited tr₂ t, u.exchange.tonic.yieldedFrom v.exchange.tonic.streams.length <+:
        v.exchange.tonic.unsent ++ u.exchange.tonic.pushed.drop v.exchange.tonic.pushed.length

/-- A step ends an attempt whose forwarder has taken a frame that is not yielded. -/
def CutsOff (opts : ClientOpts) (s : System) (a : Action) : Prop :=
  ∃ v w, s.step opts a = some v ∧ s.Ends v ∧ w ∈ s.exchange.tonic.streams ∧
    w.token = s.attempt ∧ ¬ w.Drained

/-- The forwarders of past attempts are drained; those of the last one too, if it is
over and another one can follow. -/
structure Emptied (s : System) : Prop where
  past : ∀ (k : ℕ) (w : Forwarder Frame), s.exchange.tonic.streams[k]? = some w →
    k + 1 < s.exchange.tonic.streams.length → w.Drained
  cancelled : s.phase.isEnded = false →
    ∀ w ∈ s.exchange.tonic.streams, w.cancelled = true → w.Drained

theorem Emptied.congr (h : s.Emptied) (hp : s'.phase.isEnded = false → s.phase.isEnded = false)
    (ht : s'.exchange.tonic.streams = s.exchange.tonic.streams) : s'.Emptied :=
  ⟨by rw [ht]; exact h.past, fun he => by rw [ht]; exact h.cancelled (hp he)⟩

theorem Emptied.moves (h : s.Emptied) (hi : s.exchange.tonic.Inv) {p : Tonic Frame}
    (hm : s.exchange.tonic.Moves p) :
    Emptied { s with exchange := { s.exchange with tonic := p } } := by
  cases hm with
  | stay => exact h
  | forwarder k w w' hk hm =>
    have hw := List.mem_of_getElem? hk
    have hd : w.Drained → w'.Drained := hm.drained (hi.ordered w hw)
    refine ⟨fun j v hj hlt => ?_, fun he v hv hc => ?_⟩
    · dsimp only at hj hlt
      rw [List.length_set] at hlt
      rw [List.getElem?_set] at hj
      split_ifs at hj with hkj
      · obtain rfl := Option.some.inj hj
        exact hd (h.past k w hk (hkj ▸ hlt))
      · exact h.past j v hj hlt
    · rcases List.mem_or_eq_of_mem_set hv with hv | rfl
      · exact h.cancelled he v hv hc
      · exact hd (h.cancelled he w hw (hm.same.2.1 ▸ hc))
  | take k w x rest hk hc hh hq =>
    have hlast := hi.solo k w hk hc
    refine ⟨fun j v hj hlt => ?_, fun he v hv hcv => ?_⟩
    · dsimp only at hj hlt
      rw [List.length_set] at hlt
      rw [List.getElem?_set_ne (by omega)] at hj
      exact h.past j v hj hlt
    · rcases List.mem_or_eq_of_mem_set hv with hv | rfl
      · exact h.cancelled he v hv hcv
      · simp [Forwarder.take, hc] at hcv

theorem Emptied.fail (h : s.Emptied) (hv : s.Serving) (hp : s.phase.isEnded = false)
    (hd : s'.phase.isEnded = false →
      ∀ w ∈ s.exchange.tonic.streams, w.token = s.attempt → w.Drained)
    (ht : s'.exchange.tonic = s.exchange.tonic.cancel s.attempt) : s'.Emptied := by
  refine ⟨fun k w hk hlt => ?_, fun he w hw hc => ?_⟩
  · simp only [ht, Tonic.cancel, List.length_map, List.getElem?_map,
      Option.map_eq_some_iff] at hk hlt
    obtain ⟨w₀, hk, rfl⟩ := hk
    have hw := h.past k w₀ hk hlt
    split_ifs <;> exact hw
  · rw [ht] at hw
    obtain ⟨w₀, hw₀, rfl⟩ := List.mem_map.mp hw
    have hold : w₀.Drained := by
      cases hc₀ : w₀.cancelled with
      | true => exact h.cancelled hp w₀ hw₀ hc₀
      | false => exact hd he w₀ hw₀ (hv.live w₀ hw₀ hc₀).1
    split_ifs <;> exact hold

theorem emptied_step {a : Action} (h : s.Emptied) (hv : s.Serving) (hg : ¬ CutsOff opts s a)
    (hs : s.step opts a = some s') : s'.Emptied := by
  cases link_of_step hs with
  | quiet hk ht => exact h.congr (by rw [hk.phase]; exact id) (by rw [ht])
  | push f hk ht hf => exact h.congr (by rw [hk.phase]; exact id) (by rw [ht]; rfl)
  | tonic p hm => exact h.moves hv.inv hm
  | enter hp =>
    refine h.congr (fun _ => ?_) rfl
    rcases hp with hp | hp <;> rw [hp] <;> rfl
  | halt p hp => exact ⟨h.past, fun he => by simp [hp] at he⟩
  | fail hp ha hc hh ht =>
    have hne : s.phase.isEnded = false := by
      rcases hp with hp | hp
      · cases hph : s.phase <;> simp [hph, Phase.connecting, Phase.isEnded] at hp ⊢
      · rw [hp]
        rfl
    refine h.fail hv hne (fun he w hw htok => ?_) ht
    by_contra hd
    refine hg ⟨s', w, hs, ⟨hp, ?_⟩, hw, htok, hd⟩
    rcases ha with ⟨-, ha⟩ | ⟨hend | hb, -⟩
    · exact .inr ha
    · simp [hend] at he
    · exact .inl hb
  | dial request hp hr =>
    have hall : ∀ w ∈ s.exchange.tonic.streams, w.Drained := fun w hw => by
      refine h.cancelled (by rw [hp]; rfl) w hw ?_
      by_contra hc
      have := (hv.live w hw (by simpa using hc)).2
      simp [hp, Phase.idle] at this
    refine ⟨fun k w hk hlt => ?_, fun _ w hw hc => ?_⟩
    · simp only [Tonic.new, Tonic.push, List.length_append, List.length_singleton] at hk hlt
      rw [List.getElem?_append_left (by omega)] at hk
      exact hall w (List.mem_of_getElem? hk)
    · rcases List.mem_append.mp hw with hw | hw
      · exact hall w hw
      · obtain rfl := List.mem_singleton.mp hw
        rfl
  | call hp => exact h.congr (fun _ => by rw [hp]; rfl) rfl
  | accept hp he hp' ha hc ht => exact h.congr (fun _ => by rw [hp]; rfl) (by rw [ht])
  | eof hp hp' ha hc ht => exact h.congr (fun _ => by rw [hp]; rfl) (by rw [ht])

theorem Ends.cut {a : Action} (he : s.Ends s') (hs : s.step opts a = some s') :
    s'.phase.idle = true ∧ s'.phase.isEnded = false ∧
      s'.exchange.tonic = s.exchange.tonic.cancel s.attempt := by
  obtain ⟨hp, hb⟩ := he
  have hne : s.phase ≠ .backoff ∧ s.phase ≠ .starting := by
    constructor <;> intro h <;> simp [h, Phase.connecting] at hp
  have hkept : s'.phase ≠ .backoff → s'.attempt = s.attempt → False := by
    intro hph ha
    rcases hb with hb | hb
    · exact hph hb
    · omega
  cases link_of_step hs with
  | quiet hk ht => exact (hkept (hk.phase ▸ hne.1) hk.attempt).elim
  | push f hk ht hf => exact (hkept (hk.phase ▸ hne.1) hk.attempt).elim
  | tonic p hm => exact (hkept hne.1 rfl).elim
  | enter hp' => exact (hp'.elim hne.2 hne.1).elim
  | halt p hp' => exact (hkept (fun h => by dsimp only at h; rw [h] at hp'; cases hp') rfl).elim
  | fail _ ha hc hh ht =>
    rcases ha with ⟨hd, -⟩ | ⟨hd, ha⟩
    · rw [hd]
      exact ⟨rfl, rfl, ht⟩
    · have hback : s'.phase = .backoff := by
        by_contra h
        exact hkept h ha
      rw [hback]
      exact ⟨rfl, rfl, ht⟩
  | dial request hp' hr => exact (hkept (by simp) rfl).elim
  | call hp' => exact (hkept (by simp) rfl).elim
  | accept hp' he hc ha hacc ht => exact (hkept (by simp [hc]) ha).elim
  | eof hp' hc ha hacc ht => exact (hkept (by simp [hc]) ha).elim

theorem Emptied.flatMap (h : s.Emptied) (hi : s.exchange.tonic.Inv) (n : ℕ) :
    s.exchange.tonic.yieldedFrom n <+:
      (s.exchange.tonic.streams.drop n).flatMap Forwarder.taken := by
  refine Tonic.flatMap_yielded_prefix (fun w hw => hi.ordered w (List.mem_of_mem_drop hw))
    fun w hw => ?_
  obtain ⟨k, hk⟩ := List.mem_iff_getElem?.mp hw
  rw [List.getElem?_dropLast] at hk
  split_ifs at hk with hlt
  rw [List.getElem?_drop] at hk
  rw [List.length_drop] at hlt
  exact h.past (n + k) w hk (by omega)

theorem emptied_of_run (h : Run (step opts) (initial token) tr t)
    (hg : ∀ x ∈ tr, ¬ CutsOff opts x.1 x.2) {u : System} (hu : u ∈ visited tr t) : u.Emptied :=
  h.guarded_visited hg ⟨by simp [initial, Exchange.initial, Tonic.empty],
    by simp [initial, Exchange.initial, Tonic.empty]⟩
    (fun _ _ _ hr hp hg hs => emptied_step hp (serving_of_reachable hr) hg hs) hu

theorem CarriesOver.drained (hc : CarriesOver opts tr t)
    (h : Run (step opts) (initial token) tr t) : ∀ x ∈ tr, ¬ CutsOff opts x.1 x.2 := by
  rintro x hx ⟨v, w, hs, he, hw, htok, hd⟩
  obtain ⟨tr₁, tr₂, rfl⟩ := List.append_of_mem hx
  have hsent := (hc tr₁ x tr₂ v rfl hs he).1
  have hv := serving_of_reachable (h.step_of_mem hx).1
  obtain ⟨-, -, ht⟩ := he.cut hs
  rw [ht, (hv.inv.cancel x.1.attempt).unsent_eq_queue] at hsent
  have hcut := hsent { w with cancelled := true } (List.mem_map.mpr ⟨w, hw, by simp [htok]⟩)
  exact hd hcut

theorem carriesOver_of_drained (h : Run (step opts) (initial token) tr t)
    (hg : ∀ x ∈ tr, ¬ CutsOff opts x.1 x.2) : CarriesOver opts tr t := by
  rintro tr₁ x tr₂ v rfl hs he
  obtain ⟨hbefore, v', hs', hafter⟩ := h.around
  obtain rfl : v = v' := Option.some.inj (hs.symm.trans hs')
  have hr : Reachable (step opts) (initial token) v := ⟨_, hbefore.snoc hs⟩
  have hv := serving_of_reachable hr
  obtain ⟨hidle, hne, -⟩ := he.cut hs
  have hcancelled : ∀ w ∈ v.exchange.tonic.streams, w.cancelled = true := by
    intro w hw
    by_contra hc
    have := (hv.live w hw (by simpa using hc)).2
    simp [hidle] at this
  have hvisited : ∀ u ∈ visited tr₂ t, u ∈ visited (tr₁ ++ x :: tr₂) t := by
    intro u hu
    rw [visited_append]
    exact List.mem_append_right _ (List.mem_cons_of_mem _ hu)
  have hemptied := emptied_of_run h hg (hvisited v hafter.first_visited)
  have hsent := hv.inv.unsent_eq_queue.mpr fun w hw =>
    hemptied.cancelled hne w hw (hcancelled w hw)
  refine ⟨hsent, fun u hu => ?_⟩
  obtain ⟨tr', -, hrun⟩ := hafter.of_visited hu
  obtain ⟨tr'', -, hrun'⟩ := h.of_visited (hvisited u hu)
  have hui := (serving_of_reachable ⟨tr'', hrun'⟩).inv
  rw [hsent, ← hv.inv.takenFrom hui (grows_of_run hr hrun) hcancelled]
  exact ((emptied_of_run h hg (hvisited u hu)).flatMap hui _).trans (List.prefix_append _ _)

/-- In a run, frames are carried over the end of every attempt exactly if each time the
forwarder of the attempt has taken nothing that its stream has not yielded. -/
theorem carriesOver_iff (h : Run (step opts) (initial token) tr t) :
    CarriesOver opts tr t ↔ ∀ x ∈ tr, ¬ CutsOff opts x.1 x.2 :=
  ⟨fun hc => hc.drained h, carriesOver_of_drained h⟩

/-- A first connection that is accepted, a message sent over it, and a reconnect. -/
def sentThenReconnect : List Action :=
  firstConnection ++ [.relayConnect none, .response (.message (some
    (.connectResponse "app" true "")) ⟨"", 0⟩),
    .client (.send ⟨.orb, [1], "orb", "ns", .atMostOnce⟩), .client (.poll 0), .take,
    .tonic (.poll 0), .tonic (.handOver 0), .tonic (.yield_ 0),
    .client .reconnect, .take, .dial .ok, .tonic (.poll 1), .tonic (.handOver 1),
    .tonic (.yield_ 1)]

/-- What each stream of a client has yielded. -/
def yields (s : System) : List (List Origin) :=
  s.exchange.tonic.streams.map fun w => w.yielded.map Frame.origin

theorem sentThenReconnect_carries :
    ∃ tr t, Run (step (.build .app "app" "ns" (.token "t"))) (initial "") tr t ∧
      t.yields = [[.connect 1, .op 0], [.connect 2]] ∧
      (CarriesOver (.build .app "app" "ns" (.token "t")) tr t ↔
        ∀ x ∈ tr, ¬ CutsOff (.build .app "app" "ns" (.token "t")) x.1 x.2) := by
  have he : ((exec (step (.build .app "app" "ns" (.token "t"))) (initial "")
      sentThenReconnect).map yields) = some [[.connect 1, .op 0], [.connect 2]] := by decide
  obtain ⟨tr, t, h, hy⟩ := Run.of_exec_map he
  exact ⟨tr, t, h, hy, carriesOver_iff h⟩

/-- A message that was sent while offline is in the hand of the first connection's
forwarder when the client reconnects. -/
def heldThenReconnect : List Action :=
  [.client (.send ⟨.orb, [1], "orb", "ns", .atMostOnce⟩), .client (.poll 0)] ++
    firstConnection ++ [.relayConnect none, .response (.message (some
    (.connectResponse "app" true "")) ⟨"", 0⟩), .take, .tonic (.poll 0),
    .client .reconnect, .take, .dial .ok, .tonic (.poll 1), .tonic (.handOver 1),
    .tonic (.yield_ 1)]

theorem heldThenReconnect_lost :
    ∃ tr t, Run (step (.build .app "app" "ns" (.token "t"))) (initial "") tr t ∧
      t.exchange.tonic.pushed.map Frame.origin = [.connect 1, .op 0, .connect 2] ∧
      t.yields = [[.connect 1], [.connect 2]] ∧
      ¬ CarriesOver (.build .app "app" "ns" (.token "t")) tr t := by
  have he : ((exec (step (.build .app "app" "ns" (.token "t"))) (initial "")
      heldThenReconnect).map fun s => (s.exchange.tonic.pushed.map Frame.origin, s.yields,
        s.phase.isEnded, s.exchange.tonic.streams.map fun w =>
          (w.cancelled, w.taken.map Frame.origin))) =
            some ([.connect 1, .op 0, .connect 2], [[.connect 1], [.connect 2]], false,
              [(true, [.connect 1, .op 0]), (false, [.connect 2])]) := by decide
  obtain ⟨tr, t, h, hp⟩ := Run.of_exec_map he
  simp only [Prod.mk.injEq] at hp
  obtain ⟨hpushed, hy, hend, hw⟩ := hp
  refine ⟨tr, t, h, hpushed, hy, fun hc => ?_⟩
  obtain ⟨w, rest, hs⟩ : ∃ w rest, t.exchange.tonic.streams = w :: rest := by
    cases hs : t.exchange.tonic.streams with
    | nil => simp [hs] at hw
    | cons w rest => exact ⟨w, rest, rfl⟩
  rw [yields, hs, List.map_cons, List.cons.injEq] at hy
  rw [hs, List.map_cons, List.cons.injEq, Prod.mk.injEq] at hw
  have hd : w.yielded = w.taken :=
    (emptied_of_run h (hc.drained h) (by simp [visited])).cancelled hend w (by simp [hs]) hw.1.1
  rw [hd, hw.1.2] at hy
  cases hy.1

end System
end OrbRelay.Client
