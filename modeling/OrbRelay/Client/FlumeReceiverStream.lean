import Mathlib.Tactic

/-!
# A queue that outlives the streams it is served through

`flume_receiver_stream::new` spawns a forwarder, which moves elements from a
flume receiver into a bounded channel until its token is cancelled or the
receiving stream is dropped. Several forwarders can be alive on one queue. One
poll of a forwarder's `select` is one step, and so is one completion of its
`send`.
-/
namespace OrbRelay.Client

variable {T : Type*}

/-- The channel buffer of a stream. -/
def streamBuffer : ℕ := 4

/-- A forwarder with its stream. `taken` and `seen` are history: what it has moved
out of the queue so far, and what the queue held when it was spawned. -/
structure Forwarder (T : Type*) where
  token : ℕ
  cancelled : Bool
  finished : Bool
  holding : Option T
  buffer : List T
  yielded : List T
  dropped : Bool
  taken : List T
  seen : List T
deriving DecidableEq, Repr

/-- The queue behind `tonic_tx` and `tonic_rx`, every stream opened on it, and the
history of what was pushed. -/
structure Tonic (T : Type*) where
  queue : List T
  streams : List (Forwarder T)
  pushed : List T
deriving DecidableEq, Repr

/-- What the tasks around the queue can do; a stream is named by its place. -/
inductive TonicAction where
  | poll (k : ℕ)
  | handOver (k : ℕ)
  | yield_ (k : ℕ)
  | drop (k : ℕ)
deriving DecidableEq, Repr

namespace Tonic

def empty : Tonic T := ⟨[], [], []⟩

/-- `tonic_tx.send`; one end of the queue is kept open by the actor. -/
def push (p : Tonic T) (x : T) : Tonic T :=
  { p with queue := p.queue ++ [x], pushed := p.pushed ++ [x] }

/-- `flume_receiver_stream::new` on a clone of `tonic_rx`. -/
def new (p : Tonic T) (token : ℕ) : Tonic T :=
  { p with streams := p.streams ++ [⟨token, false, false, none, [], [], false, [], p.queue⟩] }

/-- `CancellationToken::cancel`. -/
def cancel (p : Tonic T) (token : ℕ) : Tonic T :=
  { p with streams := p.streams.map fun w =>
      if w.token = token then { w with cancelled := true } else w }

/-- One poll of the `select`, which looks at the token first. -/
def poll (p : Tonic T) (k : ℕ) (w : Forwarder T) : Tonic T :=
  if w.cancelled then { p with streams := p.streams.set k { w with finished := true } }
  else match p.queue with
    | [] => p
    | x :: rest =>
      { p with
        queue := rest
        streams := p.streams.set k { w with holding := some x, taken := w.taken ++ [x] } }

/-- `tx.send(msg).await` completes: the stream is gone, or the buffer has room. -/
def handOver (p : Tonic T) (k : ℕ) (w : Forwarder T) (x : T) : Option (Tonic T) :=
  if w.dropped then
    some { p with streams := p.streams.set k { w with finished := true, holding := none } }
  else if w.buffer.length < streamBuffer then
    some { p with streams := p.streams.set k { w with holding := none, buffer := w.buffer ++ [x] } }
  else none

/-- One step of a forwarder, of the transport that reads its stream, or of whoever
drops the stream. -/
def step (p : Tonic T) : TonicAction → Option (Tonic T)
  | .poll k => do
    let w ← p.streams[k]?
    if w.finished ∨ w.holding.isSome then none else some (p.poll k w)
  | .handOver k => do
    let w ← p.streams[k]?
    let x ← w.holding
    if w.finished then none else p.handOver k w x
  | .yield_ k => do
    let w ← p.streams[k]?
    if w.dropped then none else match w.buffer with
      | [] => none
      | x :: rest => some { p with
          streams := p.streams.set k { w with buffer := rest, yielded := w.yielded ++ [x] } }
  | .drop k => do
    let w ← p.streams[k]?
    if w.dropped then none
    else some { p with streams := p.streams.set k { w with dropped := true, buffer := [] } }

end Tonic

/-! ## What one step changes -/

/-- Changes of one forwarder that leave the queue alone. -/
inductive Forwarder.Moves : Forwarder T → Forwarder T → Prop where
  | stop (w : Forwarder T) (hc : w.cancelled = true) (hh : w.holding = none) :
      Moves w { w with finished := true }
  | lose (w : Forwarder T) (x : T) (hd : w.dropped = true) (hh : w.holding = some x) :
      Moves w { w with finished := true, holding := none }
  | store (w : Forwarder T) (x : T) (hd : w.dropped = false) (hh : w.holding = some x) :
      Moves w { w with holding := none, buffer := w.buffer ++ [x] }
  | yield_ (w : Forwarder T) (x : T) (rest : List T) (hd : w.dropped = false)
      (hb : w.buffer = x :: rest) :
      Moves w { w with buffer := rest, yielded := w.yielded ++ [x] }
  | drop (w : Forwarder T) (hd : w.dropped = false) :
      Moves w { w with dropped := true, buffer := [] }

/-- The forwarder after it has taken `x` out of the queue. -/
def Forwarder.take (w : Forwarder T) (x : T) : Forwarder T :=
  { w with holding := some x, taken := w.taken ++ [x] }

theorem Forwarder.Moves.same {w w' : Forwarder T} (h : w.Moves w') :
    w'.token = w.token ∧ w'.cancelled = w.cancelled ∧ w'.taken = w.taken ∧ w'.seen = w.seen := by
  cases h <;> exact ⟨rfl, rfl, rfl, rfl⟩

/-- What a forwarder took is yielded, buffered and held in this order, as long as
its stream is there. -/
structure Forwarder.Ordered (w : Forwarder T) : Prop where
  yields : w.yielded <+: w.taken
  kept : w.dropped = false → w.yielded ++ w.buffer ++ w.holding.toList = w.taken

theorem Forwarder.Ordered.moves {w w' : Forwarder T} (h : w.Ordered) (hm : w.Moves w') :
    w'.Ordered := by
  cases hm with
  | stop hc hh => exact ⟨h.yields, h.kept⟩
  | lose x hd hh => exact ⟨h.yields, fun hd' => by simp [hd] at hd'⟩
  | store x hd hh => exact ⟨h.yields, fun hd => by simpa [hh] using h.kept hd⟩
  | yield_ x rest hd hb =>
    have hk : w.yielded ++ [x] ++ (rest ++ w.holding.toList) = w.taken := by
      simpa [hb] using h.kept hd
    exact ⟨⟨_, hk⟩, fun _ => by simpa using hk⟩
  | drop hd => exact ⟨h.yields, fun hd => by cases hd⟩

theorem Forwarder.Ordered.take {w : Forwarder T} (h : w.Ordered) (hh : w.holding = none) (x : T) :
    (w.take x).Ordered where
  yields := h.yields.trans (List.prefix_append _ _)
  kept hd := by
    have hk := h.kept hd
    simp only [hh, Option.toList_none, List.append_nil] at hk
    simp [Forwarder.take, ← hk]

/-- The list around its place `k`, before and after that place is overwritten. -/
theorem split_at {α : Type*} {l : List α} {k : ℕ} {a : α} (hk : l[k]? = some a) (b : α) :
    ∃ l₁ l₂, l = l₁ ++ a :: l₂ ∧ l₁.length = k ∧ l.set k b = l₁ ++ b :: l₂ := by
  obtain ⟨hlt, ha⟩ := List.getElem?_eq_some_iff.mp hk
  obtain ⟨l₁, l₂, hl, hlen, hset⟩ : ∃ l₁ l₂, l = l₁ ++ l[k] :: l₂ ∧ l₁.length = k ∧
      l.set k b = l₁ ++ b :: l₂ := List.exists_of_set hlt
  exact ⟨l₁, l₂, ha ▸ hl, hlen, hset⟩

namespace Tonic

/-- A step leaves everything as it is, changes one forwarder, or takes one element
out of the queue through a forwarder that is not cancelled. -/
inductive Moves (p : Tonic T) : Tonic T → Prop where
  | stay : Moves p p
  | forwarder (k : ℕ) (w w' : Forwarder T) (hk : p.streams[k]? = some w) (hm : w.Moves w') :
      Moves p { p with streams := p.streams.set k w' }
  | take (k : ℕ) (w : Forwarder T) (x : T) (rest : List T) (hk : p.streams[k]? = some w)
      (hc : w.cancelled = false) (hh : w.holding = none) (hq : p.queue = x :: rest) :
      Moves p { p with queue := rest, streams := p.streams.set k (w.take x) }

theorem moves_of_step {p p' : Tonic T} {a : TonicAction} (h : p.step a = some p') :
    p.Moves p' := by
  cases a with
  | poll k =>
    simp only [step, Option.bind_eq_bind, Option.bind_eq_some_iff] at h
    obtain ⟨w, hk, h⟩ := h
    split_ifs at h with hf
    simp only [not_or, Bool.not_eq_true, Option.isSome_eq_false_iff,
      Option.isNone_iff_eq_none] at hf
    obtain rfl := Option.some.inj h
    unfold poll
    split_ifs with hc
    · exact .forwarder k w _ hk (.stop w hc hf.2)
    · split
      · exact .stay
      · next x rest hq => exact .take k w x rest hk (by simpa using hc) hf.2 hq
  | handOver k =>
    simp only [step, Option.bind_eq_bind, Option.bind_eq_some_iff] at h
    obtain ⟨w, hk, x, hh, h⟩ := h
    split_ifs at h
    unfold handOver at h
    split_ifs at h with hd hb
    · obtain rfl := Option.some.inj h
      exact .forwarder k w _ hk (.lose w x hd hh)
    · obtain rfl := Option.some.inj h
      exact .forwarder k w _ hk (.store w x (by simpa using hd) hh)
  | yield_ k =>
    simp only [step, Option.bind_eq_bind, Option.bind_eq_some_iff] at h
    obtain ⟨w, hk, h⟩ := h
    split_ifs at h with hd
    split at h
    · cases h
    · next x rest hb =>
      obtain rfl := Option.some.inj h
      exact .forwarder k w _ hk (.yield_ w x rest (by simpa using hd) hb)
  | drop k =>
    simp only [step, Option.bind_eq_bind, Option.bind_eq_some_iff] at h
    obtain ⟨w, hk, h⟩ := h
    split_ifs at h with hd
    obtain rfl := Option.some.inj h
    exact .forwarder k w _ hk (.drop w (by simpa using hd))

/-! ## The queue is served in order -/

/-- One forwarder at most is not cancelled, and it is the newest. What forwarders
took, in the order they were spawned, and what the queue holds is what was pushed.
Each one took from what it saw on, and none but the newest takes any more. -/
structure Inv (p : Tonic T) : Prop where
  solo : ∀ k w, p.streams[k]? = some w → w.cancelled = false → k + 1 = p.streams.length
  conserved : p.streams.flatMap Forwarder.taken ++ p.queue = p.pushed
  ordered : ∀ w ∈ p.streams, w.Ordered
  live : ∀ w ∈ p.streams, w.cancelled = false → ∃ later, w.taken ++ p.queue = w.seen ++ later
  past : ∀ w ∈ p.streams, ∃ rest later, w.taken ++ rest = w.seen ++ later

theorem inv_empty : (empty : Tonic T).Inv := by
  constructor <;> simp [empty]

theorem Inv.push {p : Tonic T} (h : p.Inv) (x : T) : (p.push x).Inv where
  solo := h.solo
  conserved := by
    change p.streams.flatMap Forwarder.taken ++ (p.queue ++ [x]) = p.pushed ++ [x]
    rw [← h.conserved, List.append_assoc]
  ordered := h.ordered
  live w hw hc := by
    obtain ⟨later, hl⟩ := h.live w hw hc
    refine ⟨later ++ [x], ?_⟩
    change w.taken ++ (p.queue ++ [x]) = w.seen ++ (later ++ [x])
    rw [← List.append_assoc, hl, List.append_assoc]
  past := h.past

theorem Inv.new {p : Tonic T} (h : p.Inv) (token : ℕ)
    (hc : ∀ w ∈ p.streams, w.cancelled = true) : (p.new token).Inv := by
  constructor
  · intro k w hk hw
    simp only [Tonic.new, List.getElem?_append, List.length_append, List.length_singleton] at hk ⊢
    split_ifs at hk with hlt
    · exact absurd (hc w (List.mem_of_getElem? hk)) (by simp [hw])
    · have : k - p.streams.length < 1 := by
        simpa using (List.getElem?_eq_some_iff.mp hk).1
      omega
  · simpa [Tonic.new] using h.conserved
  · simp only [Tonic.new, List.mem_append, List.mem_singleton]
    rintro w (hw | rfl)
    · exact h.ordered w hw
    · exact ⟨List.prefix_rfl, fun _ => rfl⟩
  · simp only [Tonic.new, List.mem_append, List.mem_singleton]
    rintro w (hw | rfl) hw'
    · exact absurd (hc w hw) (by simp [hw'])
    · exact ⟨[], by simp⟩
  · simp only [Tonic.new, List.mem_append, List.mem_singleton]
    rintro w (hw | rfl)
    · exact h.past w hw
    · exact ⟨p.queue, [], by simp⟩

theorem Inv.cancel {p : Tonic T} (h : p.Inv) (token : ℕ) : (p.cancel token).Inv := by
  let f : Forwarder T → Forwarder T := fun w =>
    if w.token = token then { w with cancelled := true } else w
  have hf (w : Forwarder T) : (f w).taken = w.taken ∧ (f w).seen = w.seen ∧
      ((f w).cancelled = false → w.cancelled = false) ∧ (w.Ordered → (f w).Ordered) := by
    dsimp only [f]
    split_ifs
    · exact ⟨rfl, rfl, by simp, fun ho => ⟨ho.yields, ho.kept⟩⟩
    · exact ⟨rfl, rfl, id, id⟩
  have hs : (p.cancel token).streams = p.streams.map f := rfl
  constructor
  · intro k w hk hw
    rw [hs] at hk ⊢
    obtain ⟨v, hv, rfl⟩ := by simpa only [List.getElem?_map, Option.map_eq_some_iff] using hk
    simpa using h.solo k v hv ((hf v).2.2.1 hw)
  · change (p.cancel token).streams.flatMap Forwarder.taken ++ p.queue = p.pushed
    rw [hs, List.flatMap_map]
    simpa only [(hf _).1] using h.conserved
  · simp only [hs, List.forall_mem_map]
    exact fun w hw => (hf w).2.2.2 (h.ordered w hw)
  · simp only [hs, List.forall_mem_map, (hf _).1, (hf _).2.1]
    exact fun w hw hw' => h.live w hw ((hf w).2.2.1 hw')
  · simp only [hs, List.forall_mem_map, (hf _).1, (hf _).2.1]
    exact h.past

theorem Inv.forwarder {p : Tonic T} {k : ℕ} {w w' : Forwarder T} (h : p.Inv)
    (hk : p.streams[k]? = some w) (hm : w.Moves w') :
    ({ p with streams := p.streams.set k w' } : Tonic T).Inv := by
  obtain ⟨-, hc, ht, hse⟩ := hm.same
  have hw := List.mem_of_getElem? hk
  constructor
  · intro j v hj hv
    rw [List.length_set]
    rw [List.getElem?_set] at hj
    split_ifs at hj with hjk
    · obtain rfl := Option.some.inj hj
      exact hjk ▸ h.solo k w hk (hc ▸ hv)
    · exact h.solo j v hj hv
  · obtain ⟨l₁, l₂, hl, -, hset⟩ := split_at hk w'
    have hcons := h.conserved
    rw [hl] at hcons
    simpa [hset, ht] using hcons
  · intro v hv
    rcases List.mem_or_eq_of_mem_set hv with hv | rfl
    · exact h.ordered v hv
    · exact (h.ordered w hw).moves hm
  · intro v hv hvc
    rcases List.mem_or_eq_of_mem_set hv with hv | rfl
    · exact h.live v hv hvc
    · rw [ht, hse]
      exact h.live w hw (hc ▸ hvc)
  · intro v hv
    rcases List.mem_or_eq_of_mem_set hv with hv | rfl
    · exact h.past v hv
    · rw [ht, hse]
      exact h.past w hw

theorem Inv.take {p : Tonic T} {k : ℕ} {w : Forwarder T} {x : T} {rest : List T} (h : p.Inv)
    (hk : p.streams[k]? = some w) (hc : w.cancelled = false) (hh : w.holding = none)
    (hq : p.queue = x :: rest) :
    ({ p with queue := rest, streams := p.streams.set k (w.take x) } : Tonic T).Inv := by
  have hw := List.mem_of_getElem? hk
  have hlast := h.solo k w hk hc
  have hothers : ∀ v ∈ p.streams.set k (w.take x), v = w.take x ∨
      v ∈ p.streams ∧ v.cancelled = true := by
    intro v hv
    obtain ⟨j, hj⟩ := List.mem_iff_getElem?.mp hv
    rw [List.getElem?_set] at hj
    split_ifs at hj with hjk
    · exact .inl (Option.some.inj hj).symm
    · refine .inr ⟨List.mem_of_getElem? hj, ?_⟩
      by_contra hvc
      have := h.solo j v hj (by simpa using hvc)
      omega
  constructor
  · intro j v hj hv
    rw [List.length_set]
    rw [List.getElem?_set] at hj
    split_ifs at hj with hjk
    · exact hjk ▸ hlast
    · exact h.solo j v hj hv
  · obtain ⟨l₁, l₂, hl, hlen, hset⟩ := split_at hk (w.take x)
    obtain rfl : l₂ = [] := by
      rw [← List.length_eq_zero_iff]
      have := congrArg List.length hl
      simp at this
      omega
    have hcons := h.conserved
    rw [hl, hq] at hcons
    change (p.streams.set k (w.take x)).flatMap Forwarder.taken ++ rest = p.pushed
    rw [hset]
    simpa [Forwarder.take] using hcons
  · intro v hv
    rcases hothers v hv with rfl | ⟨hv, -⟩
    · exact (h.ordered w hw).take hh x
    · exact h.ordered v hv
  · intro v hv hvc
    rcases hothers v hv with rfl | ⟨-, hv⟩
    · obtain ⟨later, hl⟩ := h.live w hw hc
      exact ⟨later, by simpa [Forwarder.take, hq] using hl⟩
    · simp [hv] at hvc
  · intro v hv
    rcases hothers v hv with rfl | ⟨hv, -⟩
    · obtain ⟨later, hl⟩ := h.live w hw hc
      exact ⟨rest, later, by simpa [Forwarder.take, hq] using hl⟩
    · exact h.past v hv

theorem Inv.moves {p p' : Tonic T} (h : p.Inv) (hm : p.Moves p') : p'.Inv := by
  cases hm with
  | stay => exact h
  | forwarder k w w' hk hm => exact h.forwarder hk hm
  | take k w x rest hk hc hh hq => exact h.take hk hc hh hq

/-- The first element that a stream yields is the first that its forwarder saw. -/
theorem Inv.head_yielded {p : Tonic T} (h : p.Inv) {w : Forwarder T} (hw : w ∈ p.streams)
    (hs : w.seen ≠ []) {x : T} (hx : w.yielded.head? = some x) : w.seen.head? = some x := by
  obtain ⟨rest, later, hp⟩ := h.past w hw
  obtain ⟨more, ht⟩ := (h.ordered w hw).yields
  have hhead : (w.seen ++ later).head? = some x := by
    rw [← hp, ← ht, List.append_assoc, List.head?_append, hx, Option.some_or]
  rwa [List.head?_append_of_ne_nil _ hs] at hhead

/-- A forwarder keeps its token and what it saw, and stays cancelled. -/
theorem Moves.origin {p p' : Tonic T} (hm : p.Moves p') {w' : Forwarder T}
    (hw : w' ∈ p'.streams) :
    ∃ w ∈ p.streams, w'.token = w.token ∧ w'.seen = w.seen ∧ w'.cancelled = w.cancelled := by
  cases hm with
  | stay => exact ⟨w', hw, rfl, rfl, rfl⟩
  | forwarder k w v hk hm =>
    rcases List.mem_or_eq_of_mem_set hw with hw | rfl
    · exact ⟨w', hw, rfl, rfl, rfl⟩
    · exact ⟨w, List.mem_of_getElem? hk, hm.same.1, hm.same.2.2.2, hm.same.2.1⟩
  | take k w x rest hk hc hh hq =>
    rcases List.mem_or_eq_of_mem_set hw with hw | rfl
    · exact ⟨w', hw, rfl, rfl, rfl⟩
    · exact ⟨w, List.mem_of_getElem? hk, rfl, rfl, rfl⟩

theorem cancel_origin {p : Tonic T} {token : ℕ} {w' : Forwarder T}
    (hw : w' ∈ (p.cancel token).streams) :
    ∃ w ∈ p.streams, w'.token = w.token ∧ w'.seen = w.seen ∧
      (w'.cancelled = false → w.cancelled = false ∧ w.token ≠ token) := by
  obtain ⟨w, hmem, rfl⟩ := List.mem_map.mp hw
  refine ⟨w, hmem, ?_⟩
  split_ifs with ht
  · exact ⟨rfl, rfl, by simp⟩
  · exact ⟨rfl, rfl, fun hc => ⟨hc, ht⟩⟩

end Tonic
end OrbRelay.Client
