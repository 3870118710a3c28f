import OrbRelay.Client.Attempts
import OrbRelay.Client.Retries

/-!
# How many timers there are

Every handled registration of a waiter spawns a timer, and a timer that goes off is
followed by one more at most. So timers do not multiply, however often the client
reconnects and however many retries are allowed.
-/
namespace OrbRelay.Client
open Transition

/-- What a timer is for: the waiter under a key, or the heartbeat. -/
def Msg.timer? : Msg → Option (Option Key)
  | .retryAck k _ => some (some (.ack k))
  | .retryAsk id k _ => some (some (.ask id k))
  | .heartbeat => some none
  | _ => none

theorem Msg.timer?_eq_none {m : Msg} (h : m.timer = false) : m.timer? = none := by
  cases m <;> first | rfl | cases h

namespace Exchange

variable {opts : ClientOpts} {e e' : Exchange} {l : Option Msg} {m : Msg} {p : Option Key → Bool}

/-- The timers of a class that sleep, or whose message is in the actor's queue. -/
def timers (p : Option Key → Bool) (e : Exchange) : ℕ := e.tokens.countP fun m => m.timer?.any p

/-- The registrations that spawn timers of the class. -/
def registered (p : Option Key → Bool) (e : Exchange) : ℕ :=
  e.handled.countP fun m => m.registers?.any (p ∘ some)

/-- A timer for each registration, and one for the heartbeat. -/
def TimersBounded (p : Option Key → Bool) (e : Exchange) : Prop :=
  e.timers p ≤ e.registered p + if e.state.heartbeatStarted && p none then 1 else 0

@[simp] theorem timers_sleep (p : Option Key → Bool) (e : Exchange) (m : Msg) :
    (e.sleep m).timers p = e.timers p + if m.timer?.any p then 1 else 0 :=
  countP_tokens_sleep _ e m

@[simp] theorem timers_post (p : Option Key → Bool) (e : Exchange) (m : Msg) :
    (e.post m).timers p = e.timers p + if m.timer?.any p then 1 else 0 :=
  countP_tokens_post _ e m

theorem timers_take (p : Option Key → Bool) {rest : List Msg} (hq : e.actorRx = m :: rest) :
    e.timers p = { e with actorRx := rest }.timers p + if m.timer?.any p then 1 else 0 :=
  countP_tokens_take _ hq

@[simp] theorem registered_note (p : Option Key → Bool) (e : Exchange) (m : Msg) :
    (e.note m).registered p =
      e.registered p + if m.registers?.any (p ∘ some) then 1 else 0 := by
  simp [registered, note, List.countP_append, List.countP_singleton]

/-- A handler follows a timer by at most one of the same class. -/
theorem timers_handled (h : Handled opts e m e') :
    e'.timers p ≤ e.timers p + (if m.timer?.any p then 1 else 0) +
      if m.registers?.any (p ∘ some) then 1 else 0 := by
  cases h with
  | waitForAck msg o seq => exact (timers_sleep p _ _).le
  | waitForReply msg o seq => exact (timers_sleep p _ _).le
  | retryAck seq left msg o hp hl => exact (timers_sleep p _ _).le
  | retryAsk id seq left msg o hp hl => exact (timers_sleep p _ _).le
  | heartbeat => exact (timers_sleep p _ _).le
  | _ => exact (Nat.le_add_right _ _).trans (Nat.le_add_right _ _)

/-- A message that has been taken out of the queue is handled. -/
theorem TimersBounded.handled (h : e.TimersBounded p) (e₁ : Exchange)
    (ht : e.timers p = e₁.timers p + if m.timer?.any p then 1 else 0)
    (hr : e₁.handled = (e.note m).handled) (hs : e₁.state = e.state)
    (hh : Handled opts e₁ m e') : e'.TimersBounded p := by
  have hle := timers_handled (p := p) hh
  have hreg : e'.registered p = (e.note m).registered p := by
    simp only [registered, hh.handled, hr]
  have hstarted := hh.heartbeatStarted
  rw [hs] at hstarted
  unfold TimersBounded at h ⊢
  rw [hreg, registered_note, hstarted]
  omega

theorem TimersBounded.moves (h : e.TimersBounded p) (hm : e.Moves opts l e') :
    e'.TimersBounded p := by
  cases hm with
  | stay => exact h
  | tonic q hq => exact h
  | dial q request n hq => exact h
  | heartbeat hs =>
    have ht := timers_sleep p { e with state := { e.state with heartbeatStarted := true } }
      .heartbeat
    have hle : e.timers p ≤ e.registered p := by simpa [TimersBounded, hs] using h
    unfold TimersBounded
    rw [ht]
    exact Nat.add_le_add hle le_rfl
  | called hc =>
    have ht : e'.timers p = e.timers p :=
      hc.countP_tokens fun m hm => by simp [Msg.timer?_eq_none hm]
    have hh : e'.handled = e.handled := by cases hc <;> rfl
    have hstate : e'.state = e.state := by cases hc <;> rfl
    unfold TimersBounded
    rw [ht, registered, hh, hstate]
    exact h
  | fire i msg hi =>
    have ht := countP_tokens_fire (fun m => m.timer?.any p) hi
    exact ht.trans_le h
  | forward msg tag =>
    have ht := timers_post p e (.relayResponse msg tag)
    exact ht.trans_le h
  | take msg rest hq hh =>
    exact h.handled ({ e with actorRx := rest }.note msg) (timers_take p hq) rfl rfl hh
  | takeFail msg rest q hq hf hp =>
    have ht := timers_take p hq
    have hreg := registered_note p { e with actorRx := rest } msg
    have hle : { e with actorRx := rest }.timers p ≤ e.timers p := by omega
    exact (hle.trans h).trans (Nat.add_le_add_right ((Nat.le_add_right _ _).trans hreg.ge) _)
  | read msg tag hq hh => exact h.handled (e.note (.relayResponse msg tag)) rfl rfl rfl hh
  | readFail msg tag q hq hf hp =>
    have hreg := registered_note p e (.relayResponse msg tag)
    exact h.trans (Nat.add_le_add_right ((Nat.le_add_right _ _).trans hreg.ge) _)

/-- A call registers one waiter at most. -/
theorem Accounted.registers_le (ha : e.Accounted opts) (o : OpId) :
    e.handled.countP (fun m => m.registers?.isSome && m.by? = some o) ≤ 1 := by
  have hle : e.handled.countP (fun m => m.registers?.isSome && m.by? = some o) ≤
      (e.issued o).countP fun m => m.registers?.isSome := by
    rw [issued, List.countP_filter, trail, List.countP_append]
    exact Nat.le_add_right _ _
  refine hle.trans ?_
  cases ho : e.ops[o]? with
  | none => simp [ha.absent o ho]
  | some op =>
    have hfirst : (op.call.first opts o).registers? = none := rfl
    rcases (ha.calls o op ho).shape with hs | hs | ⟨m, -, hs⟩ <;> rw [hs]
    · simp
    · simp [hfirst]
    · have htwo := List.countP_le_length (p := fun m : Msg => m.registers?.isSome) (l := [m])
      simpa [List.countP_cons, hfirst] using htwo

theorem registered_le (ha : e.Accounted opts) : e.registered (fun _ => true) ≤ e.ops.length := by
  let l := e.handled.filter fun m => m.registers?.isSome
  have hby : ∀ m : Msg, m.registers?.isSome → m.by?.isSome := by
    intro m hm
    cases m <;> first | rfl | cases hm
  have hlen : (l.filterMap Msg.by?).length = e.registered fun _ => true := by
    rw [List.length_filterMap_eq_countP, List.countP_filter, registered]
    refine List.countP_congr fun m _ => ?_
    cases hm : m.registers? with
    | none => simp
    | some k =>
      have := hby m (by simp [hm])
      simp [this]
  have hnodup : (l.filterMap Msg.by?).Nodup := by
    refine List.nodup_iff_count_le_one.mpr fun o => ?_
    rw [List.count_filterMap, List.countP_filter]
    refine (List.countP_congr fun m _ => ?_).le.trans (ha.registers_le o)
    simp [and_comm]
  have hsub : l.filterMap Msg.by? ⊆ List.range e.ops.length := by
    intro o ho
    obtain ⟨m, hm, hmo⟩ := List.mem_filterMap.mp ho
    have hmem := (List.mem_filter.mp hm).1
    obtain ⟨op, hop, -⟩ := ha.of_trail (List.mem_append_left _ hmem) hmo
    exact List.mem_range.mpr (List.getElem?_eq_some_iff.mp hop).1
  rw [← hlen]
  exact (List.subperm_of_subset hnodup hsub).length_le.trans_eq List.length_range

end Exchange

namespace System

variable {opts : ClientOpts} {token : String} {s : System}

theorem timersBounded_of_reachable (h : Reachable (step opts) (initial token) s)
    (p : Option Key → Bool) : s.exchange.TimersBounded p :=
  h.invariant (P := fun s => s.exchange.TimersBounded p) (Nat.zero_le _)
    fun _ _ _ _ hp hs => hp.moves (moves_of_step hs)

/-- In every run there are never more retry timers of a class, such as those for one key,
than waiters of the class were registered. With the heartbeat there is at most one timer
more than there were calls. -/
theorem timers_of_reachable (h : Reachable (step opts) (initial token) s) :
    (∀ p, s.exchange.timers p ≤ s.exchange.registered p +
        if s.exchange.state.heartbeatStarted && p none then 1 else 0) ∧
      s.exchange.tokens.countP (·.timer) ≤ s.exchange.ops.length + 1 := by
  refine ⟨timersBounded_of_reachable h, ?_⟩
  have hall : s.exchange.tokens.countP (·.timer) = s.exchange.timers fun _ => true :=
    List.countP_congr fun m _ => by cases m <;> rfl
  have hb := timersBounded_of_reachable h fun _ => true
  have hreg := Exchange.registered_le (accounted_of_reachable h)
  unfold Exchange.TimersBounded at hb
  rw [hall]
  split_ifs at hb <;> omega

/-- A send waits for its ack over two timeouts and a reconnect. -/
def retriedTwice : List Action :=
  .validate none :: establish ++ [.client (.send ⟨.orb, [1], "orb", "ns", .atLeastOnce⟩),
    .client (.poll 0), .client (.poll 0), .take, .take, .fire 1, .take,
    .client .reconnect, .take] ++ establish ++ [.fire 1, .take]

theorem retriedTwice_timers :
    ∃ t, Reachable (step (.build .app "app" "ns" (.token "t"))) (initial "") t ∧
      t.exchange.pushes 0 = 3 ∧ t.exchange.tokens.countP (·.timer) = 2 ∧
      ((∀ p, t.exchange.timers p ≤ t.exchange.registered p +
          if t.exchange.state.heartbeatStarted && p none then 1 else 0) ∧
        t.exchange.tokens.countP (·.timer) ≤ t.exchange.ops.length + 1) := by
  have he : ((exec (step (.build .app "app" "ns" (.token "t"))) (initial "")
      retriedTwice).map fun s => (s.exchange.pushes 0, s.exchange.tokens.countP (·.timer))) =
        some (3, 2) := by decide
  obtain ⟨tr, t, h, hp⟩ := Run.of_exec_map he
  obtain ⟨hpushes, htimers⟩ := Prod.mk.inj hp
  exact ⟨t, ⟨tr, h⟩, hpushes, htimers, timers_of_reachable ⟨tr, h⟩⟩

end System
end OrbRelay.Client
