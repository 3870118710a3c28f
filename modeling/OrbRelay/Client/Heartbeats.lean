import OrbRelay.Client.Attempts
import OrbRelay.Client.Orphans

/-!
# The heartbeat

The first connection sets a heartbeat to sleep. From then on it goes round: its timer
puts it into the actor's queue, which later connections take over, and its handler sets
it to sleep again.
-/
namespace OrbRelay.Client
open Transition

namespace Exchange

variable {opts : ClientOpts} {e e' : Exchange} {l : Option Msg} {m : Msg}

/-- The sleeping heartbeat timers and the heartbeats in the actor's queue. -/
def heartbeats (e : Exchange) : ℕ := e.sleeping.count .heartbeat + e.actorRx.count .heartbeat

/-- There is one heartbeat, from the first connection on. -/
def OneHeartbeat (e : Exchange) : Prop :=
  e.heartbeats = if e.state.heartbeatStarted then 1 else 0

theorem heartbeats_eq (e : Exchange) : e.heartbeats = e.tokens.countP (· == .heartbeat) := by
  rw [tokens, List.countP_append]
  rfl

@[simp] theorem heartbeats_sleep (e : Exchange) (m : Msg) :
    (e.sleep m).heartbeats = e.heartbeats + if m = .heartbeat then 1 else 0 := by
  simp [heartbeats_eq, countP_tokens_sleep]

@[simp] theorem heartbeats_post (e : Exchange) (m : Msg) :
    (e.post m).heartbeats = e.heartbeats + if m = .heartbeat then 1 else 0 := by
  simp [heartbeats_eq, countP_tokens_post]

theorem heartbeats_take {rest : List Msg} (hq : e.actorRx = m :: rest) :
    e.heartbeats = { e with actorRx := rest }.heartbeats + if m = .heartbeat then 1 else 0 := by
  simp [heartbeats_eq, countP_tokens_take _ hq]

/-- Only the handler of a heartbeat sets one to sleep, and it sets one. -/
theorem heartbeats_handled (h : Handled opts e m e') :
    e'.heartbeats = e.heartbeats + if m = .heartbeat then 1 else 0 := by
  cases h with
  | waitForAck msg o seq => exact heartbeats_sleep _ _
  | waitForReply msg o seq => exact heartbeats_sleep _ _
  | retryAck seq left msg o hp hl => exact heartbeats_sleep _ _
  | retryAsk id seq left msg o hp hl => exact heartbeats_sleep _ _
  | heartbeat => exact heartbeats_sleep _ _
  | _ => rfl

theorem heartbeat_of_error {err : Err} (h : handleMsg opts e m = .error err) :
    m ≠ .heartbeat := by
  rintro rfl
  cases h

theorem heartbeats_called (h : Called opts e e') : e'.heartbeats = e.heartbeats := by
  rw [heartbeats_eq, heartbeats_eq]
  refine h.countP_tokens fun m hm => ?_
  simp only [beq_eq_false_iff_ne]
  rintro rfl
  cases hm

/-- A message taken out of the queue is handled, and the handler puts back a heartbeat. -/
theorem OneHeartbeat.handled (h : e.OneHeartbeat) (e₁ : Exchange)
    (he : e.heartbeats = e₁.heartbeats + if m = .heartbeat then 1 else 0)
    (hs : e₁.state = e.state) (hh : Handled opts e₁ m e') : e'.OneHeartbeat := by
  have hcount : e'.heartbeats = e.heartbeats := (heartbeats_handled hh).trans he.symm
  have hstarted := hh.heartbeatStarted
  rw [hs] at hstarted
  rw [OneHeartbeat, hcount, hstarted]
  exact h

theorem OneHeartbeat.moves (h : e.OneHeartbeat) (hm : e.Moves opts l e') : e'.OneHeartbeat := by
  cases hm with
  | stay => exact h
  | tonic p hp => exact h
  | dial p request n hp => exact h
  | heartbeat hs =>
    have hnone : e.heartbeats = 0 := by simpa [OneHeartbeat, hs] using h
    have hone := heartbeats_sleep { e with state := { e.state with heartbeatStarted := true } }
      .heartbeat
    exact hone.trans (congrArg (· + 1) hnone)
  | called hc =>
    have hstate : e'.state = e.state := by cases hc <;> rfl
    rw [OneHeartbeat, heartbeats_called hc, hstate]
    exact h
  | fire i msg hi =>
    have hcount := countP_tokens_fire (· == .heartbeat) hi
    rw [← heartbeats_eq, ← heartbeats_eq] at hcount
    exact hcount.trans h
  | forward msg tag => exact (heartbeats_post e _).trans h
  | take msg rest hq hh =>
    exact h.handled ({ e with actorRx := rest }.note msg) (heartbeats_take hq) rfl hh
  | takeFail msg rest p hq hf hp =>
    obtain ⟨err, hf⟩ := hf
    have hcount := heartbeats_take hq
    rw [if_neg (heartbeat_of_error hf), Nat.add_zero] at hcount
    exact hcount.symm.trans h
  | read msg tag hq hh => exact h.handled (e.note (.relayResponse msg tag)) rfl rfl hh
  | readFail msg tag p hq hf hp => exact h

/-- The start of the heartbeat is never taken back. -/
theorem Moves.heartbeatStarted (h : e.Moves opts l e') (hs : e.state.heartbeatStarted = true) :
    e'.state.heartbeatStarted = true := by
  cases h with
  | heartbeat hn => rfl
  | called h => cases h <;> exact hs
  | take msg rest hq h => exact h.heartbeatStarted.trans hs
  | read msg tag hq h => exact h.heartbeatStarted.trans hs
  | _ => exact hs

end Exchange

namespace System

variable {opts : ClientOpts} {token : String} {s t : System}

theorem oneHeartbeat_of_reachable (h : Reachable (step opts) (initial token) s) :
    s.exchange.OneHeartbeat :=
  h.invariant (P := fun s => s.exchange.OneHeartbeat) rfl fun _ _ _ _ hp hs =>
    hp.moves (moves_of_step hs)

theorem started_of_link {a : Action} (h : s.Link opts a t)
    (hs : s.phase = .connected → s.exchange.state.heartbeatStarted = true)
    (hp : t.phase = .connected) : t.exchange.state.heartbeatStarted = true := by
  cases h with
  | quiet hk ht => exact hk.heartbeat.trans (hs (hk.phase ▸ hp))
  | push f hk ht hf => exact hk.heartbeat.trans (hs (hk.phase ▸ hp))
  | tonic p hm => exact hs hp
  | enter hp' => cases hp
  | halt p hp' => exact absurd hp (Phase.ne_connected_of_isEnded hp')
  | fail hp' ha hc hh ht =>
    rcases ha with ⟨hd, -⟩ | ⟨hd | hd, -⟩
    · cases hd.symm.trans hp
    · exact absurd hp (Phase.ne_connected_of_isEnded hd)
    · cases hd.symm.trans hp
  | dial request hp' hr => cases hp
  | call hp' => cases hp
  | accept hp' he hc ha hacc ht hh => exact hh
  | eof hp' hc ha hacc ht hh => exact hh

/-- A connected client has its heartbeat. -/
theorem started_of_connected (h : Reachable (step opts) (initial token) s)
    (hp : s.phase = .connected) : s.exchange.state.heartbeatStarted = true :=
  h.invariant (P := fun s => s.phase = .connected → s.exchange.state.heartbeatStarted = true)
    (fun hp => by cases hp) (fun _ _ _ _ hs hv => started_of_link (link_of_step hv) hs) hp

/-- In every reachable state the sleeping heartbeat timers and the queued heartbeats are
one if the heartbeat has been started and none otherwise. It is started in every client
that is connected, and from then on they stay one, whatever becomes of the connections. -/
theorem heartbeats_of_reachable (h : Reachable (step opts) (initial token) s) :
    (s.exchange.sleeping.count .heartbeat + s.exchange.actorRx.count .heartbeat =
        if s.exchange.state.heartbeatStarted then 1 else 0) ∧
      (s.phase = .connected → s.exchange.state.heartbeatStarted = true) ∧
      ∀ t, Reachable (step opts) s t → s.exchange.state.heartbeatStarted = true →
        t.exchange.heartbeats = 1 := by
  refine ⟨oneHeartbeat_of_reachable h, started_of_connected h, fun t ht hs => ?_⟩
  have hstarted : t.exchange.state.heartbeatStarted = true :=
    ht.invariant (P := fun s => s.exchange.state.heartbeatStarted = true) hs
      fun _ _ _ _ hp hv => (moves_of_step hv).heartbeatStarted hp
  have hone := oneHeartbeat_of_reachable (h.trans ht)
  simpa [Exchange.OneHeartbeat, hstarted] using hone

/-- A first attempt times out, the second is accepted, and a heartbeat goes round. -/
def beatOnce : List Action :=
  [.validate none, .timeout, .wake] ++ establish ++ [.fire 0, .take]

/-- The next heartbeat is due while the connection is lost, and waits for the next one. -/
def beatOverLoss : List Action := [.response (.status "gone"), .fire 0, .wake] ++ establish

theorem beatOverLoss_one :
    ∃ s t, Reachable (step (.build .app "app" "ns" (.token "t"))) (initial "") s ∧
      Reachable (step (.build .app "app" "ns" (.token "t"))) s t ∧
      t.exchange.tonic.pushed.map Frame.origin = [.connect 2, .heartbeat, .connect 3] ∧
      s.exchange.sleeping.count .heartbeat + s.exchange.actorRx.count .heartbeat = 1 ∧
      t.exchange.heartbeats = 1 := by
  have hs : ((exec (step (.build .app "app" "ns" (.token "t"))) (initial "") beatOnce).map
      fun s => s.exchange.state.heartbeatStarted) = some true := by decide
  have ht : ((exec (step (.build .app "app" "ns" (.token "t"))) (initial "")
      (beatOnce ++ beatOverLoss)).map fun s => s.exchange.tonic.pushed.map Frame.origin) =
        some [.connect 2, .heartbeat, .connect 3] := by decide
  obtain ⟨s, hs, hstarted⟩ := Option.map_eq_some_iff.mp hs
  obtain ⟨t, ht, hpushed⟩ := Option.map_eq_some_iff.mp ht
  rw [exec_append, hs, Option.bind_some] at ht
  have hr := Reachable.refl.exec hs
  have hone := heartbeats_of_reachable hr
  rw [hstarted, if_pos rfl] at hone
  exact ⟨s, t, hr, Reachable.refl.exec ht, hpushed, hone.1,
    hone.2.2 t (Reachable.refl.exec ht) rfl⟩

end System
end OrbRelay.Client
