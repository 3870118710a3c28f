import OrbRelay.Client.Link

/-!
# Attempts and the connection budget

`run` counts in `conn_attempts` how often `main_loop` has failed: the attempts that were
not established, and also those that were established and then lost. Nothing takes a
failure back, and an attempt that ends on request is none.
-/
namespace OrbRelay.Client
open Transition

/-- The error in which the actor task has ended. -/
def Phase.error? : Phase → Option Err
  | .ended (.error err) => some err
  | _ => none

/-- The failure in which handling a message ends. -/
def handleFailure (opts : ClientOpts) (e : Exchange) (msg : Msg) : Option Err :=
  match handleMsg opts e msg with
  | .ok _ | .error .stopRequest | .error .reconnectRequest => none
  | .error err => some err

namespace System

variable {opts : ClientOpts} {token : String} {s s' t : System} {a : Action} {err : Err}
  {tr : List (System × Action)} {n : ℕ}

/-- The failure of the current attempt that a step brings about: it is not established,
or it is lost. -/
def failure (opts : ClientOpts) (s : System) : Action → Option Err
  | .dial (.transport error) => some (.transport error)
  | .dial .metadata =>
    some (.other "Failed to convert client_id to metadata value (must be valid ASCII)")
  | .relayConnect (some error) => some (.tonic error)
  | .timeout => some (.other "Timed out trying to establish a connection")
  | .response ev =>
    match s.phase, ev with
    | .handshake, ev =>
      match connectRound ev with
      | .done (.error err) => some err
      | _ => none
    | .connected, .eof => some .streamEnded
    | .connected, .status error => some (.tonic error)
    | .connected, .message (some msg) tag =>
      handleFailure opts (s.exchange.note (.relayResponse msg tag)) (.relayResponse msg tag)
    | _, _ => none
  | .take =>
    match s.exchange.actorRx with
    | msg :: rest => handleFailure opts ({ s.exchange with actorRx := rest }.note msg) msg
    | [] => none
  | _ => none

/-- What a failure costs: the last one of the budget ends the actor. -/
inductive Costs (opts : ClientOpts) (s : System) (err : Err) (s' : System) : Prop where
  | last (hb : opts.maxConnectionAttempts.le s.connAttempts = true)
      (hp : s'.phase = .ended (.error err)) (hc : s'.connAttempts = s.connAttempts)
  | one (hb : opts.maxConnectionAttempts.le s.connAttempts = false) (hp : s'.phase = .backoff)
      (hc : s'.connAttempts = s.connAttempts + 1)

/-- What a step does to the attempts and their budget. -/
inductive Turn (opts : ClientOpts) (s : System) : Action → System → Prop where
  | quiet {a : Action} {s' : System} (hf : s.failure opts a = none) (hl : s.handles a ≠ some .stop)
      (hp : s'.phase = s.phase) (ha : s'.attempt = s.attempt)
      (hc : s'.connAttempts = s.connAttempts) : Turn opts s a s'
  | advance {a : Action} {s' : System} (hf : s.failure opts a = none)
      (hp : s.phase.connecting = true)
      (hp' : s'.phase.connecting = true ∨ s'.phase = .connected) (ha : s'.attempt = s.attempt)
      (hc : s'.connAttempts = s.connAttempts) : Turn opts s a s'
  | enter {a : Action} (hf : s.failure opts a = none)
      (hp : s.phase = .starting ∧ a = .validate none ∨ s.phase = .backoff ∧ a = .wake) :
      Turn opts s a s.enter
  | reject (report : String) (hp : s.phase = .starting) :
      Turn opts s (.validate (some report)) { s with phase := .ended (.error (.other report)) }
  | panic (hp : s.phase = .dialing) (hr : connectRequest opts s.token = none) :
      Turn opts s (.dial .ok) { s with phase := .panicked }
  | stop {s' : System} (rest : List Msg) (hf : s.failure opts .take = none)
      (hp : s.phase = .connected) (hq : s.exchange.actorRx = .stop :: rest)
      (hp' : s'.phase = .ended (.ok ())) (ha : s'.attempt = s.attempt)
      (hc : s'.connAttempts = s.connAttempts) : Turn opts s .take s'
  | reconnect {s' : System} (rest : List Msg) (hf : s.failure opts .take = none)
      (hp : s.phase = .connected) (hq : s.exchange.actorRx = .reconnect :: rest)
      (hp' : s'.phase = .dialing) (ha : s'.attempt = s.attempt + 1)
      (hc : s'.connAttempts = s.connAttempts) : Turn opts s .take s'
  | fail {a : Action} {s' : System} (err : Err) (hf : s.failure opts a = some err)
      (hp : s.phase.connecting = true ∨ s.phase = .connected) (ha : s'.attempt = s.attempt)
      (hc : s.Costs opts err s') : Turn opts s a s'

theorem fail_attempt {s₀ : System} (hne : err ≠ .reconnectRequest) :
    (s₀.fail opts err).attempt = s₀.attempt := by
  unfold fail
  split
  · rfl
  · exact absurd rfl hne
  · split_ifs <;> rfl

theorem fail_costs {s₀ : System} (hstop : err ≠ .stopRequest) (hrec : err ≠ .reconnectRequest)
    (hc : s₀.connAttempts = s.connAttempts) : s.Costs opts err (s₀.fail opts err) := by
  unfold fail
  split
  · exact absurd rfl hstop
  · exact absurd rfl hrec
  · rw [hc]
    split_ifs with hb
    · exact .last hb rfl hc
    · exact .one (by simpa using hb) rfl rfl

theorem turn_fail {s₀ : System} (err : Err) (hf : s.failure opts a = some err)
    (hstop : err ≠ .stopRequest) (hrec : err ≠ .reconnectRequest)
    (hp : s.phase.connecting = true ∨ s.phase = .connected) (ha : s₀.attempt = s.attempt)
    (hc : s₀.connAttempts = s.connAttempts) : Turn opts s a (s₀.fail opts err) :=
  .fail err hf hp ((fail_attempt hrec).trans ha) (fail_costs hstop hrec hc)

theorem turn_take {msg : Msg} {rest : List Msg} (hp : s.phase = .connected)
    (hq : s.exchange.actorRx = msg :: rest) :
    Turn opts s .take
      ({ s with exchange := { s.exchange with actorRx := rest } }.handle opts msg) := by
  have hf : s.failure opts .take =
      handleFailure opts ({ s.exchange with actorRx := rest }.note msg) msg := by
    simp only [failure, hq]
  have hl : s.handles .take = some msg := by simp [handles, hq]
  rw [handleFailure] at hf
  unfold handle
  dsimp only
  split
  · next e he =>
    rw [he] at hf
    refine .quiet hf ?_ rfl rfl rfl
    rintro hstop
    cases hl.symm.trans hstop
    cases he
  · next err he =>
    rw [he] at hf
    rcases handleMsg_error he with rfl | rfl | ⟨src, dst, seq, payload, tag, rfl, hk, hcl⟩
    · cases he
      exact .stop rest hf hp hq rfl rfl rfl
    · cases he
      exact .reconnect rest hf hp hq rfl rfl rfl
    · simp only [handleMsg, handlePayload, hk, hcl, Bool.false_eq_true, if_false] at he
      cases he
      exact turn_fail _ hf (by simp) (by simp) (.inr hp) rfl rfl

theorem turn_listen {ev : StreamEvent} (hp : s.phase = .connected) :
    Turn opts s (.response ev) (s.listen opts ev) := by
  match ev with
  | .eof =>
    exact turn_fail .streamEnded (by simp [failure, hp]) (by simp) (by simp) (.inr hp) rfl rfl
  | .status error =>
    exact turn_fail (.tonic error) (by simp [failure, hp]) (by simp) (by simp) (.inr hp) rfl rfl
  | .message none tag => exact .quiet (by simp [failure, hp]) (by simp [handles]) rfl rfl rfl
  | .message (some msg) tag =>
    have hf : s.failure opts (.response (.message (some msg) tag)) =
        handleFailure opts (s.exchange.note (.relayResponse msg tag)) (.relayResponse msg tag) := by
      simp only [failure, hp]
    rw [handleFailure] at hf
    simp only [listen, handle]
    split
    · next e he =>
      rw [he] at hf
      exact .quiet hf (by simp [handles, hp, Phase.isConnected]) rfl rfl rfl
    · next err he =>
      rw [he] at hf
      rcases handleMsg_error he with h | h | ⟨src, dst, seq, payload, tag', h, hk, hcl⟩
      · cases h
      · cases h
      · cases h
        simp only [handleMsg, handlePayload, hk, hcl, Bool.false_eq_true, if_false] at he
        cases he
        exact turn_fail _ hf (by simp) (by simp) (.inr hp) rfl rfl

theorem connectRound_error {ev : StreamEvent} (h : connectRound ev = .done (.error err)) :
    err ≠ .stopRequest ∧ err ≠ .reconnectRequest := by
  unfold connectRound at h
  split at h <;> cases h <;> simp

theorem turn_round {ev : StreamEvent} (hp : s.phase = .handshake) :
    Turn opts s (.response ev) ((s.note ev).round opts ev) := by
  have hl : s.handles (.response ev) ≠ some .stop := by
    rcases ev with ⟨_ | msg, tag⟩ | _ | _ <;> simp [handles, hp, Phase.isConnected]
  unfold round
  split
  · next hr => exact .quiet (by simp [failure, hp, hr]) hl rfl rfl rfl
  · next msg hr => exact .quiet (by simp [failure, hp, hr]) hl rfl rfl rfl
  · next hr =>
    exact .advance (by simp [failure, hp, hr]) (by rw [hp]; rfl) (.inr rfl) rfl rfl
  · next err hr =>
    obtain ⟨hstop, hrec⟩ := connectRound_error hr
    exact turn_fail err (by simp [failure, hp, hr]) hstop hrec (.inl (by rw [hp]; rfl)) rfl rfl

theorem turn_of_step (h : s.step opts a = some s') : Turn opts s a s' := by
  cases a with
  | client a =>
    obtain ⟨e, he, h⟩ := Option.bind_eq_some_iff.mp h
    cases h
    exact .quiet rfl (by simp [handles]) rfl rfl rfl
  | fire i =>
    obtain ⟨msg, hm, h⟩ := Option.bind_eq_some_iff.mp h
    split_ifs at h
    cases h
    exact .quiet rfl (by simp [handles]) rfl rfl rfl
  | tonic a =>
    obtain ⟨p, hp, h⟩ := Option.bind_eq_some_iff.mp h
    cases h
    exact .quiet rfl (by simp [handles]) rfl rfl rfl
  | setToken token =>
    cases h
    exact .quiet rfl (by simp [handles]) rfl rfl rfl
  | validate report =>
    simp only [step] at h
    split at h <;> cases h
    · next hp => exact .enter rfl (.inl ⟨hp, rfl⟩)
    · next report hp => exact .reject report hp
  | dial result =>
    simp only [step] at h
    split at h <;> cases h
    · next hp =>
      unfold callRelay
      split
      · next hr => exact .panic hp hr
      · exact .advance rfl (by rw [hp]; rfl) (.inl rfl) rfl rfl
    · next hp => exact turn_fail _ rfl (by simp) (by simp) (.inl (by rw [hp]; rfl)) rfl rfl
    · next hp => exact turn_fail _ rfl (by simp) (by simp) (.inl (by rw [hp]; rfl)) rfl rfl
  | relayConnect error =>
    simp only [step] at h
    split at h <;> cases h
    · next hp => exact .advance rfl (by rw [hp]; rfl) (.inl rfl) rfl rfl
    · next hp => exact turn_fail _ rfl (by simp) (by simp) (.inl (by rw [hp]; rfl)) rfl rfl
  | timeout =>
    simp only [step] at h
    split_ifs at h with hp
    cases h
    exact turn_fail _ rfl (by simp) (by simp) (.inl hp) rfl rfl
  | response ev =>
    simp only [step, response] at h
    split at h
    · cases h
    split at h
    · next hp => cases h; exact turn_round hp
    · next hp =>
      split_ifs at h
      cases h
      exact turn_listen hp
    · cases h
  | take =>
    simp only [step] at h
    split at h
    · next msg rest hp hq => cases h; exact turn_take hp hq
    · cases h
  | wake =>
    simp only [step] at h
    split at h <;> cases h
    next hp => exact .enter rfl (.inr ⟨hp, rfl⟩)

/-! ## The failures of a run -/

/-- The failures in a run, each with the attempt that failed. -/
def failures (opts : ClientOpts) (tr : List (System × Action)) : List (ℕ × Err) :=
  tr.filterMap fun x => (x.1.failure opts x.2).map fun err => (x.1.attempt, err)

theorem failures_snoc (tr : List (System × Action)) (s : System) (a : Action) :
    failures opts (tr ++ [(s, a)]) =
      failures opts tr ++ ((s.failure opts a).map fun err => (s.attempt, err)).toList := by
  cases hf : s.failure opts a <;> simp [failures, hf]

theorem failures_none (tr : List (System × Action)) (hf : s.failure opts a = none) :
    failures opts (tr ++ [(s, a)]) = failures opts tr := by
  simp [failures_snoc, hf]

theorem failures_some (tr : List (System × Action)) (hf : s.failure opts a = some err) :
    failures opts (tr ++ [(s, a)]) = failures opts tr ++ [(s.attempt, err)] := by
  simp [failures_snoc, hf]

/-- An attempt that is under way has not failed yet. -/
structure Charged (opts : ClientOpts) (tr : List (System × Action)) (s : System) : Prop where
  sorted : ((failures opts tr).map Prod.fst).Pairwise (· < ·)
  bound : ∀ x ∈ failures opts tr, x.1 ≤ s.attempt
  fresh : s.phase.connecting = true ∨ s.phase = .connected →
    ∀ x ∈ failures opts tr, x.1 < s.attempt

/-- Without a failure, an attempt goes on, the next one begins, or there is none. -/
theorem Charged.unfailed (h : Charged opts tr s) (hf : s.failure opts a = none)
    (ha : s'.attempt = s.attempt + 1 ∨ s'.attempt = s.attempt ∧
      (s'.phase.connecting = true ∨ s'.phase = .connected →
        s.phase.connecting = true ∨ s.phase = .connected)) : Charged opts (tr ++ [(s, a)]) s' := by
  have hfs := failures_none tr hf
  refine ⟨hfs ▸ h.sorted, hfs ▸ fun x hx => ?_, hfs ▸ fun hp x hx => ?_⟩
  · have := h.bound x hx
    rcases ha with ha | ⟨ha, -⟩ <;> omega
  · rcases ha with ha | ⟨ha, hgo⟩
    · have := h.bound x hx
      omega
    · exact ha ▸ h.fresh (hgo hp) x hx

theorem charged_step (h : Charged opts tr s) (hs : s.step opts a = some s') :
    Charged opts (tr ++ [(s, a)]) s' := by
  cases turn_of_step hs with
  | quiet hf hl hp ha hc => exact h.unfailed hf (.inr ⟨ha, fun hgo => hp ▸ hgo⟩)
  | advance hf hp hp' ha hc => exact h.unfailed hf (.inr ⟨ha, fun _ => .inl hp⟩)
  | enter hf hp => exact h.unfailed hf (.inl rfl)
  | reject report hp => exact h.unfailed rfl (.inr ⟨rfl, by simp [Phase.connecting]⟩)
  | panic hp hr => exact h.unfailed rfl (.inr ⟨rfl, by simp [Phase.connecting]⟩)
  | stop rest hf hp hq hp' ha hc => exact h.unfailed hf (.inr ⟨ha, fun _ => .inr hp⟩)
  | reconnect rest hf hp hq hp' ha hc => exact h.unfailed hf (.inl ha)
  | fail err hf hp ha hc =>
    have hfs := failures_some tr hf
    -- the failed attempt is over, so it cannot fail again
    have hover : ¬ (s'.phase.connecting = true ∨ s'.phase = .connected) := by
      cases hc with
      | last hb hp' hc => simp [hp', Phase.connecting]
      | one hb hp' hc => simp [hp', Phase.connecting]
    refine ⟨?_, hfs ▸ fun x hx => ?_, fun hp' => absurd hp' hover⟩
    · rw [hfs, List.map_append, List.pairwise_append]
      refine ⟨h.sorted, List.pairwise_singleton _ _, fun k hk k' hk' => ?_⟩
      obtain ⟨x, hx, rfl⟩ := List.mem_map.mp hk
      obtain rfl : k' = s.attempt := by simpa using hk'
      exact h.fresh hp x hx
    · rcases List.mem_append.mp hx with hx | hx
      · exact ha ▸ h.bound x hx
      · rw [List.mem_singleton.mp hx, ha]

theorem charged_of_run (h : Run (step opts) (initial token) tr t) : Charged opts tr t :=
  h.invariant (P := Charged opts) (by constructor <;> simp [failures])
    fun _ _ _ _ _ hp hs => charged_step hp hs

/-! ## The budget -/

/-- The endpoint was turned down in a run. -/
def rejects (tr : List (System × Action)) (report : String) : Prop :=
  ∃ x ∈ tr, x.2 = .validate (some report)

/-- How much of a budget of `n` is left after a run. -/
inductive Spending (opts : ClientOpts) (n : ℕ) (tr : List (System × Action)) (s : System) :
    Prop where
  | left (hlt : (failures opts tr).length < n)
      (hc : s.connAttempts = (failures opts tr).length + 1)
      (hp : ∀ err, s.phase ≠ .ended (.error err)) (hv : ∀ report, ¬ rejects tr report)
      (h0 : s.phase = .starting → failures opts tr = [])
  | spent (k : ℕ) (err : Err) (hn : (failures opts tr).length = n)
      (hlast : (failures opts tr).getLast? = some (k, err)) (hp : s.phase = .ended (.error err))
      (hv : ∀ report, ¬ rejects tr report)
  | rejected (report : String) (hf : failures opts tr = [])
      (hp : s.phase = .ended (.error (.other report)))
      (hv : ∀ report', rejects tr report' ↔ report' = report)

theorem rejects_snoc {report : String} :
    rejects (tr ++ [(s, a)]) report ↔ rejects tr report ∨ a = .validate (some report) := by
  simp [rejects, or_and_right, exists_or]

theorem step_reject {report : String} (hs : s.step opts (.validate (some report)) = some s') :
    s.phase = .starting ∧ s'.phase = .ended (.error (.other report)) := by
  simp only [step] at hs
  split at hs
  · next heq => cases heq
  · next r hp heq => cases heq; cases hs; exact ⟨hp, rfl⟩
  · cases hs

/-- Nothing but a rejection follows from a rejection. -/
theorem rejects_kept {report : String} (hs : s.step opts a = some s')
    (hp : s.phase ≠ .starting ∨ ∀ err, s'.phase ≠ .ended (.error err)) :
    rejects (tr ++ [(s, a)]) report ↔ rejects tr report := by
  rw [rejects_snoc, or_iff_left]
  rintro rfl
  obtain ⟨hstart, hend⟩ := step_reject hs
  rcases hp with hp | hp
  · exact hp hstart
  · exact hp _ hend

/-- An ended actor stays as it is. -/
theorem quiet_of_ended (hs : s.step opts a = some s') (hp : s.phase.isEnded = true) :
    s.failure opts a = none ∧ s'.phase = s.phase ∧ s'.attempt = s.attempt := by
  have hne : ∀ p, s.phase = p → p.isEnded = true := fun p h => h ▸ hp
  cases turn_of_step hs with
  | quiet hf hl hp' ha hc => exact ⟨hf, hp', ha⟩
  | advance hf hp' _ _ _ => simp [Phase.not_connecting_of_isEnded hp] at hp'
  | enter hf hp' => rcases hp' with ⟨h, -⟩ | ⟨h, -⟩ <;> cases hne _ h
  | reject report hp' => cases hne _ hp'
  | panic hp' hr => cases hne _ hp'
  | stop rest hf hp' _ _ _ _ => cases hne _ hp'
  | reconnect rest hf hp' _ _ _ _ => cases hne _ hp'
  | fail err hf hp' _ _ =>
    rcases hp' with hp' | hp'
    · simp [Phase.not_connecting_of_isEnded hp] at hp'
    · cases hne _ hp'

theorem spending_step (hn : opts.maxConnectionAttempts = .val n) (h : Spending opts n tr s)
    (hs : s.step opts a = some s') : Spending opts n (tr ++ [(s, a)]) s' := by
  cases h with
  | spent k err hlen hlast hp hv =>
    obtain ⟨hf, hp', -⟩ := quiet_of_ended hs (by rw [hp]; rfl)
    have hfs := failures_none tr hf
    refine .spent k err (hfs ▸ hlen) (hfs ▸ hlast) (hp'.trans hp) fun report => ?_
    rw [rejects_kept hs (.inl (by simp [hp]))]
    exact hv report
  | rejected report hnil hp hv =>
    obtain ⟨hf, hp', -⟩ := quiet_of_ended hs (by rw [hp]; rfl)
    refine .rejected report (failures_none tr hf ▸ hnil) (hp'.trans hp) fun report' => ?_
    rw [rejects_kept hs (.inl (by simp [hp]))]
    exact hv report'
  | left hlt hc hp hv h0 =>
    -- without a failure and a rejection, the count stays
    have hkept : s.failure opts a = none → s'.connAttempts = s.connAttempts →
        (∀ err, s'.phase ≠ .ended (.error err)) → (s'.phase = .starting → s.phase = .starting) →
          Spending opts n (tr ++ [(s, a)]) s' := by
      intro hf hc' hp' h0'
      have hfs := failures_none tr hf
      refine .left (hfs ▸ hlt) (hfs ▸ hc'.trans hc) hp' (fun report => ?_)
        (fun h => hfs ▸ h0 (h0' h))
      rw [rejects_kept hs (.inr hp')]
      exact hv report
    cases turn_of_step hs with
    | quiet hf hl hp' ha hc' => exact hkept hf hc' (hp' ▸ hp) (hp' ▸ id)
    | advance hf hcon hp' ha hc' =>
      have hne : s'.phase ≠ .starting ∧ ∀ err, s'.phase ≠ .ended (.error err) := by
        constructor
        · intro h
          simp [h, Phase.connecting] at hp'
        · intro err h
          simp [h, Phase.connecting] at hp'
      exact hkept hf hc' hne.2 fun h => absurd h hne.1
    | enter hf hp' => exact hkept hf rfl (by simp [System.enter]) (by simp [System.enter])
    | reject report hp' =>
      refine .rejected report ?_ rfl fun report' => ?_
      · have hf : s.failure opts (.validate (some report)) = none := rfl
        exact failures_none tr hf ▸ h0 hp'
      · rw [rejects_snoc, or_iff_right (hv report')]
        simp [eq_comm]
    | panic hp' hr => exact hkept rfl rfl (by simp) (by simp)
    | stop rest hf hcon hq hp' ha hc' => exact hkept hf hc' (by simp [hp']) (by simp [hp'])
    | reconnect rest hf hcon hq hp' ha hc' => exact hkept hf hc' (by simp [hp']) (by simp [hp'])
    | fail err hf hcon ha hcost =>
      have hfs := failures_some tr hf
      cases hcost with
      | last hb hp' hc' =>
        refine .spent s.attempt err ?_ (by simp [hfs]) hp' fun report => ?_
        · rw [hn, hc] at hb
          simp only [Amount.le, decide_eq_true_eq] at hb
          rw [hfs, List.length_append, List.length_singleton]
          omega
        · rw [rejects_kept hs (.inl ?_)]
          · exact hv report
          · intro h
            simp [h, Phase.connecting] at hcon
      | one hb hp' hc' =>
        rw [hn, hc] at hb
        simp only [Amount.le, decide_eq_false_iff_not] at hb
        refine .left ?_ ?_ (by simp [hp']) (fun report => ?_) (by simp [hp'])
        · rw [hfs, List.length_append, List.length_singleton]
          omega
        · rw [hc', hc, hfs, List.length_append, List.length_singleton]
        · rw [rejects_kept hs (.inr (by simp [hp']))]
          exact hv report

theorem spending_of_run (hn : opts.maxConnectionAttempts = .val n) (hpos : 1 ≤ n)
    (h : Run (step opts) (initial token) tr t) : Spending opts n tr t :=
  h.invariant (P := Spending opts n)
    (.left hpos rfl (by simp [initial]) (by simp [rejects]) fun _ => rfl)
    fun _ _ _ _ _ hp hs => spending_step hn hp hs

/-- The budget of a client: each attempt costs at most one failure, and the actor ends
with an error when as many attempts as the budget allows have failed over its whole
life. Otherwise only a rejected endpoint ends it so. -/
structure Budgeted (opts : ClientOpts) (n : ℕ) (tr : List (System × Action)) (t : System) :
    Prop where
  attempts : ((failures opts tr).map Prod.fst).Pairwise (· < ·)
  spent : (failures opts tr).length ≤ n
  ends : ∀ err, t.phase = .ended (.error err) ↔
    (failures opts tr).length = n ∧ (∃ k, (failures opts tr).getLast? = some (k, err)) ∨
      ∃ report, rejects tr report ∧ err = .other report

theorem budgeted_of_run (hn : opts.maxConnectionAttempts = .val n) (hpos : 1 ≤ n)
    (h : Run (step opts) (initial token) tr t) : Budgeted opts n tr t := by
  have hsorted := (charged_of_run h).sorted
  cases spending_of_run hn hpos h with
  | left hlt hc hp hv h0 =>
    refine ⟨hsorted, hlt.le, fun err => ⟨fun he => absurd he (hp err), ?_⟩⟩
    rintro (⟨hlen, -⟩ | ⟨report, hr, -⟩)
    · omega
    · exact absurd hr (hv report)
  | spent k err hlen hlast hp hv =>
    refine ⟨hsorted, hlen.le, fun err' => ⟨fun he => ?_, ?_⟩⟩
    · cases hp.symm.trans he
      exact .inl ⟨hlen, k, hlast⟩
    · rintro (⟨-, k', hlast'⟩ | ⟨report, hr, -⟩)
      · cases hlast.symm.trans hlast'
        exact hp
      · exact absurd hr (hv report)
  | rejected report hnil hp hv =>
    refine ⟨hsorted, by simp [hnil], fun err' => ⟨fun he => ?_, ?_⟩⟩
    · cases hp.symm.trans he
      exact .inr ⟨report, (hv report).mpr rfl, rfl⟩
    · rintro (⟨hlen, -⟩ | ⟨report', hr, rfl⟩)
      · simp only [hnil, List.length_nil] at hlen
        omega
      · rw [(hv report').mp hr]
        exact hp

/-- A client with a budget of two. -/
def twoAttempts : ClientOpts :=
  { ClientOpts.build .app "app" "ns" (.token "t") with maxConnectionAttempts := .val 2 }

/-- An attempt that the relay accepts. -/
def establish : List Action :=
  [.dial .ok, .relayConnect none,
    .response (.message (some (.connectResponse "app" true "")) ⟨"", 0⟩)]

/-- The first attempt times out, the second one is accepted, and its stream drops. -/
def failThenDrop : List Action :=
  [.validate none, .timeout, .wake] ++ establish ++ [.response (.status "gone")]

theorem failThenDrop_budgeted :
    ∃ tr t, Run (step twoAttempts) (initial "") tr t ∧ t.phase.isEnded = true ∧
      t.accepted = [2] ∧ Budgeted twoAttempts 2 tr t := by
  have he : ((exec (step twoAttempts) (initial "") failThenDrop).map fun s =>
      (s.phase.isEnded, s.accepted)) = some (true, [2]) := by decide
  obtain ⟨tr, t, h, hp⟩ := Run.of_exec_map he
  obtain ⟨hend, hacc⟩ := Prod.mk.inj hp
  exact ⟨tr, t, h, hend, hacc, budgeted_of_run rfl (by decide) h⟩

/-- An actor ends with an error only if the last `n` attempts were all not accepted. -/
def PerOutage (n : ℕ) (t : System) : Prop :=
  (∃ err, t.phase = .ended (.error err)) →
    n ≤ t.attempt ∧ ∀ k ∈ t.accepted, k + n ≤ t.attempt

/-- Both attempts are accepted, and their streams drop. -/
def dropTwice : List Action :=
  .validate none :: establish ++ [.response .eof, .wake] ++ establish ++ [.response .eof]

theorem dropTwice_ended :
    ∃ tr t, Run (step twoAttempts) (initial "") tr t ∧
      t.phase = .ended (.error .streamEnded) ∧ t.attempt = 2 ∧ t.accepted = [2, 1] ∧
      ¬ PerOutage 2 t := by
  have he : ((exec (step twoAttempts) (initial "") dropTwice).map fun s =>
      (Phase.error? s.phase, s.attempt, s.accepted)) = some (some .streamEnded, 2, [2, 1]) := by
    decide
  obtain ⟨tr, t, h, hp⟩ := Run.of_exec_map he
  simp only [Prod.mk.injEq] at hp
  obtain ⟨herr, hatt, hacc⟩ := hp
  have hphase : t.phase = .ended (.error .streamEnded) := by
    unfold Phase.error? at herr
    split at herr <;> cases herr
    assumption
  refine ⟨tr, t, h, hphase, hatt, hacc, fun hper => ?_⟩
  have := (hper ⟨_, hphase⟩).2 2 (by simp [hacc])
  omega

end System
end OrbRelay.Client
