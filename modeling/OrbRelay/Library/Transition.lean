import Mathlib.Tactic

/-!
# Runs of a partial step function

A system is a function `step` that says where an action leads from a state, if
it can be taken there. A run records the state before each step and its action,
so that a condition on steps can be asked of a whole run.
-/
namespace OrbRelay.Transition

variable {σ α : Type*}

/-- `Run step s tr t`: the steps `tr`, taken in turn from `s`, lead to `t`. -/
inductive Run (step : σ → α → Option σ) (s : σ) : List (σ × α) → σ → Prop where
  | nil : Run step s [] s
  | snoc {tr : List (σ × α)} {t u : σ} {a : α} (h : Run step s tr t)
      (hs : step t a = some u) : Run step s (tr ++ [(t, a)]) u

/-- States that some run reaches. -/
def Reachable (step : σ → α → Option σ) (s t : σ) : Prop := ∃ tr, Run step s tr t

variable {step : σ → α → Option σ} {s t u : σ} {tr tr' : List (σ × α)}

theorem Reachable.refl : Reachable step s s := ⟨[], .nil⟩

theorem Reachable.snoc {a : α} (h : Reachable step s t) (hs : step t a = some u) :
    Reachable step s u :=
  ⟨_, h.choose_spec.snoc hs⟩

theorem Run.append (h : Run step s tr t) (h' : Run step t tr' u) :
    Run step s (tr ++ tr') u := by
  induction h' with
  | nil => simpa using h
  | snoc h' hs ih => simpa using ih.snoc hs

theorem Reachable.trans (h : Reachable step s t) (h' : Reachable step t u) :
    Reachable step s u := by
  obtain ⟨tr, h⟩ := h
  obtain ⟨tr', h'⟩ := h'
  exact ⟨_, h.append h'⟩

/-- Where a system leads that can take fewer steps, one leads that can take more. -/
theorem Reachable.mono {step' : σ → α → Option σ} (h : Reachable step s t)
    (hstep : ∀ s a t, step s a = some t → step' s a = some t) : Reachable step' s t := by
  obtain ⟨tr, h⟩ := h
  induction h with
  | nil => exact .refl
  | snoc h hs ih => exact ih.snoc (hstep _ _ _ hs)

/-- What the first state has and every step keeps holds wherever a run leads. -/
theorem Reachable.invariant {P : σ → Prop} (h : Reachable step s t) (h0 : P s)
    (hstep : ∀ t u a, Reachable step s t → P t → step t a = some u → P u) : P t := by
  obtain ⟨tr, h⟩ := h
  induction h with
  | nil => exact h0
  | snoc h hs ih => exact hstep _ _ _ ⟨_, h⟩ ih hs

/-- A property of the run so far, kept by each further step. -/
theorem Run.invariant {P : List (σ × α) → σ → Prop} (h : Run step s tr t) (h0 : P [] s)
    (hstep : ∀ tr t u a, Run step s tr t → P tr t → step t a = some u →
      P (tr ++ [(t, a)]) u) : P tr t := by
  induction h with
  | nil => exact h0
  | snoc h hs ih => exact hstep _ _ _ _ h ih hs

/-- An invariant of runs whose steps all meet the condition `G`. -/
theorem Run.guarded {P : σ → Prop} {G : σ → α → Prop} (h : Run step s tr t)
    (hG : ∀ x ∈ tr, G x.1 x.2) (h0 : P s)
    (hstep : ∀ t u a, Reachable step s t → P t → G t a → step t a = some u → P u) : P t := by
  induction h with
  | nil => exact h0
  | @snoc tr t u a h hs ih =>
    have hlast : G t a := hG (t, a) (by simp)
    exact hstep _ _ _ ⟨tr, h⟩ (ih fun x hx => hG x (by simp [hx])) hlast hs

/-- The states of a run, from its first to its last. -/
def visited (tr : List (σ × α)) (t : σ) : List σ := tr.map Prod.fst ++ [t]

theorem Run.of_visited (h : Run step s tr t) (hu : u ∈ visited tr t) :
    ∃ tr', tr' <+: tr ∧ Run step s tr' u := by
  induction h with
  | nil =>
    obtain rfl : u = s := by simpa [visited] using hu
    exact ⟨[], List.prefix_rfl, .nil⟩
  | @snoc tr t v a h hs ih =>
    simp only [visited, List.map_append, List.map_cons, List.map_nil, List.append_assoc,
      List.mem_append, List.mem_cons, List.not_mem_nil, or_false] at hu
    rcases hu with hu | rfl | rfl
    · obtain ⟨tr', hpre, hrun⟩ := ih (by simp [visited] at hu ⊢; exact .inl hu)
      exact ⟨tr', hpre.trans (List.prefix_append _ _), hrun⟩
    · exact ⟨tr, List.prefix_append _ _, h⟩
    · exact ⟨_, List.prefix_rfl, h.snoc hs⟩

theorem visited_snoc {v : σ} {a : α} (hu : u ∈ visited tr t) :
    u ∈ visited (tr ++ [(t, a)]) v := by
  simp only [visited, List.map_append, List.map_cons, List.map_nil] at hu ⊢
  exact List.mem_append_left _ hu

theorem Run.first_visited (h : Run step s tr t) : s ∈ visited tr t := by
  induction h with
  | nil => simp [visited]
  | snoc h hs ih => exact visited_snoc ih

/-- The same at every state that the run visits. -/
theorem Run.guarded_visited {P : σ → Prop} {G : σ → α → Prop} (h : Run step s tr t)
    (hG : ∀ x ∈ tr, G x.1 x.2) (h0 : P s)
    (hstep : ∀ t u a, Reachable step s t → P t → G t a → step t a = some u → P u)
    (hu : u ∈ visited tr t) : P u := by
  obtain ⟨tr', hpre, hrun⟩ := h.of_visited hu
  exact hrun.guarded (fun x hx => hG x (hpre.subset hx)) h0 hstep

/-- Every step of a run was taken from a state it visits to one it visits. -/
theorem Run.step_of_mem (h : Run step s tr t) {x : σ × α} (hx : x ∈ tr) :
    Reachable step s x.1 ∧ ∃ v ∈ visited tr t, step x.1 x.2 = some v := by
  induction h with
  | nil => simp at hx
  | @snoc tr t v a h hs ih =>
    rcases List.mem_append.mp hx with hx | hx
    · obtain ⟨hr, w, hw, hstep⟩ := ih hx
      exact ⟨hr, w, visited_snoc hw, hstep⟩
    · obtain rfl : x = (t, a) := by simpa using hx
      exact ⟨⟨tr, h⟩, v, by simp [visited], hs⟩

/-- The exact condition for a property to hold all along a run: `P` is an invariant of the
steps that avoid `G` and implies the property, and a step that meets `G` breaks it. -/
theorem Run.exact {P Q : σ → Prop} {G : σ → α → Prop} (h : Run step s tr t) (h0 : P s)
    (hstep : ∀ t u a, Reachable step s t → P t → ¬ G t a → step t a = some u → P u)
    (hholds : ∀ u, Reachable step s u → P u → Q u)
    (hbreaks : ∀ t u a, Reachable step s t → G t a → step t a = some u → ¬ Q u) :
    (∀ u ∈ visited tr t, Q u) ↔ ∀ x ∈ tr, ¬ G x.1 x.2 := by
  constructor
  · intro hall x hx hg
    obtain ⟨hr, v, hv, hs⟩ := h.step_of_mem hx
    exact hbreaks x.1 v x.2 hr hg hs (hall v hv)
  · intro hg u hu
    obtain ⟨tr', hpre, hrun⟩ := h.of_visited hu
    exact hholds u ⟨tr', hrun⟩ (hrun.guarded (fun x hx => hg x (hpre.subset hx)) h0 hstep)

/-- A run in two parts, through the state between them. -/
theorem Run.split (h : Run step s (tr ++ tr') t) : ∃ v, Run step s tr v ∧ Run step v tr' t := by
  generalize hl : tr ++ tr' = l at h
  induction h generalizing tr' with
  | nil =>
    obtain ⟨rfl, rfl⟩ := List.append_eq_nil_iff.mp hl
    exact ⟨s, .nil, .nil⟩
  | @snoc l v u a h hs ih =>
    rcases List.eq_nil_or_concat tr' with rfl | ⟨init, y, rfl⟩
    · rw [List.append_nil] at hl
      subst hl
      exact ⟨u, h.snoc hs, .nil⟩
    · rw [List.concat_eq_append, ← List.append_assoc] at hl
      obtain ⟨rfl, hy⟩ := List.append_inj' hl rfl
      obtain rfl := List.singleton_inj.mp hy
      obtain ⟨w, hw, hrest⟩ := ih rfl
      exact ⟨w, hw, List.concat_eq_append ▸ hrest.snoc hs⟩

theorem Run.head {x : σ × α} (h : Run step s (x :: tr) t) :
    x.1 = s ∧ ∃ v, step s x.2 = some v ∧ Run step v tr t := by
  have hcut : Run step s ([x] ++ tr) t := h
  obtain ⟨v, hx, hrest⟩ := hcut.split
  generalize hl : [x] = l at hx
  cases hx with
  | nil => cases hl
  | @snoc l w _ a hw hs =>
    have hlast : [] ++ [x] = l ++ [(w, a)] := hl
    obtain ⟨rfl, hy⟩ := List.append_inj' hlast rfl
    obtain rfl := List.singleton_inj.mp hy
    generalize hl : ([] : List (σ × α)) = l at hw
    cases hw with
    | nil => exact ⟨rfl, v, hs, hrest⟩
    | snoc h hs => simp at hl

/-- A step in the middle of a run. -/
theorem Run.around {x : σ × α} (h : Run step s (tr ++ x :: tr') t) :
    Run step s tr x.1 ∧ ∃ v, step x.1 x.2 = some v ∧ Run step v tr' t := by
  obtain ⟨w, hw, hrest⟩ := h.split
  obtain ⟨rfl, v, hs, hrest⟩ := hrest.head
  exact ⟨hw, v, hs, hrest⟩

/-- Perform a list of actions. -/
def exec (step : σ → α → Option σ) : σ → List α → Option σ
  | s, [] => some s
  | s, a :: as => (step s a).bind fun t => exec step t as

theorem exec_append (s : σ) (as bs : List α) :
    exec step s (as ++ bs) = (exec step s as).bind fun t => exec step t bs := by
  induction as generalizing s with
  | nil => rfl
  | cons a as ih =>
    simp only [List.cons_append, exec]
    cases step s a with
    | none => rfl
    | some t => exact ih t

theorem visited_append (tr tr' : List (σ × α)) (u : σ) :
    visited (tr ++ tr') u = tr.map Prod.fst ++ visited tr' u := by
  simp [visited]

/-- A run goes on with the actions performed, through the state it had reached. -/
theorem Run.append_exec (h : Run step s tr t) {as : List α} (he : exec step t as = some u) :
    ∃ tr', Run step s (tr ++ tr') u ∧ t ∈ visited tr' u := by
  induction as generalizing tr t with
  | nil =>
    obtain rfl := Option.some.inj he
    exact ⟨[], by simpa using h, by simp [visited]⟩
  | cons a as ih =>
    simp only [exec, Option.bind_eq_some_iff] at he
    obtain ⟨v, hv, he⟩ := he
    obtain ⟨tr', hrun, -⟩ := ih (h.snoc hv) he
    exact ⟨(t, a) :: tr', by simpa using hrun, by simp [visited]⟩

theorem Run.of_exec {as : List α} (he : exec step s as = some t) : ∃ tr, Run step s tr t := by
  obtain ⟨tr, h, -⟩ := Run.append_exec .nil he
  exact ⟨_, h⟩

/-- What a performed list of actions leads to, seen through an observation. -/
theorem Run.of_exec_map {β : Type*} {f : σ → β} {b : β} {as : List α}
    (he : (exec step s as).map f = some b) : ∃ tr t, Run step s tr t ∧ f t = b := by
  obtain ⟨t, ht, hb⟩ := Option.map_eq_some_iff.mp he
  obtain ⟨tr, h⟩ := Run.of_exec ht
  exact ⟨tr, t, h, hb⟩

/-- The steps in which a list of actions is performed. -/
def trace (step : σ → α → Option σ) : σ → List α → List (σ × α)
  | _, [] => []
  | s, a :: as => (s, a) :: ((step s a).map fun t => trace step t as).getD []

theorem Run.of_exec_trace {as : List α} (he : exec step s as = some t) :
    Run step s (trace step s as) t := by
  induction as generalizing s with
  | nil =>
    cases he
    exact .nil
  | cons a as ih =>
    obtain ⟨u, hu, he⟩ := Option.bind_eq_some_iff.mp he
    have hrest : Run step s ([(s, a)] ++ trace step u as) t := (Run.nil.snoc hu).append (ih he)
    simpa [trace, hu] using hrest

theorem Reachable.exec {as : List α} (h : Reachable step s t)
    (he : exec step t as = some u) : Reachable step s u := by
  obtain ⟨tr, h⟩ := h
  obtain ⟨tr', h', -⟩ := h.append_exec he
  exact ⟨_, h'⟩

end OrbRelay.Transition
