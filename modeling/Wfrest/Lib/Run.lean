import Mathlib.Data.List.Basic
import Mathlib.Tactic.Common

/-!
# Runs of a machine

A `Machine` answers an event with an output and a new state, or is not ready for
it. What several parties do concurrently, each in atomic steps, is one machine
whose events are the steps of the parties. A run is recorded as its history, the
events with their outputs in the order in which they happened.

* `Reach.invariant` packages the induction over runs.
* `Always` says that a condition holds at every step of a history, and
  `always_congr` compares two conditions step by step.
* `restrict` is the machine that takes only the steps a condition allows.
* `run?` executes a list of events.
-/

namespace Wfrest

/-- A deterministic machine with states `σ`, events `ε` and outputs `ο`. -/
structure Machine (σ ε ο : Type*) where
  /-- The unique initial state. -/
  init : σ
  /-- `none` when the event cannot happen in the state. -/
  step : σ → ε → Option (σ × ο)

namespace Machine

variable {σ ε ο : Type*} (M : Machine σ ε ο)

/-- `M.Reach h s`: the history `h` leads from the initial state to `s`. -/
inductive Reach : List (ε × ο) → σ → Prop
  | init : Reach [] M.init
  | snoc {h : List (ε × ο)} {s s' : σ} {e : ε} {o : ο} :
      Reach h s → M.step s e = some (s', o) → Reach (h ++ [(e, o)]) s'

variable {M}

/-- **The invariant rule.** What holds initially and is kept by every step of a
reached state holds in every reached state. -/
theorem Reach.invariant {I : List (ε × ο) → σ → Prop} (hinit : I [] M.init)
    (hstep : ∀ h s e s' o, M.Reach h s → I h s → M.step s e = some (s', o) →
      I (h ++ [(e, o)]) s')
    {h : List (ε × ο)} {s : σ} (hr : M.Reach h s) : I h s := by
  induction hr with
  | init => exact hinit
  | snoc hr hs ih => exact hstep _ _ _ _ _ hr ih hs

theorem reach_snoc_iff {h : List (ε × ο)} {e : ε} {o : ο} {s' : σ} :
    M.Reach (h ++ [(e, o)]) s' ↔ ∃ s, M.Reach h s ∧ M.step s e = some (s', o) := by
  constructor
  · intro hr
    generalize hg : h ++ [(e, o)] = g at hr
    cases hr with
    | init => simp at hg
    | snoc hr hs =>
      obtain ⟨rfl, heq⟩ := List.append_inj' hg rfl
      obtain ⟨rfl, rfl⟩ : e = _ ∧ o = _ := by simpa using heq
      exact ⟨_, hr, hs⟩
  · rintro ⟨s, hr, hs⟩
    exact hr.snoc hs

/-- The state that a history leads to is unique. -/
theorem Reach.unique {h : List (ε × ο)} {s t : σ} (hs : M.Reach h s) (ht : M.Reach h t) :
    s = t := by
  induction hs generalizing t with
  | init =>
    generalize hg : ([] : List (ε × ο)) = g at ht
    cases ht with
    | init => rfl
    | snoc => simp at hg
  | snoc _ hstep ih =>
    obtain ⟨u, hu, hstep'⟩ := reach_snoc_iff.mp ht
    obtain rfl := ih hu
    rw [hstep] at hstep'
    exact congrArg Prod.fst (Option.some.inj hstep')

/-- A step of a run was done in a state that the run had reached. -/
theorem Reach.split {h₁ h₂ : List (ε × ο)} {e : ε} {o : ο} {s : σ}
    (hr : M.Reach (h₁ ++ (e, o) :: h₂) s) :
    ∃ s₁ s₂, M.Reach h₁ s₁ ∧ M.step s₁ e = some (s₂, o) := by
  generalize hg : h₁ ++ (e, o) :: h₂ = g at hr
  induction hr generalizing h₂ with
  | init => simp at hg
  | @snoc h _ _ e' o' hr hs ih =>
    rcases List.eq_nil_or_concat h₂ with rfl | ⟨h₂, x, rfl⟩
    · obtain ⟨rfl, heq⟩ := List.append_inj' hg rfl
      obtain ⟨rfl, rfl⟩ : e = e' ∧ o = o' := by simpa using heq
      exact ⟨_, _, hr, hs⟩
    · have hg' : (h₁ ++ (e, o) :: h₂) ++ [x] = h ++ [(e', o')] := by simpa using hg
      exact ih (List.append_inj' hg' rfl).1

/-- **The invariant rule, from a reached state on.** What holds there and is kept by every step
with an event that `p` allows holds after every such run. -/
theorem Reach.invariantFrom {I : List (ε × ο) → σ → Prop} {p : ε → Prop} {h h' : List (ε × ο)}
    {s s' : σ} (hr : M.Reach h s) (hI : I h s)
    (hstep : ∀ h s e s' o, M.Reach h s → I h s → p e → M.step s e = some (s', o) →
      I (h ++ [(e, o)]) s')
    (hr' : M.Reach (h ++ h') s') (hp : ∀ x ∈ h', p x.1) : I (h ++ h') s' := by
  generalize hg : h ++ h' = g at hr'
  induction hr' generalizing h' with
  | init =>
    obtain ⟨rfl, rfl⟩ := List.append_eq_nil_iff.mp hg
    rwa [hr.unique .init] at hI
  | @snoc g _ _ e o hr₁ hs ih =>
    rcases List.eq_nil_or_concat h' with rfl | ⟨h', x, rfl⟩
    · rw [List.append_nil] at hg
      subst hg
      rwa [hr.unique (hr₁.snoc hs)] at hI
    · rw [List.concat_eq_append, ← List.append_assoc] at hg
      obtain ⟨hg, hx⟩ := List.append_inj' hg rfl
      rw [List.concat_eq_append] at hp
      refine hstep g _ e _ o hr₁ (ih ?_ hg) ?_ hs
      · exact fun y hy => hp y (List.mem_append_left _ hy)
      · have hxe : x = (e, o) := List.cons.inj hx |>.1
        have hpx := hp x (List.mem_append_right _ List.mem_cons_self)
        rwa [hxe] at hpx

/-- A step with a fixed output is the operation itself. -/
theorem eq_some_of_map {op : Option σ} {s' : σ} {o o' : ο}
    (h : op.map (fun s => (s, o)) = some (s', o')) : op = some s' ∧ o = o' := by
  obtain ⟨s, hop, heq⟩ := Option.map_eq_some_iff.mp h
  obtain ⟨rfl, rfl⟩ := Prod.mk.inj heq
  exact ⟨hop, rfl⟩

/-! ### Conditions on every step -/

variable (M) in
/-- `Q` holds at every step of the history `h`: of the history before the step,
the state, the event, its output and the new state. -/
def Always (Q : List (ε × ο) → σ → ε → ο → σ → Prop) (h : List (ε × ο)) : Prop :=
  ∀ h₁ e o h₂ s s', h = h₁ ++ (e, o) :: h₂ → M.Reach h₁ s → M.step s e = some (s', o) →
    Q h₁ s e o s'

variable {Q Q' : List (ε × ο) → σ → ε → ο → σ → Prop}

theorem always_nil : M.Always Q [] := by
  intro h₁ e o h₂ s s' hh
  simp at hh

/-- The condition of the last step may use that of the steps before it. -/
theorem always_snoc {h : List (ε × ο)} {s s' : σ} {e : ε} {o : ο} (hr : M.Reach h s)
    (hs : M.step s e = some (s', o)) :
    M.Always Q (h ++ [(e, o)]) ↔ M.Always Q h ∧ Q h s e o s' := by
  constructor
  · intro hall
    refine ⟨fun h₁ e₁ o₁ h₂ s₁ s₁' hh => ?_, hall h e o [] s s' rfl hr hs⟩
    exact hall h₁ e₁ o₁ (h₂ ++ [(e, o)]) s₁ s₁' (by rw [hh]; simp)
  · rintro ⟨hall, hlast⟩ h₁ e₁ o₁ h₂ s₁ s₁' hh hr₁ hs₁
    rcases List.eq_nil_or_concat h₂ with rfl | ⟨h₂, x, rfl⟩
    · obtain ⟨rfl, heq⟩ := List.append_inj' hh rfl
      obtain ⟨rfl, rfl⟩ : e = e₁ ∧ o = o₁ := by simpa using heq
      obtain rfl := hr.unique hr₁
      rw [hs] at hs₁
      obtain rfl : s' = s₁' := congrArg Prod.fst (Option.some.inj hs₁)
      exact hlast
    · have hh' : h ++ [(e, o)] = (h₁ ++ (e₁, o₁) :: h₂) ++ [x] := by simpa using hh
      exact hall h₁ e₁ o₁ h₂ s₁ s₁' (List.append_inj' hh' rfl).1 hr₁ hs₁

/-- A condition that holds of every step with certain events holds in a run of these events. -/
theorem always_of_forall_mem (p : ε → Prop) (hQ : ∀ h s e o s', p e → Q h s e o s')
    {h : List (ε × ο)} (hp : ∀ x ∈ h, p x.1) : M.Always Q h := by
  intro h₁ e o h₂ s s' hsplit _ _
  have hmem : (e, o) ∈ h := by
    rw [hsplit]
    exact List.mem_append_right _ List.mem_cons_self
  exact hQ h₁ s e o s' (hp _ hmem)

/-- Conditions that agree at every step of a reached state agree on every run. -/
theorem always_congr
    (hQ : ∀ h s e o s', M.Reach h s → M.step s e = some (s', o) →
      (Q h s e o s' ↔ Q' h s e o s')) (h : List (ε × ο)) :
    M.Always Q h ↔ M.Always Q' h := by
  constructor
  · intro hall h₁ e o h₂ s s' hh hr hs
    exact (hQ h₁ s e o s' hr hs).mp (hall h₁ e o h₂ s s' hh hr hs)
  · intro hall h₁ e o h₂ s s' hh hr hs
    exact (hQ h₁ s e o s' hr hs).mpr (hall h₁ e o h₂ s s' hh hr hs)

/-! ### Restricted machines -/

variable (M) in
/-- The machine that is ready for an event only where `q` allows it. -/
def restrict (q : σ → ε → Prop) [∀ s e, Decidable (q s e)] : Machine σ ε ο where
  init := M.init
  step s e := if q s e then M.step s e else none

/-- The runs of the restricted machine are runs on which `q` holds at every step. -/
theorem Reach.of_restrict {q : σ → ε → Prop} [∀ s e, Decidable (q s e)]
    {h : List (ε × ο)} {s : σ} (hr : (M.restrict q).Reach h s) :
    M.Reach h s ∧ M.Always (fun _ s e _ _ => q s e) h := by
  induction hr with
  | init => exact ⟨.init, always_nil⟩
  | snoc _ hstep ih =>
    simp only [restrict] at hstep
    split at hstep
    next hq => exact ⟨ih.1.snoc hstep, (always_snoc ih.1 hstep).mpr ⟨ih.2, hq⟩⟩
    · cases hstep

/-! ### Executing events -/

variable (M) in
/-- The history and the state after a list of events, from a given state. -/
def runFrom? (s : σ) : List ε → Option (List (ε × ο) × σ)
  | [] => some ([], s)
  | e :: es =>
    match M.step s e with
    | none => none
    | some (s', o) => (runFrom? s' es).map fun r => ((e, o) :: r.1, r.2)

theorem Reach.runFrom? {h h' : List (ε × ο)} {s s' : σ} {es : List ε} (hr : M.Reach h s)
    (hrun : M.runFrom? s es = some (h', s')) : M.Reach (h ++ h') s' := by
  induction es generalizing h s h' with
  | nil =>
    obtain ⟨rfl, rfl⟩ : [] = h' ∧ s = s' := by simpa [Machine.runFrom?] using hrun
    simpa using hr
  | cons e es ih =>
    simp only [Machine.runFrom?] at hrun
    split at hrun
    · cases hrun
    next s₁ o hstep =>
      obtain ⟨⟨t, s₂⟩, hrest, heq⟩ := Option.map_eq_some_iff.mp hrun
      obtain ⟨rfl, rfl⟩ : (e, o) :: t = h' ∧ s₂ = s' := by simpa using heq
      have := ih (hr.snoc hstep) hrest
      simpa using this

variable (M) in
/-- The history and the state after a list of events. -/
def run? (es : List ε) : Option (List (ε × ο) × σ) := M.runFrom? M.init es

/-- A check of the outcome of a list of events is a check of a reached state. -/
theorem exists_reach_of_run? {es : List ε} {p : List (ε × ο) × σ → Bool}
    (hrun : (M.run? es).any p = true) : ∃ h s, M.Reach h s ∧ p (h, s) = true := by
  obtain ⟨⟨h, s⟩, hs, hp⟩ := (Option.any_eq_true _ _).mp hrun
  exact ⟨h, s, by simpa using Reach.runFrom? Reach.init hs, hp⟩

end Machine

end Wfrest
