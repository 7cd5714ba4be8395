import Mathlib.Data.List.Induction
import Mathlib.Tactic.Common

/-!
# Labelled Machines and Their Runs

A `Machine σ α` is a partial transition function: `step s a` is the state after action
`a`, or `none` when `a` cannot happen in `s`. `run` iterates it over a list of actions.

Two run-level predicates are defined by recursion on the actions. `Guarded G s as` says
that every step of the run from `s` is taken in a state where the guard `G` allows its
action; `Always P s as` says that every state the run visits satisfies `P`.

## Main results

* `run_append`: a run splits after any prefix of its actions.
* `run_induction`: the induction rule over the actions of a run, last action first.
* `Guarded.run_invariant`: what guarded steps preserve, guarded runs preserve.
* `Guarded.always`: guarded runs only visit good states when guarded steps lead to them.
* `always_iff_guarded`: when a step leads to a good state exactly under the guard, the
  runs that stay in good states are exactly the guarded ones.
* `exists_history`: every run can be watched by a history variable.
* `Simulates.run`: a step-by-step simulation of one machine in another carries over to
  runs.
-/

/-- A labelled transition system whose steps are given by a partial function. -/
structure Machine (σ α : Type*) where
  /-- The state after an action, `none` when the action is not enabled. -/
  step : σ → α → Option σ

namespace Machine

variable {σ α : Type*} (M : Machine σ α)

/-- The state after a list of actions, `none` when one of them is not enabled. -/
def run : σ → List α → Option σ
  | s, [] => some s
  | s, a :: as => (M.step s a).bind fun t => run t as

/-- Every step of the run from `s` meets the guard in the state it starts from. -/
def Guarded (G : σ → α → Prop) : σ → List α → Prop
  | _, [] => True
  | s, a :: as => G s a ∧ ∀ t, M.step s a = some t → Guarded G t as

/-- Every state visited by the run from `s`, `s` included, satisfies `P`. -/
def Always (P : σ → Prop) : σ → List α → Prop
  | s, [] => P s
  | s, a :: as => P s ∧ ∀ t, M.step s a = some t → Always P t as

@[simp] theorem run_nil (s : σ) : M.run s [] = some s := rfl

theorem run_cons (s : σ) (a : α) (as : List α) :
    M.run s (a :: as) = (M.step s a).bind fun t => M.run t as := rfl

@[simp] theorem run_singleton (s : σ) (a : α) : M.run s [a] = M.step s a := by
  rw [run_cons]
  exact Option.bind_fun_some _

@[simp] theorem guarded_nil (G : σ → α → Prop) (s : σ) : M.Guarded G s [] := trivial

variable {M}

/-- The first step of a run. -/
theorem run_cons_eq_some {s u : σ} {a : α} {as : List α} :
    M.run s (a :: as) = some u ↔ ∃ t, M.step s a = some t ∧ M.run t as = some u := by
  rw [run_cons, Option.bind_eq_some_iff]

/-- A run splits after any prefix of its actions. -/
theorem run_append (s : σ) (as bs : List α) :
    M.run s (as ++ bs) = (M.run s as).bind fun t => M.run t bs := by
  induction as generalizing s with
  | nil => rfl
  | cons a as ih =>
      rw [List.cons_append, run_cons, run_cons, Option.bind_assoc]
      congr 1
      funext t
      exact ih t

theorem run_append_eq_some {s u : σ} {as bs : List α} :
    M.run s (as ++ bs) = some u ↔ ∃ t, M.run s as = some t ∧ M.run t bs = some u := by
  rw [run_append, Option.bind_eq_some_iff]

/-- The last step of a run. -/
theorem run_snoc_eq_some {s u : σ} {a : α} {as : List α} :
    M.run s (as ++ [a]) = some u ↔ ∃ t, M.run s as = some t ∧ M.step t a = some u := by
  simp [run_append_eq_some]

/-- **Induction over a run**, last action first: what holds of the empty run and is kept
by one more action holds of every run and of the state it ends in. -/
theorem run_induction {s₀ : σ} {motive : List α → σ → Prop} (nil : motive [] s₀)
    (snoc : ∀ as s a t, M.run s₀ as = some s → motive as s → M.step s a = some t →
      motive (as ++ [a]) t)
    {as : List α} {s : σ} (h : M.run s₀ as = some s) : motive as s := by
  induction as using List.reverseRecOn generalizing s with
  | nil =>
      obtain rfl : s₀ = s := Option.some.inj h
      exact nil
  | append_singleton as a ih =>
      obtain ⟨t, ht, hs⟩ := run_snoc_eq_some.mp h
      exact snoc as t a s ht (ih ht) hs

/-! ### Guards -/

/-- **The invariant rule**: an invariant kept by every step that meets the guard holds
after every run that meets it. -/
theorem Guarded.run_invariant {G : σ → α → Prop} {I : σ → Prop}
    (hstep : ∀ s a t, I s → G s a → M.step s a = some t → I t) {s t : σ} {as : List α}
    (hg : M.Guarded G s as) (hI : I s) (h : M.run s as = some t) : I t := by
  induction as generalizing s with
  | nil => exact Option.some.inj h ▸ hI
  | cons a as ih =>
      obtain ⟨u, hu, hrun⟩ := run_cons_eq_some.mp h
      exact ih (hg.2 u hu) (hstep s a u hI hg.1 hu) hrun

/-- An invariant kept by every step holds after every run. -/
theorem run_invariant {I : σ → Prop} (hstep : ∀ s a t, I s → M.step s a = some t → I t)
    {s t : σ} {as : List α} (hI : I s) (h : M.run s as = some t) : I t := by
  induction as generalizing s with
  | nil => exact Option.some.inj h ▸ hI
  | cons a as ih =>
      obtain ⟨u, hu, hrun⟩ := run_cons_eq_some.mp h
      exact ih (hstep s a u hI hu) hrun

/-- Guards that can be decided make guarded runs decidable. -/
instance decidableGuarded {G : σ → α → Prop} [∀ s a, Decidable (G s a)] :
    ∀ s as, Decidable (M.Guarded G s as)
  | _, [] => isTrue trivial
  | s, a :: as =>
      match h : M.step s a with
      | none => decidable_of_iff (G s a)
          ⟨fun hG => ⟨hG, fun t ht => by rw [h] at ht; cases ht⟩, fun hG => hG.1⟩
      | some t =>
          haveI := decidableGuarded (G := G) t as
          decidable_of_iff (G s a ∧ M.Guarded G t as)
            ⟨fun hG => ⟨hG.1, fun u hu => Option.some.inj (h ▸ hu) ▸ hG.2⟩,
              fun hG => ⟨hG.1, hG.2 t h⟩⟩

/-- A guard is **exact** for a property of states when guarded runs have the property
wherever they end, and a step that breaks the guard can always be continued into a state
without the property. -/
structure ExactGuard (M : Machine σ α) (s₀ : σ) (G : σ → α → Prop) (P : σ → Prop) :
    Prop where
  safe : ∀ as s, M.run s₀ as = some s → M.Guarded G s₀ as → P s
  sharp : ∀ as s a t, M.run s₀ as = some s → M.Guarded G s₀ as → M.step s a = some t →
    ¬ G s a → ∃ bs u, M.run t bs = some u ∧ ¬ P u

/-- The machine in an environment that only does what `E` allows. -/
def restrict (M : Machine σ α) (E : σ → α → Prop) [∀ s a, Decidable (E s a)] :
    Machine σ α where
  step s a := if E s a then M.step s a else none

theorem restrict_step {E : σ → α → Prop} [∀ s a, Decidable (E s a)] {s t : σ} {a : α} :
    (M.restrict E).step s a = some t ↔ E s a ∧ M.step s a = some t :=
  Option.ite_none_right_eq_some

/-- The restricted machine has some of the runs. -/
theorem restrict_run {E : σ → α → Prop} [∀ s a, Decidable (E s a)] {s t : σ} {as : List α}
    (h : (M.restrict E).run s as = some t) : M.run s as = some t := by
  induction as generalizing s with
  | nil => exact h
  | cons a as ih =>
      obtain ⟨u, hu, hrun⟩ := run_cons_eq_some.mp h
      exact run_cons_eq_some.mpr ⟨u, (restrict_step.mp hu).2, ih hrun⟩

/-! ### History variables -/

/-- The machine beside a history variable, which notes what the steps do and has no
influence on them. -/
def withHistory {γ : Type*} (M : Machine σ α) (note : σ → α → σ → γ → γ) :
    Machine (σ × γ) α where
  step x a := (M.step x.1 a).map fun t => (t, note x.1 a t x.2)

theorem withHistory_step {γ : Type*} {note : σ → α → σ → γ → γ} {s t : σ} {x y : γ} {a : α} :
    (M.withHistory note).step (s, x) a = some (t, y) ↔
      M.step s a = some t ∧ note s a t x = y := by
  simp [withHistory, Option.map_eq_some_iff]

/-- Every run has its history. -/
theorem exists_history {γ : Type*} (note : σ → α → σ → γ → γ) {s t : σ} {as : List α}
    (h : M.run s as = some t) (x : γ) :
    ∃ y, (M.withHistory note).run (s, x) as = some (t, y) := by
  induction as generalizing s x with
  | nil => exact ⟨x, congrArg (fun s => some (s, x)) (Option.some.inj h)⟩
  | cons a as ih =>
      obtain ⟨u, hu, hrun⟩ := run_cons_eq_some.mp h
      obtain ⟨y, hy⟩ := ih hrun (note s a u x)
      exact ⟨y, run_cons_eq_some.mpr ⟨_, withHistory_step.mpr ⟨hu, rfl⟩, hy⟩⟩

/-- Without the history variable it is a run of the machine. -/
theorem withHistory_run {γ : Type*} {note : σ → α → σ → γ → γ} {s t : σ} {as : List α} {x y : γ}
    (h : (M.withHistory note).run (s, x) as = some (t, y)) : M.run s as = some t := by
  induction as generalizing s x with
  | nil => exact congrArg (fun z => some z.1) (Option.some.inj h)
  | cons a as ih =>
      obtain ⟨⟨u, z⟩, hu, hrun⟩ := run_cons_eq_some.mp h
      exact run_cons_eq_some.mpr ⟨u, (withHistory_step.mp hu).1, ih hrun⟩

/-! ### States visited -/

/-- The state that a run ends in is visited. -/
theorem Always.of_run {P : σ → Prop} {s t : σ} {as : List α} (h : M.Always P s as)
    (hrun : M.run s as = some t) : P t := by
  induction as generalizing s with
  | nil => exact Option.some.inj hrun ▸ h
  | cons a as ih =>
      obtain ⟨u, hu, hrun⟩ := run_cons_eq_some.mp hrun
      exact ih (h.2 u hu) hrun

/-- **The guard rule for states visited**: when, from the states of an invariant, a step by
an admissible action that meets the guard goes from a good state to a good state, guarded
runs of such actions visit good states only. -/
theorem Guarded.always {G : σ → α → Prop} {I P : σ → Prop} {A : α → Prop}
    (hinv : ∀ s a t, A a → I s → M.step s a = some t → I t)
    (hstep : ∀ s a t, A a → I s → P s → G s a → M.step s a = some t → P t)
    {s : σ} {as : List α} (hg : M.Guarded G s as) (hI : I s) (hP : P s)
    (has : ∀ a ∈ as, A a) : M.Always P s as := by
  induction as generalizing s with
  | nil => exact hP
  | cons a as ih =>
      obtain ⟨ha, has⟩ := List.forall_mem_cons.mp has
      refine ⟨hP, fun t ht => ?_⟩
      exact ih (hg.2 t ht) (hinv s a t ha hI ht) (hstep s a t ha hI hP hg.1 ht) has

/-- **Exact guards.** When, from the states of an invariant, a step by an admissible action
leads to a good state if and only if it meets the guard, the runs of such actions that only
visit good states are exactly the guarded ones. -/
theorem always_iff_guarded {G : σ → α → Prop} {I P : σ → Prop} {A : α → Prop}
    (hinv : ∀ s a t, A a → I s → M.step s a = some t → I t)
    (hexact : ∀ s a t, A a → I s → P s → M.step s a = some t → (P t ↔ G s a))
    {s : σ} (hI : I s) (hP : P s) {as : List α} (has : ∀ a ∈ as, A a) {u : σ}
    (hrun : M.run s as = some u) : M.Always P s as ↔ M.Guarded G s as := by
  refine ⟨fun h => ?_, fun h => h.always hinv
    (fun s a t ha hI hP hG ht => (hexact s a t ha hI hP ht).mpr hG) hI hP has⟩
  induction as generalizing s with
  | nil => trivial
  | cons a as ih =>
      obtain ⟨t, ht, hrun⟩ := run_cons_eq_some.mp hrun
      obtain ⟨ha, has⟩ := List.forall_mem_cons.mp has
      have hPt : P t := by
        have hA := h.2 t ht
        cases as <;> first | exact hA | exact hA.1
      refine ⟨(hexact s a t ha hI hP ht).mp hPt, fun t' ht' => ?_⟩
      obtain rfl := Option.some.inj (ht.symm.trans ht')
      exact ih (hinv s a t ha hI ht) hPt has hrun (h.2 t ht)

/-! ### Simulations -/

/-- `M` is simulated by `N` through a projection of states: each step of `M` that meets
the guard is matched by a run of `N` between the projections. -/
def Simulates {τ β : Type*} (M : Machine σ α) (N : Machine τ β) (G : σ → α → Prop)
    (proj : σ → τ) : Prop :=
  ∀ s a t, G s a → M.step s a = some t → ∃ bs, N.run (proj s) bs = some (proj t)

/-- A simulation of steps is a simulation of runs. -/
theorem Simulates.run {τ β : Type*} {N : Machine τ β} {G : σ → α → Prop} {proj : σ → τ}
    (h : M.Simulates N G proj) {s t : σ} {as : List α} (hg : M.Guarded G s as)
    (hrun : M.run s as = some t) : ∃ bs, N.run (proj s) bs = some (proj t) := by
  induction as generalizing s with
  | nil =>
      obtain rfl : s = t := Option.some.inj hrun
      exact ⟨[], rfl⟩
  | cons a as ih =>
      obtain ⟨u, hu, hrun⟩ := run_cons_eq_some.mp hrun
      obtain ⟨bs, hbs⟩ := h s a u hg.1 hu
      obtain ⟨cs, hcs⟩ := ih (hg.2 u hu) hrun
      exact ⟨bs ++ cs, run_append_eq_some.mpr ⟨proj u, hbs, hcs⟩⟩

end Machine
