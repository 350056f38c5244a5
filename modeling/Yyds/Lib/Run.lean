import Mathlib

/-! Finite labelled runs of a transition relation, and the rule that carries an
invariant from one step to a whole run. -/
namespace Yyds.Lib

variable {σ α : Type*}

/-- `Run step s as t`: the labels `as` lead from `s` to `t`. -/
inductive Run (step : σ → α → σ → Prop) : σ → List α → σ → Prop
  | nil (s : σ) : Run step s [] s
  | cons {s t u : σ} {a : α} {as : List α} :
      step s a t → Run step t as u → Run step s (a :: as) u

/-- Only those steps whose source state and label satisfy `C`. -/
def Guarded (C : σ → α → Prop) (step : σ → α → σ → Prop) (s : σ) (a : α) (t : σ) : Prop :=
  C s a ∧ step s a t

variable {step : σ → α → σ → Prop} {s t u : σ} {a : α} {as bs : List α}

theorem Run.invariant {Inv : σ → Prop} (h : Run step s as t)
    (hstep : ∀ s a t, step s a t → Inv s → Inv t) (hs : Inv s) : Inv t := by
  induction h with
  | nil s => exact hs
  | cons hst _ ih => exact ih (hstep _ _ _ hst hs)

theorem Run.mono {step' : σ → α → σ → Prop} (h : Run step s as t)
    (hstep : ∀ s a t, step s a t → step' s a t) : Run step' s as t := by
  induction h with
  | nil s => exact .nil s
  | cons hst _ ih => exact .cons (hstep _ _ _ hst) ih

theorem Run.append (h : Run step s as t) (h' : Run step t bs u) : Run step s (as ++ bs) u := by
  induction h with
  | nil s => exact h'
  | cons hst _ ih => exact .cons hst (ih h')

/-- The steps of a run lead to states without `P`, or there is a first one with it. -/
theorem Run.passes_or (P : σ → Prop) (h : Run step s as t) :
    Run (fun s a t => step s a t ∧ ¬ P t) s as t ∨
      ∃ bs cs u, as = bs ++ cs ∧ Run step s bs u ∧ Run step u cs t ∧ P u := by
  induction h with
  | nil s => exact .inl (.nil s)
  | @cons s t v a as hst hrest ih =>
    by_cases hP : P t
    · exact .inr ⟨[a], as, t, rfl, .cons hst (.nil t), hrest, hP⟩
    rcases ih with ih | ⟨bs, cs, u, rfl, hb, hc, hu⟩
    · exact .inl (.cons ⟨hst, hP⟩ ih)
    · exact .inr ⟨a :: bs, cs, u, rfl, .cons hst hb, hc, hu⟩

/-- Where a step is right if and only if its guard holds, the runs of right steps are the guarded
runs. -/
theorem Run.right_iff_guarded {Inv : σ → Prop} {Right : σ → α → σ → Prop} {C : σ → α → Prop}
    (hstep : ∀ s a t, Inv s → step s a t → (Right s a t ↔ C s a))
    (hinv : ∀ s a t, Inv s → Right s a t → Inv t) (hs : Inv s) :
    Run (fun s a t => step s a t ∧ Right s a t) s as t ↔ Run (Guarded C step) s as t := by
  constructor
  · intro h
    induction h with
    | nil s => exact .nil s
    | cons hst _ ih =>
      exact .cons ⟨(hstep _ _ _ hs hst.1).mp hst.2, hst.1⟩ (ih (hinv _ _ _ hs hst.2))
  · intro h
    induction h with
    | nil s => exact .nil s
    | cons hst _ ih =>
      have hright := (hstep _ _ _ hs hst.2).mpr hst.1
      exact .cons ⟨hst.2, hright⟩ (ih (hinv _ _ _ hs hright))

/-- Executing a partial step function gives a run. -/
theorem Run.of_exec {f : σ → α → Option σ} (h : as.foldlM f s = some t) :
    Run (fun s a t => f s a = some t) s as t := by
  induction as generalizing s with
  | nil =>
    cases h
    exact .nil _
  | cons a as ih =>
    rw [List.foldlM_cons, Option.bind_eq_bind, Option.bind_eq_some_iff] at h
    obtain ⟨u, hu, hrest⟩ := h
    exact .cons hu (ih hrest)

/-- The same with a guard that is tested at every step. -/
theorem Run.of_foldlM {f : σ → α → Option σ} {C : σ → α → Prop} [∀ s a, Decidable (C s a)]
    (h : as.foldlM (fun s a => if C s a then f s a else none) s = some t) :
    Run (Guarded C fun s a t => f s a = some t) s as t := by
  refine (Run.of_exec h).mono ?_
  intro s a t hst
  rw [Option.ite_none_right_eq_some] at hst
  exact hst

/-- Executing a step function that is total gives a run. -/
theorem Run.of_foldl (f : σ → α → σ) (s : σ) (as : List α) :
    Run (fun s a t => f s a = t) s as (as.foldl f s) := by
  induction as generalizing s with
  | nil => exact .nil s
  | cons a as ih => exact .cons rfl (ih (f s a))

/-- The same with a guard that is tested at every step. -/
theorem Run.of_guards {f : σ → α → σ} {C : σ → α → Prop} [∀ s a, Decidable (C s a)]
    (h : as.foldlM (fun s a => if C s a then some (f s a) else none) s = some t) :
    Run (Guarded C fun s a t => f s a = t) s as t := by
  refine (Run.of_foldlM h).mono ?_
  rintro s a t ⟨hC, hst⟩
  exact ⟨hC, Option.some.inj hst⟩

/-- Executing gives a run to a state of which something can be tested. -/
theorem Run.exists_exec {f : σ → α → Option σ} {P : σ → Prop}
    (h : ∃ t ∈ as.foldlM f s, P t := by decide +kernel) :
    ∃ t, Run (fun s a t => f s a = some t) s as t ∧ P t := by
  obtain ⟨t, ht, hP⟩ := h
  exact ⟨t, .of_exec ht, hP⟩

theorem Run.exists_foldlM {f : σ → α → Option σ} {C : σ → α → Prop} [∀ s a, Decidable (C s a)]
    {P : σ → Prop}
    (h : ∃ t ∈ as.foldlM (fun s a => if C s a then f s a else none) s, P t := by decide +kernel) :
    ∃ t, Run (Guarded C fun s a t => f s a = some t) s as t ∧ P t := by
  obtain ⟨t, ht, hP⟩ := h
  exact ⟨t, .of_foldlM ht, hP⟩

theorem Run.exists_guards {f : σ → α → σ} {C : σ → α → Prop} [∀ s a, Decidable (C s a)]
    {P : σ → Prop} (h : ∃ t ∈ as.foldlM (fun s a => if C s a then some (f s a) else none) s, P t
      := by decide +kernel) :
    ∃ t, Run (Guarded C fun s a t => f s a = t) s as t ∧ P t := by
  obtain ⟨t, ht, hP⟩ := h
  exact ⟨t, .of_guards ht, hP⟩

section
variable {ε : Type*} {x : Except ε σ}

instance decidableOk {P : σ → Prop} [DecidablePred P] : Decidable (∃ t, x = .ok t ∧ P t) :=
  match x with
  | .ok t => decidable_of_iff (P t) (by simp)
  | .error _ => isFalse nofun

instance decidableError {e : ε} [DecidableEq ε] : Decidable (x = .error e) :=
  match x with
  | .ok _ => isFalse nofun
  | .error e' => decidable_of_iff (e' = e) (by simp)

end

theorem Run.single (h : step s a t) : Run step s [a] t := .cons h (.nil t)

end Yyds.Lib
