import Mathlib

/-! Systems that answer every call: what is answered after a sequence of calls. A call `a` made
after the calls `before`, somewhere in `as`, is `before ++ [a] <+: as`. -/
namespace Yyds.Lib

variable {σ α ρ : Type*}

/-- A system that starts in `init` and answers every call. -/
structure Server (σ α ρ : Type*) where
  init : σ
  exec : σ → α → ρ × σ

namespace Server

variable (M : Server σ α ρ)

/-- The state after the calls `as`. -/
def after (as : List α) : σ := as.foldl (fun s a => (M.exec s a).2) M.init

/-- The answer to `a` after the calls `as`. -/
def answer (as : List α) (a : α) : ρ := (M.exec (M.after as) a).1

@[simp] theorem after_nil : M.after [] = M.init := rfl

@[simp] theorem after_snoc (as : List α) (a : α) :
    M.after (as ++ [a]) = (M.exec (M.after as) a).2 := by
  simp [after]

/-- The calls `as`, each with the state it is made in, from `s` on. -/
def historyFrom : σ → List α → List (σ × α)
  | _, [] => []
  | s, a :: as => (s, a) :: historyFrom (M.exec s a).2 as

/-- The calls `as`, each with the state it is made in. -/
def history (as : List α) : List (σ × α) := M.historyFrom M.init as

theorem historyFrom_snoc (s : σ) (as : List α) (a : α) :
    M.historyFrom s (as ++ [a]) =
      M.historyFrom s as ++ [(as.foldl (fun s a => (M.exec s a).2) s, a)] := by
  induction as generalizing s with
  | nil => rfl
  | cons b as ih =>
    rw [List.cons_append, historyFrom, ih]
    rfl

@[simp] theorem history_nil : M.history [] = [] := rfl

@[simp] theorem history_snoc (as : List α) (a : α) :
    M.history (as ++ [a]) = M.history as ++ [(M.after as, a)] := M.historyFrom_snoc _ _ _

variable {M}

/-- What holds at first and is kept by every call holds after all calls. -/
theorem after_invariant {P : List α → σ → Prop} (h0 : P [] M.init)
    (hstep : ∀ as a, P as (M.after as) → P (as ++ [a]) (M.exec (M.after as) a).2) (as : List α) :
    P as (M.after as) := by
  induction as using List.reverseRecOn with
  | nil => exact h0
  | append_singleton as a ih =>
    rw [after_snoc]
    exact hstep as a ih

/-- What every call does to the state, all calls together do. -/
theorem after_mono {R : σ → σ → Prop} (hrefl : ∀ s, R s s)
    (htrans : ∀ s t u, R s t → R t u → R s u)
    (hstep : ∀ as a, R (M.after as) (M.exec (M.after as) a).2) {as bs : List α}
    (h : as <+: bs) : R (M.after as) (M.after bs) := by
  induction bs using List.reverseRecOn with
  | nil =>
    rw [List.prefix_nil.mp h]
    exact hrefl _
  | append_singleton bs b ih =>
    rcases List.prefix_concat_iff.mp h with heq | hpre
    · rw [heq]
      exact hrefl _
    · rw [after_snoc]
      exact htrans _ _ _ (ih hpre) (hstep bs b)

end Server

end Yyds.Lib
