import Yyds.Lib.Kern

/-! Pre- and postconditions for routines that may stop the machine. -/
namespace Yyds.Lib.Kern

variable {σ α β : Type} {P P' : σ → Prop} {Q Q' : α → σ → Prop} {R : β → σ → Prop}
  {E E' : String → Prop} {x : Kern σ α} {f : α → Kern σ β} {s t : σ} {a : α}

/-- From a state with `P` the routine returns with `Q`, or stops with a message in `E`. -/
def Triple (P : σ → Prop) (x : Kern σ α) (Q : α → σ → Prop) (E : String → Prop) : Prop :=
  ∀ s, P s → match x s with
    | .ok (a, t) => Q a t
    | .error e => E e

namespace Triple

theorem ok (h : Triple P x Q E) (hs : P s) (hx : x s = .ok (a, t)) : Q a t := by
  have := h s hs
  rwa [hx] at this

theorem error {e : String} (h : Triple P x Q E) (hs : P s) (hx : x s = .error e) : E e := by
  have := h s hs
  rwa [hx] at this

theorem returns (h : Triple P x Q fun _ => False) (hs : P s) : ∃ a t, x s = .ok (a, t) ∧ Q a t := by
  cases hx : x s with
  | ok at' => exact ⟨_, _, rfl, h.ok hs hx⟩
  | error e => exact (h.error hs hx).elim

theorem of_ok (h : ∀ s, P s → ∃ a t, x s = .ok (a, t) ∧ Q a t) : Triple P x Q E := by
  intro s hs
  obtain ⟨a, t, hx, hq⟩ := h s hs
  rw [hx]
  exact hq

theorem pure (h : ∀ s, P s → Q a s) : Triple P (Pure.pure a : Kern σ α) Q E := h

theorem bind (hx : Triple P x Q E) (hf : ∀ a, Triple (Q a) (f a) R E) : Triple P (x >>= f) R E := by
  intro s hs
  rw [bind_apply]
  cases h : x s with
  | ok at' => exact hf _ _ (hx.ok hs h)
  | error e => exact hx.error hs h

theorem get_bind {f : σ → Kern σ β} (h : ∀ s, P s → Triple P (f s) R E) :
    Triple P (get >>= f) R E :=
  fun s hs => h s hs s hs

/-- A fact that does not depend on the state. -/
theorem assume {p : Prop} (h : p → Triple P x Q E) : Triple (fun s => P s ∧ p) x Q E :=
  fun s hs => h hs.2 s hs.1

theorem conseq (h : Triple P x Q E) (he : ∀ e, E e → E' e)
    (hq : ∀ a s, Q a s → Q' a s := by exact fun _ _ => id)
    (hp : ∀ s, P' s → P s := by exact fun _ => id) : Triple P' x Q' E' := by
  intro s hs
  cases hx : x s with
  | ok at' => exact hq _ _ (h.ok (hp s hs) hx)
  | error e => exact he e (h.error (hp s hs) hx)

end Triple

end Yyds.Lib.Kern
