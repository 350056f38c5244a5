import Yyds.Lib.Run

/-! Routines that read and write a state and may stop the machine with a message.
The inversion lemmas take a computation that returned apart, one bind at a time. -/
namespace Yyds.Lib

/-- A routine over states `σ`: it returns a value and a state, or it panics. -/
def Kern (σ α : Type) : Type := σ → Except String (α × σ)

namespace Kern

variable {σ α β : Type}

instance : Monad (Kern σ) where
  pure a := fun s => .ok (a, s)
  bind x f := fun s =>
    match x s with
    | .ok (a, s') => f a s'
    | .error e => .error e

/-- The machine stops. -/
def panic (msg : String) : Kern σ α := fun _ => .error msg

def get : Kern σ σ := fun s => .ok (s, s)

def modify (f : σ → σ) : Kern σ Unit := fun s => .ok ((), f s)

/-- `x` if the condition holds, nothing otherwise. -/
def when (c : Prop) [Decidable c] (x : Kern σ Unit) : Kern σ Unit := if c then x else pure ()

/-- `x` for each element of the list, in order. -/
def forEach {ι : Type} : List ι → (ι → Kern σ Unit) → Kern σ Unit
  | [], _ => pure ()
  | i :: is, x => x i >>= fun _ => forEach is x

/-- Run a routine on a part of a larger state. -/
def zoom {τ : Type} (view : τ → σ) (put : τ → σ → τ) (x : Kern σ α) : Kern τ α := fun t =>
  match x (view t) with
  | .ok (a, s) => .ok (a, put t s)
  | .error e => .error e

variable {x : Kern σ α} {f : α → Kern σ β} {s t : σ} {a : α} {b : β}

/-! How a routine ends can be tested. -/

instance {msg : String} : Decidable (x s = .error msg) :=
  inferInstanceAs (Decidable (@Eq (Except String (α × σ)) (x s) (.error msg)))

instance {P : α → σ → Prop} [∀ a, DecidablePred (P a)] :
    Decidable (∃ a t, x s = .ok (a, t) ∧ P a t) :=
  decidable_of_iff (∃ r : α × σ, (x s : Except String (α × σ)) = .ok r ∧ P r.1 r.2) Prod.exists

@[simp] theorem pure_apply (a : α) (s : σ) : (pure a : Kern σ α) s = .ok (a, s) := rfl

@[simp] theorem panic_apply (msg : String) (s : σ) : (panic msg : Kern σ α) s = .error msg := rfl

@[simp] theorem get_apply (s : σ) : (get : Kern σ σ) s = .ok (s, s) := rfl

@[simp] theorem modify_apply (g : σ → σ) (s : σ) : modify g s = .ok ((), g s) := rfl

theorem bind_apply (x : Kern σ α) (f : α → Kern σ β) (s : σ) :
    (x >>= f) s = match x s with
      | .ok (a, s') => f a s'
      | .error e => .error e := rfl

theorem bind_of_ok (h : x s = .ok (a, t)) : (x >>= f) s = f a t := by
  simp [bind_apply, h]

theorem bind_of_error {e : String} (h : x s = .error e) : (x >>= f) s = .error e := by
  simp [bind_apply, h]

@[simp] theorem pure_bind_apply (a : α) (f : α → Kern σ β) (s : σ) :
    ((pure a : Kern σ α) >>= f) s = f a s := rfl

@[simp] theorem get_bind_apply (f : σ → Kern σ β) (s : σ) : (get >>= f) s = f s s := rfl

@[simp] theorem modify_bind_apply (g : σ → σ) (f : Unit → Kern σ β) (s : σ) :
    (modify g >>= f) s = f () (g s) := rfl

theorem when_pos {c : Prop} [Decidable c] {y : Kern σ Unit} (h : c) : when c y = y := if_pos h

theorem when_neg {c : Prop} [Decidable c] {y : Kern σ Unit} (h : ¬ c) : when c y = pure () :=
  if_neg h

/-- A bind that returned is a first part that returned and a rest that returned. -/
theorem bind_ok (h : (x >>= f) s = .ok (b, t)) : ∃ a u, x s = .ok (a, u) ∧ f a u = .ok (b, t) := by
  rw [bind_apply] at h
  split at h
  · exact ⟨_, _, ‹_›, h⟩
  · cases h

theorem ignore_ok (h : (x >>= fun _ => pure ()) s = .ok ((), t)) : ∃ a, x s = .ok (a, t) := by
  obtain ⟨a, u, hx, hu⟩ := bind_ok h
  cases hu
  exact ⟨a, hx⟩

theorem zoom_ok {τ : Type} {view : τ → σ} {put : τ → σ → τ} {r r' : τ}
    (h : zoom view put x r = .ok (a, r')) : ∃ u, x (view r) = .ok (a, u) ∧ r' = put r u := by
  unfold zoom at h
  split at h
  · cases h
    exact ⟨_, ‹_›, rfl⟩
  · cases h

/-- The routine comes to its end from `s`. -/
def Returns (x : Kern σ α) (s : σ) : Prop := ∃ a t, x s = .ok (a, t)

theorem Returns.pure (a : α) (s : σ) : Returns (Pure.pure a : Kern σ α) s := ⟨a, s, rfl⟩

theorem Returns.bind (h : x.Returns s) (hf : ∀ a t, x s = .ok (a, t) → (f a).Returns t) :
    Returns (x >>= f) s := by
  obtain ⟨a, t, ha⟩ := h
  obtain ⟨b, u, hb⟩ := hf a t ha
  exact ⟨b, u, by rw [bind_of_ok ha, hb]⟩

theorem Returns.when {c : Prop} [Decidable c] {y : Kern σ Unit} (h : y.Returns s) :
    (Kern.when c y).Returns s := by
  rw [Kern.when]
  split
  · exact h
  · exact .pure () s

theorem Returns.zoom {τ : Type} {view : τ → σ} {put : τ → σ → τ} {r : τ}
    (h : x.Returns (view r)) : (Kern.zoom view put x).Returns r := by
  obtain ⟨a, t, ha⟩ := h
  exact ⟨a, put r t, by simp [Kern.zoom, ha]⟩

/-- Whenever the routine returns, the states before and after it are related. -/
def Moves (R : σ → σ → Prop) (x : Kern σ α) : Prop := ∀ s a t, x s = .ok (a, t) → R s t

namespace Moves

variable {R : σ → σ → Prop}

theorem modify {g : σ → σ} (h : ∀ s, R s (g s)) : Moves R (Kern.modify g) := by
  intro s _ t hx
  cases hx
  exact h s

theorem panic (msg : String) : Moves R (Kern.panic msg : Kern σ α) := by
  intro s a t hx
  cases hx

variable [IsPreorder σ R]

theorem pure (a : α) : Moves R (Pure.pure a : Kern σ α) := by
  intro s b t hx
  cases hx
  exact refl_of R s

theorem get : Moves R (Kern.get : Kern σ σ) := by
  intro s a t hx
  cases hx
  exact refl_of R s

theorem bind (hx : Moves R x) (hf : ∀ a, Moves R (f a)) : Moves R (x >>= f) := by
  intro s b t h
  obtain ⟨a, u, ha, hb⟩ := bind_ok h
  exact trans_of R (hx s a u ha) (hf a u b t hb)

theorem when {c : Prop} [Decidable c] {y : Kern σ Unit} (h : Moves R y) :
    Moves R (Kern.when c y) := by
  rw [Kern.when]
  split
  · exact h
  · exact .pure ()

theorem of_eq (h : Moves Eq x) : Moves R x := by
  intro s a t hx
  cases h s a t hx
  exact refl_of R s

end Moves

/-- The routine never stops with the message `e`. -/
def Avoids (e : String) (x : Kern σ α) : Prop := ∀ s, x s ≠ .error e

namespace Avoids

variable {e : String}

theorem pure (a : α) : Avoids e (Pure.pure a : Kern σ α) := fun s h => by cases h

theorem get : Avoids e (Kern.get : Kern σ σ) := fun s h => by cases h

theorem modify (g : σ → σ) : Avoids e (Kern.modify g) := fun s h => by cases h

theorem panic {msg : String} (h : msg ≠ e) : Avoids e (Kern.panic msg : Kern σ α) := by
  intro s hs
  exact h (Except.error.inj hs)

theorem bind (hx : Avoids e x) (hf : ∀ a, Avoids e (f a)) : Avoids e (x >>= f) := by
  intro s h
  rw [bind_apply] at h
  split at h
  · exact hf _ _ h
  · rename_i e' he
    cases h
    exact hx s he

theorem when {c : Prop} [Decidable c] {y : Kern σ Unit} (h : Avoids e y) :
    Avoids e (Kern.when c y) := by
  rw [Kern.when]
  split
  · exact h
  · exact .pure ()

theorem zoom {τ : Type} {view : τ → σ} {put : τ → σ → τ} (h : Avoids e x) :
    Avoids e (Kern.zoom view put x) := by
  intro r hr
  rw [Kern.zoom] at hr
  split at hr
  · cases hr
  · rename_i e' he
    cases hr
    exact h _ he

end Avoids

/-- Both for the messages other than `msg`. -/
def Calm (R : σ → σ → Prop) (msg : String) (x : Kern σ α) : Prop :=
  Moves R x ∧ ∀ e, e ≠ msg → Avoids e x

namespace Calm

variable {R : σ → σ → Prop} {msg : String}

theorem panic : Calm R msg (Kern.panic msg : Kern σ α) :=
  ⟨.panic msg, fun _ he => .panic he.symm⟩

theorem modify {g : σ → σ} (h : ∀ s, R s (g s)) : Calm R msg (Kern.modify g) :=
  ⟨.modify h, fun _ _ => .modify g⟩

variable [IsPreorder σ R]

theorem pure (a : α) : Calm R msg (Pure.pure a : Kern σ α) := ⟨.pure a, fun _ _ => .pure a⟩

theorem get : Calm R msg (Kern.get : Kern σ σ) := ⟨.get, fun _ _ => .get⟩

theorem bind (hx : Calm R msg x) (hf : ∀ a, Calm R msg (f a)) : Calm R msg (x >>= f) :=
  ⟨.bind hx.1 fun a => (hf a).1, fun e he => .bind (hx.2 e he) fun a => (hf a).2 e he⟩

theorem when {c : Prop} [Decidable c] {y : Kern σ Unit} (h : Calm R msg y) :
    Calm R msg (Kern.when c y) :=
  ⟨.when h.1, fun e he => .when (h.2 e he)⟩

end Calm

end Kern

end Yyds.Lib
