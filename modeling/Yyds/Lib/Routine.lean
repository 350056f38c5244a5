import Yyds.Lib.Kern

/-! Routines that read and write a memory of bytes which is not their own, piece by piece: a copy
may fail, and the routine decides what to do then. -/
namespace Yyds.Lib

/-- A routine that returns an `α`. A read hands over the bytes, or `none`; a write tells
whether it has worked. -/
inductive Routine (β α : Type)
  | done (a : α)
  | load (va len : Nat) (k : Option (List β) → Routine β α)
  | store (va : Nat) (bs : List β) (k : Bool → Routine β α)

namespace Routine

variable {β α γ σ : Type}

def bind : Routine β α → (α → Routine β γ) → Routine β γ
  | done a, f => f a
  | load va len k, f => load va len fun r => (k r).bind f
  | store va bs k, f => store va bs fun ok => (k ok).bind f

instance : Monad (Routine β) where
  pure := done
  bind := bind

/-! ### On plain memory -/

/-- The bytes from `va` on. -/
def get (m : Nat → β) (va len : Nat) : List β := (List.range len).map fun i => m (va + i)

/-- The memory with `bs` from `va` on. -/
def put (m : Nat → β) (va : Nat) (bs : List β) : Nat → β := fun a =>
  if va ≤ a then (bs[a - va]?).getD (m a) else m a

/-- The routine on a memory where every copy works. -/
def run : Routine β α → (Nat → β) → α × (Nat → β)
  | done a, m => (a, m)
  | load va len k, m => (k (some (get m va len))).run m
  | store va bs k, m => (k true).run (put m va bs)

/-- Whatever it is told, the routine touches only addresses from `lo` up to `hi`. -/
def Within (lo hi : Nat) : Routine β α → Prop
  | done _ => True
  | load va len k => (lo ≤ va ∧ va + len ≤ hi) ∧ ∀ r, (k r).Within lo hi
  | store va bs k => (lo ≤ va ∧ va + bs.length ≤ hi) ∧ ∀ ok, (k ok).Within lo hi

theorem Within.bind {lo hi : Nat} {x : Routine β α} {f : α → Routine β γ} (hx : x.Within lo hi)
    (hf : ∀ a, (f a).Within lo hi := by exact fun _ => trivial) : (x.bind f).Within lo hi := by
  induction x with
  | done a => exact hf a
  | load va len k ih => exact ⟨hx.1, fun r => ih r (hx.2 r)⟩
  | store va bs k ih => exact ⟨hx.1, fun ok => ih ok (hx.2 ok)⟩

/-- No store. -/
def Loads : Routine β α → Prop
  | done _ => True
  | load _ _ k => ∀ r, (k r).Loads
  | store _ _ _ => False

theorem Loads.bind {x : Routine β α} {f : α → Routine β γ} (hx : x.Loads) (hf : ∀ a, (f a).Loads) :
    (x.bind f).Loads := by
  induction x with
  | done a => exact hf a
  | load va len k ih => exact fun r => ih r (hx r)
  | store va bs k => exact hx.elim

theorem run_bind_done (x : Routine β α) (f : α → γ) (m : Nat → β) :
    (x.bind fun a => .done (f a)).run m = (f (x.run m).1, (x.run m).2) := by
  induction x generalizing m with
  | done a => rfl
  | load va len k ih => exact ih _ m
  | store va bs k ih => exact ih _ _

theorem put_nil (m : Nat → β) (va : Nat) : put m va [] = m := by
  funext a
  simp [put]

theorem put_append (m : Nat → β) (va : Nat) (bs cs : List β) :
    put (put m va bs) (va + bs.length) cs = put m va (bs ++ cs) := by
  funext a
  simp only [put]
  by_cases h : va + bs.length ≤ a
  · rw [if_pos h, if_pos (by omega), if_pos (by omega),
      List.getElem?_append_right (by omega), List.getElem?_eq_none (by omega : bs.length ≤ a - va),
      Option.getD_none, show a - va - bs.length = a - (va + bs.length) by omega]
  · rw [if_neg h]
    by_cases hva : va ≤ a
    · rw [if_pos hva, if_pos hva, List.getElem?_append_left (by omega)]
    · rw [if_neg hva, if_neg hva]

theorem get_add (m : Nat → β) (va j k : Nat) : get m va (j + k) = get m va j ++ get m (va + j) k := by
  simp only [get, List.range_add, List.map_append, List.map_map]
  congr 1
  refine List.map_congr_left fun i _ => ?_
  simp [Nat.add_assoc]

/-! ### On a machine -/

/-- How a machine copies from and to the memory. -/
structure Ops (σ β : Type) where
  load : Nat → Nat → Kern σ (Option (List β))
  store : Nat → List β → Kern σ Bool

def exec (ops : Ops σ β) : Routine β α → Kern σ α
  | done a => pure a
  | load va len k => do
    let r ← ops.load va len
    (k r).exec ops
  | store va bs k => do
    let ok ← ops.store va bs
    (k ok).exec ops

/-- Between `lo` and `hi` the machine copies as if its memory were `vis`, as long as it is not
`Bad`, from which it does not recover. -/
structure Ops.Refines (ops : Ops σ β) (lo hi : Nat) (vis : σ → Nat → β) (Good Bad : σ → Prop) :
    Prop where
  load : ∀ s va len, Good s → lo ≤ va → va + len ≤ hi →
    ops.load va len s = .ok (some (get (vis s) va len), s)
  store : ∀ s va bs, Good s → lo ≤ va → va + bs.length ≤ hi →
    ∃ ok s', ops.store va bs s = .ok (ok, s') ∧ Good s' ∧ (Bad s → Bad s') ∧
      (¬ Bad s' → ok = true ∧ vis s' = put (vis s) va bs)

/-- A routine does on the machine what it does on plain memory. -/
theorem exec_run {ops : Ops σ β} {lo hi : Nat} {vis : σ → Nat → β} {Good Bad : σ → Prop}
    (R : ops.Refines lo hi vis Good Bad) {x : Routine β α} (hx : x.Within lo hi) {s : σ}
    (hs : Good s) : ∃ a s', x.exec ops s = .ok (a, s') ∧ Good s' ∧ (Bad s → Bad s') ∧
      (¬ Bad s' → x.run (vis s) = (a, vis s')) := by
  induction x generalizing s with
  | done a => exact ⟨a, s, rfl, hs, id, fun _ => rfl⟩
  | load va len k ih =>
    obtain ⟨⟨hlo, hhi⟩, hk⟩ := hx
    obtain ⟨a, s', hrun, hg, hb, heq⟩ := ih _ (hk (some (get (vis s) va len))) hs
    refine ⟨a, s', ?_, hg, hb, heq⟩
    rw [exec, Kern.bind_of_ok (R.load s va len hs hlo hhi)]
    exact hrun
  | store va bs k ih =>
    obtain ⟨⟨hlo, hhi⟩, hk⟩ := hx
    obtain ⟨ok, s1, hst, hg1, hb1, heq1⟩ := R.store s va bs hs hlo hhi
    obtain ⟨a, s', hrun, hg, hb, heq⟩ := ih ok (hk ok) hg1
    refine ⟨a, s', ?_, hg, fun h => hb (hb1 h), fun hno => ?_⟩
    · rw [exec, Kern.bind_of_ok hst]
      exact hrun
    · obtain ⟨rfl, hvis⟩ := heq1 fun h => hno (hb h)
      rw [run, ← hvis]
      exact heq hno

end Routine

end Yyds.Lib
