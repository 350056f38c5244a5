import Mathlib

/-! Counting the places that refer to an object. `f x = some a` says that place `x` refers
to `a`. -/
namespace Yyds.Lib

variable {S A B : Type*} [Fintype S] [DecidableEq A] {f g : S → Option A} {a : A} {x y : S}

/-- How many places refer to `a`. -/
def refs (f : S → Option A) (a : A) : Nat := (Finset.univ.filter fun x => f x = some a).card

theorem refs_eq_zero : refs f a = 0 ↔ ∀ x, f x ≠ some a := by
  simp [refs, Finset.card_eq_zero, Finset.filter_eq_empty_iff]

theorem refs_congr (h : ∀ x, f x = some a ↔ g x = some a) : refs f a = refs g a := by
  rw [refs, refs, Finset.filter_congr fun x _ => h x]

theorem refs_pos (h : f x = some a) : 0 < refs f a := by
  refine Nat.pos_of_ne_zero ?_
  intro h0
  exact refs_eq_zero.mp h0 x h

theorem eq_of_refs_eq_one (h : refs f a = 1) (hx : f x = some a) (hy : f y = some a) : x = y := by
  obtain ⟨z, hz⟩ := Finset.card_eq_one.mp h
  have hmem : ∀ w, f w = some a → w = z := by
    intro w hw
    have : w ∈ Finset.univ.filter fun x => f x = some a := by simp [hw]
    rw [hz] at this
    exact Finset.mem_singleton.mp this
  rw [hmem x hx, hmem y hy]

/-- The places that refer to `a` are no more than the things they can be told apart by. -/
theorem refs_le [Fintype B] (k : S → B)
    (hk : ∀ x y, f x = some a → f y = some a → k x = k y → x = y) : refs f a ≤ Fintype.card B := by
  refine Finset.card_le_card_of_injOn k (fun _ _ => Finset.mem_univ _) ?_
  intro x hx y hy he
  simp only [Finset.coe_filter, Finset.mem_univ, true_and, Set.mem_ofPred_eq] at hx hy
  exact hk x y hx hy he

theorem refs_comp (e : S ≃ S) (f : S → Option A) (a : A) : refs (f ∘ e) a = refs f a := by
  refine Finset.card_bij (fun x _ => e x) ?_ ?_ ?_
  · simp
  · intro x _ y _ hxy
    exact e.injective hxy
  · intro y hy
    exact ⟨e.symm y, by simpa using hy, e.apply_symm_apply y⟩

variable [DecidableEq S]

/-- Places that referred to `b` now refer to `a`. -/
theorem refs_merge {b : A} (hab : a ≠ b) (h : ∀ x, g x = some a ↔ f x = some a ∨ f x = some b) :
    refs g a = refs f a + refs f b := by
  rw [refs, Finset.filter_congr fun x _ => h x, Finset.filter_or]
  refine Finset.card_union_of_disjoint ?_
  refine Finset.disjoint_filter.mpr ?_
  intro x _ ha hb
  exact hab (Option.some.inj (ha.symm.trans hb))

theorem refs_update (f : S → Option A) (x : S) (v : Option A) (a : A) :
    refs (Function.update f x v) a + (if f x = some a then 1 else 0) =
      refs f a + (if v = some a then 1 else 0) := by
  have hsplit : ∀ g : S → Option A, refs g a =
      ((Finset.univ.erase x).filter fun y => g y = some a).card + if g x = some a then 1 else 0 := by
    intro g
    rw [refs, ← Finset.insert_erase (Finset.mem_univ x), Finset.filter_insert]
    by_cases hx : g x = some a
    · rw [if_pos hx, if_pos hx]
      simp
    · rw [if_neg hx, if_neg hx]
      simp
  have hsame : ((Finset.univ.erase x).filter fun y => Function.update f x v y = some a) =
      (Finset.univ.erase x).filter fun y => f y = some a := by
    refine Finset.filter_congr ?_
    intro y hy
    rw [Function.update_of_ne (Finset.ne_of_mem_erase hy)]
  rw [hsplit (Function.update f x v), hsplit f, hsame, Function.update_self]
  omega

end Yyds.Lib
