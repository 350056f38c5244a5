import Yyds.Lib.Run

/-! Token buckets: what is taken out in a window of time is at most the size of the bucket and
what flows in during the window. -/
namespace Yyds.Lib

/-- What is in a bucket, and when it was last filled up. -/
structure Level where
  tokens : Nat
  last : Nat

/-- The bucket is filled up at `now`. -/
def Level.fill (B R D now : Nat) (s : Level) : Level :=
  ⟨min B (s.tokens + (now - s.last) * R / D), now⟩

/-- If whole tokens flow in, it does not matter whether the bucket was filled up on the way. -/
theorem Level.fill_fill {B R D a b : Nat} {s : Level} (hR : D ∣ R) (ha : s.last ≤ a) (hb : a ≤ b) :
    (s.fill B R D a).fill B R D b = s.fill B R D b := by
  obtain ⟨c, rfl⟩ := hR
  have hflow (n : Nat) : n * (D * c) / D = n * (D * c / D) := Nat.mul_div_assoc n ⟨c, rfl⟩
  have hsum : (b - s.last) * (D * c / D) = (a - s.last) * (D * c / D) + (b - a) * (D * c / D) := by
    rw [← Nat.add_mul]
    congr 1
    omega
  simp only [Level.fill, hflow, hsum]
  congr 1
  omega

/-- `spent` tokens are taken at `now`. Up to `R` tokens flow in every `D` ticks, but there are
never more than `B` in the bucket. When the clock has gone back only the size bounds the filling. -/
structure Take (B R D : Nat) (s : Level) (now spent : Nat) (t : Level) : Prop where
  last : t.last = now
  size : t.tokens + spent ≤ B
  rate : s.last ≤ now → t.tokens + spent ≤ s.tokens + (now - s.last) * R / D

/-- At each time tokens are taken, or nothing is done to the bucket. -/
inductive BucketStep (B R D : Nat) (s : Level) : Nat × Option Nat → Level → Prop
  | idle (now : Nat) : BucketStep B R D s (now, none) s
  | take {now spent : Nat} {t : Level} :
      Take B R D s now spent t → BucketStep B R D s (now, some spent) t

/-- What is taken from `t₁` to `t₂`. -/
def spentIn (t₁ t₂ : Nat) : List (Nat × Option Nat) → Nat
  | [] => 0
  | a :: as => (if t₁ ≤ a.1 ∧ a.1 ≤ t₂ then a.2.getD 0 else 0) + spentIn t₁ t₂ as

variable {B R D t₁ t₂ : Nat} {s t : Level} {as : List (Nat × Option Nat)}

theorem spentIn_eq_zero (h : ∀ a ∈ as, t₂ < a.1) : spentIn t₁ t₂ as = 0 := by
  induction as with
  | nil => rfl
  | cons a as ih =>
    have ha := h a (by simp)
    have hout : ¬ (t₁ ≤ a.1 ∧ a.1 ≤ t₂) := by omega
    rw [spentIn, if_neg hout, ih fun b hb => h b (by simp [hb])]

/-- What flows in from `a` to `b` and from `b` to `c` is what can flow in from `a` to `c`. -/
theorem inflow_add {a b c : Nat} (hab : a ≤ b) (hbc : b ≤ c) :
    (b - a) * R / D + (c - b) * R / D ≤ (c - a) * R / D := by
  have hsum : (b - a) * R + (c - b) * R = (c - a) * R := by
    rw [← Nat.add_mul]
    congr 1
    omega
  rw [← hsum]
  exact Nat.div_add_div_le_add_div

/-- From a filling inside the window on, the level bounds what can still be taken. -/
theorem spentIn_le_of_level (h : Run (BucketStep B R D) s as t)
    (hsorted : (as.map Prod.fst).Pairwise (· ≤ ·)) (hlast : ∀ a ∈ as, s.last ≤ a.1)
    (hs : s.last ≤ t₂) : spentIn t₁ t₂ as ≤ s.tokens + (t₂ - s.last) * R / D := by
  induction h with
  | nil s => exact Nat.zero_le _
  | @cons s u t a as hstep hrun ih =>
    rw [List.map_cons, List.pairwise_cons] at hsorted
    have hlater : ∀ b ∈ as, a.1 ≤ b.1 := fun b hb => hsorted.1 _ (List.mem_map_of_mem hb)
    cases hstep with
    | idle now =>
      have hrest := ih hsorted.2 (fun b hb => hlast b (by simp [hb])) hs
      simpa [spentIn] using hrest
    | @take now spent _ htake =>
      have hnow : s.last ≤ now := hlast (now, some spent) (by simp)
      by_cases hin : now ≤ t₂
      · have hrest := ih hsorted.2 (fun b hb => by rw [htake.last]; exact hlater b hb)
          (by rw [htake.last]; exact hin)
        have hrate := htake.rate hnow
        have hflow := inflow_add (R := R) (D := D) hnow hin
        rw [htake.last] at hrest
        have hspent : (if t₁ ≤ now ∧ now ≤ t₂ then spent else 0) ≤ spent := by split <;> omega
        change (if t₁ ≤ now ∧ now ≤ t₂ then spent else 0) + spentIn t₁ t₂ as ≤ _
        omega
      · have hzero : spentIn t₁ t₂ ((now, some spent) :: as) = 0 := by
          refine spentIn_eq_zero fun b hb => ?_
          rcases List.mem_cons.mp hb with rfl | hb
          · exact not_le.mp hin
          · exact lt_of_lt_of_le (not_le.mp hin) (hlater b hb)
        rw [hzero]
        exact Nat.zero_le _

/-- The rate bound: in every window, whatever was in the bucket before. -/
theorem spentIn_le (h : Run (BucketStep B R D) s as t)
    (hsorted : (as.map Prod.fst).Pairwise (· ≤ ·)) : spentIn t₁ t₂ as ≤ B + (t₂ - t₁) * R / D := by
  induction h with
  | nil s => exact Nat.zero_le _
  | @cons s u t a as hstep hrun ih =>
    rw [List.map_cons, List.pairwise_cons] at hsorted
    have hlater : ∀ b ∈ as, a.1 ≤ b.1 := fun b hb => hsorted.1 _ (List.mem_map_of_mem hb)
    cases hstep with
    | idle now =>
      have hrest := ih hsorted.2
      simpa [spentIn] using hrest
    | @take now spent _ htake =>
      by_cases hin : t₁ ≤ now ∧ now ≤ t₂
      -- the first filling inside the window
      · have hrest : spentIn t₁ t₂ as ≤ u.tokens + (t₂ - u.last) * R / D :=
          spentIn_le_of_level hrun hsorted.2 (fun b hb => by rw [htake.last]; exact hlater b hb)
            (by rw [htake.last]; exact hin.2)
        have hsize := htake.size
        have hflow : (t₂ - now) * R / D ≤ (t₂ - t₁) * R / D :=
          (Nat.le_add_left _ _).trans (inflow_add hin.1 hin.2)
        rw [htake.last] at hrest
        rw [spentIn, if_pos hin, Option.getD_some]
        omega
      · rw [spentIn, if_neg hin, Nat.zero_add]
        exact ih hsorted.2

end Yyds.Lib
