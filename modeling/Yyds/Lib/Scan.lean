import Mathlib

/-! A loop over a table that keeps the best candidate so far, and a loop that stops at the first. -/
namespace Yyds.Lib

variable {α κ : Type*} [LinearOrder κ] (c : α → Prop) [DecidablePred c] (k : α → κ)

/-- One round of the loop: a candidate whose key is below the best key replaces the best. -/
def scanStep (best : Option α × κ) (a : α) : Option α × κ :=
  if c a ∧ k a < best.2 then (some a, k a) else best

/-- The candidate that is left, if one had a key below `bound`. -/
def scanMin (bound : κ) (xs : List α) : Option α :=
  (xs.foldl (scanStep c k) (none, bound)).1

variable {c k}

theorem foldl_scanStep_le (best : Option α × κ) (xs : List α) :
    (xs.foldl (scanStep c k) best).2 ≤ best.2 ∧
    ∀ a ∈ xs, c a → (xs.foldl (scanStep c k) best).2 ≤ k a := by
  induction xs generalizing best with
  | nil => exact ⟨le_rfl, fun a ha => absurd ha (by simp)⟩
  | cons b xs ih =>
    obtain ⟨hbest, hrest⟩ := ih (scanStep c k best b)
    have hstep : (scanStep c k best b).2 ≤ best.2 ∧ (c b → (scanStep c k best b).2 ≤ k b) := by
      unfold scanStep
      split
      · rename_i h
        exact ⟨h.2.le, fun _ => le_rfl⟩
      · rename_i h
        exact ⟨le_rfl, fun hb => not_lt.mp fun hlt => h ⟨hb, hlt⟩⟩
    refine ⟨hbest.trans hstep.1, fun a ha hc => ?_⟩
    rcases List.mem_cons.mp ha with rfl | ha
    · exact hbest.trans (hstep.2 hc)
    · exact hrest a ha hc

/-- What is kept is the start, or a candidate that was better than the start. -/
theorem foldl_scanStep_cases (best : Option α × κ) (xs : List α) :
    xs.foldl (scanStep c k) best = best ∨
    ∃ a ∈ xs, c a ∧ k a < best.2 ∧ xs.foldl (scanStep c k) best = (some a, k a) := by
  induction xs generalizing best with
  | nil => exact .inl rfl
  | cons b xs ih =>
    by_cases hb : c b ∧ k b < best.2
    · have hstep : scanStep c k best b = (some b, k b) := if_pos hb
      rw [List.foldl_cons, hstep]
      rcases ih (some b, k b) with hkeep | ⟨a, ha, hc, hlt, heq⟩
      · exact .inr ⟨b, List.mem_cons_self, hb.1, hb.2, hkeep⟩
      · exact .inr ⟨a, List.mem_cons_of_mem _ ha, hc, hlt.trans hb.2, heq⟩
    · have hstep : scanStep c k best b = best := if_neg hb
      rw [List.foldl_cons, hstep]
      rcases ih best with hkeep | ⟨a, ha, hrest⟩
      · exact .inl hkeep
      · exact .inr ⟨a, List.mem_cons_of_mem _ ha, hrest⟩

theorem scanMin_some {bound : κ} {xs : List α} {a : α} (h : scanMin c k bound xs = some a) :
    c a ∧ k a < bound ∧ ∀ b ∈ xs, c b → k a ≤ k b := by
  unfold scanMin at h
  rcases foldl_scanStep_cases (c := c) (none, bound) xs with hkeep | ⟨b, _, hc, hlt, heq⟩
  · rw [hkeep] at h
    exact absurd h (by simp)
  · rw [heq] at h
    cases h
    refine ⟨hc, hlt, fun b hb hcb => ?_⟩
    have hle := (foldl_scanStep_le (k := k) (none, bound) xs).2 b hb hcb
    rwa [heq] at hle

theorem scanMin_none {bound : κ} {xs : List α} (h : scanMin c k bound xs = none) {a : α}
    (ha : a ∈ xs) (hc : c a) : bound ≤ k a := by
  unfold scanMin at h
  rcases foldl_scanStep_cases (c := c) (none, bound) xs with hkeep | ⟨b, _, _, _, heq⟩
  · have hle := (foldl_scanStep_le (k := k) (none, bound) xs).2 a ha hc
    rwa [hkeep] at hle
  · rw [heq] at h
    exact absurd h (by simp)

theorem findSome?_range_some {β : Type*} {f : Nat → Option β} {n : Nat} {b : β}
    (h : (List.range n).findSome? f = some b) : ∃ i < n, f i = some b ∧ ∀ j < i, f j = none := by
  induction n with
  | zero => exact absurd h (by simp)
  | succ n ih =>
    rw [List.range_succ, List.findSome?_append, Option.or_eq_some_iff] at h
    rcases h with h | ⟨hnone, h⟩
    · obtain ⟨i, hi, hfi, hlt⟩ := ih h
      exact ⟨i, by omega, hfi, hlt⟩
    · rw [List.findSome?_eq_none_iff] at hnone
      refine ⟨n, by omega, ?_, fun j hj => hnone j (List.mem_range.mpr hj)⟩
      simpa using h

theorem find?_finRange_some {n : Nat} {f : Fin n → Bool} {p : Fin n} :
    (List.finRange n).find? f = some p ↔ f p = true ∧ ∀ q < p, f q = false := by
  rw [List.find?_eq_some_iff_getElem]
  refine and_congr_right fun _ => ?_
  simp only [List.getElem_finRange, Bool.not_eq_true']
  constructor
  · rintro ⟨i, hi, rfl, hlt⟩ q hq
    exact hlt q.1 hq
  · intro hlt
    exact ⟨p.1, by simp, by simp, fun j hj => hlt ⟨j, by omega⟩ hj⟩

/-! ### The chosen places of a table, in order -/

section Filter

variable {n : Nat} {f g : Fin n → Bool} {i : Fin n}

theorem finRange_split (i : Fin n) : ∃ l r, List.finRange n = l ++ i :: r ∧
    (∀ j ∈ l, j < i) ∧ ∀ j ∈ r, i < j := by
  obtain ⟨l, r, he⟩ := List.append_of_mem (List.mem_finRange i)
  have hs := List.pairwise_lt_finRange n
  rw [he, List.pairwise_append] at hs
  refine ⟨l, r, he, fun j hj => hs.2.2 j hj i (by simp), ?_⟩
  exact fun j hj => (List.pairwise_cons.mp hs.2.1).1 j hj

/-- One more place is chosen, and all others come before it. -/
theorem filter_finRange_snoc (hi : f i = false) (hi' : g i = true) (hlast : ∀ j, f j = true → j < i)
    (he : ∀ j, j ≠ i → g j = f j) :
    (List.finRange n).filter g = (List.finRange n).filter f ++ [i] := by
  obtain ⟨l, r, hlr, hl, hr⟩ := finRange_split i
  have hleft : l.filter g = l.filter f := List.filter_congr fun j hj => he j (hl j hj).ne
  have hf : r.filter f = [] := by
    refine List.filter_eq_nil_iff.mpr fun j hj hfj => ?_
    exact lt_asymm (hr j hj) (hlast j hfj)
  have hg : r.filter g = [] := by
    rw [← hf]
    exact List.filter_congr fun j hj => he j (hr j hj).ne'
  simp [hlr, hleft, hf, hg, hi, hi']

theorem filter_finRange_cons (hi : f i = true) (hi' : g i = false) (hfirst : ∀ j < i, f j = false)
    (he : ∀ j, j ≠ i → g j = f j) :
    (List.finRange n).filter f = i :: (List.finRange n).filter g := by
  obtain ⟨l, r, hlr, hl, hr⟩ := finRange_split i
  have hf : l.filter f = [] :=
    List.filter_eq_nil_iff.mpr fun j hj hfj => by simp [hfirst j (hl j hj)] at hfj
  have hg : l.filter g = [] := by
    rw [← hf]
    exact List.filter_congr fun j hj => he j (hl j hj).ne
  have hright : r.filter g = r.filter f := List.filter_congr fun j hj => he j (hr j hj).ne'
  simp [hlr, hright, hf, hg, hi, hi']

end Filter

/-! ### The place of an element in a finite set -/

section Rank

variable {α : Type*} [LinearOrder α] {P : Finset α} {p q : α}

/-- How many elements of `P` come before `p`. -/
def rank (P : Finset α) (p : α) : Nat := (P.filter (· < p)).card

theorem rank_lt_rank (hp : p ∈ P) (h : p < q) : rank P p < rank P q := by
  apply Finset.card_lt_card
  refine Finset.ssubset_iff_subset_ne.mpr ⟨?_, fun heq => ?_⟩
  · exact Finset.monotone_filter_right P fun x _ hx => lt_trans hx h
  · have hmem : p ∈ P.filter (· < q) := Finset.mem_filter.mpr ⟨hp, h⟩
    rw [← heq] at hmem
    exact lt_irrefl p (Finset.mem_filter.mp hmem).2

theorem rank_lt_card (hp : p ∈ P) : rank P p < P.card := by
  apply Finset.card_lt_card
  refine Finset.filter_ssubset.mpr ⟨p, hp, lt_irrefl p⟩

theorem eq_of_rank_eq (hp : p ∈ P) (hq : q ∈ P) (h : rank P p = rank P q) : p = q := by
  rcases lt_trichotomy p q with hlt | heq | hlt
  · exact absurd h (rank_lt_rank hp hlt).ne
  · exact heq
  · exact absurd h (rank_lt_rank hq hlt).ne'

theorem exists_rank {i : Nat} (h : i < P.card) : ∃ p ∈ P, rank P p = i := by
  let f := P.orderEmbOfFin rfl
  refine ⟨f ⟨i, h⟩, P.orderEmbOfFin_mem rfl _, ?_⟩
  have hbelow : P.filter (· < f ⟨i, h⟩) = (Finset.Iio (⟨i, h⟩ : Fin P.card)).map f.toEmbedding := by
    ext x
    simp only [Finset.mem_filter, Finset.mem_map, Finset.mem_Iio]
    constructor
    · rintro ⟨hx, hlt⟩
      obtain ⟨j, rfl⟩ : x ∈ Set.range f := by rw [P.range_orderEmbOfFin rfl]; exact hx
      exact ⟨j, f.lt_iff_lt.mp hlt, rfl⟩
    · rintro ⟨j, hj, rfl⟩
      exact ⟨P.orderEmbOfFin_mem rfl j, f.lt_iff_lt.mpr hj⟩
  rw [rank, hbelow, Finset.card_map, Fin.card_Iio]

end Rank

end Yyds.Lib
