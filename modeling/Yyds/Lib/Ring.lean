import Mathlib

/-! Ring buffers with free-running indices: `N` places, and indices modulo a multiple `M` of `N`. -/
namespace Yyds.Lib.Ring

open Function

variable {α : Type*} {buf : Nat → α} {N M r w : Nat} {l l' : List α} {c : α}

/-- How far `w` is ahead of `r`. -/
def gap (M r w : Nat) : Nat := (w + M - r) % M

/-- What lies from `r` up to `w`. -/
def content (buf : Nat → α) (N M r w : Nat) : List α :=
  (List.range (gap M r w)).map fun k => buf ((r + k) % M % N)

/-- The places from `r` on, up to `w`, hold `l`. -/
structure Holds (buf : Nat → α) (N M r w : Nat) (l : List α) : Prop where
  lt : r < M
  last : w = (r + l.length) % M
  get : ∀ k (hk : k < l.length), buf ((r + k) % N) = l[k]

theorem gap_add {n : Nat} (hr : r < M) (hn : n < M) : gap M r ((r + n) % M) = n := by
  rw [gap]
  rcases Nat.lt_or_ge (r + n) M with h | h
  · rw [Nat.mod_eq_of_lt h, Nat.add_assoc, Nat.add_sub_cancel_left, Nat.add_mod_right,
      Nat.mod_eq_of_lt hn]
  · have hlt : r + n - M < M := by omega
    rw [Nat.mod_eq_sub_mod h, Nat.mod_eq_of_lt hlt, Nat.sub_add_cancel h, Nat.add_sub_cancel_left,
      Nat.mod_eq_of_lt hn]

namespace Holds

theorem nil (buf : Nat → α) (N : Nat) (hr : r < M) : Holds buf N M r r [] :=
  ⟨hr, (Nat.mod_eq_of_lt hr).symm, fun _ hk => absurd hk (Nat.not_lt_zero _)⟩

section
variable (h : Holds buf N M r w l)
include h

theorem gap_eq (hl : l.length < M) : gap M r w = l.length := by
  rw [h.last]
  exact gap_add h.lt hl

theorem eq_iff (hl : l.length < M) : r = w ↔ l = [] := by
  constructor
  · rintro rfl
    have hgap := h.gap_eq hl
    rw [gap, Nat.add_sub_cancel_left, Nat.mod_self] at hgap
    exact List.length_eq_zero_iff.mp hgap.symm
  · rintro rfl
    rw [h.last, List.length_nil, Nat.add_zero, Nat.mod_eq_of_lt h.lt]

variable (hN : N ∣ M)
include hN

theorem content_eq (hl : l.length < M) : content buf N M r w = l := by
  rw [content, h.gap_eq hl]
  refine List.ext_getElem (by simp) fun k _ hk => ?_
  rw [List.getElem_map, List.getElem_range, Nat.mod_mod_of_dvd _ hN, h.get k hk]

theorem push (hl : l.length < N) :
    Holds (update buf (w % N) c) N M r ((w + 1) % M) (l ++ [c]) := by
  have hw : w % N = (r + l.length) % N := by
    rw [h.last, Nat.mod_mod_of_dvd _ hN]
  refine ⟨h.lt, by simp [h.last, Nat.add_assoc], fun k hk => ?_⟩
  rw [List.length_append, List.length_singleton, Nat.lt_succ_iff_lt_or_eq] at hk
  rcases hk with hk | rfl
  · rw [List.getElem_append_left hk, ← h.get k hk, hw]
    refine update_of_ne (fun he => ?_) _ _
    have := (Nat.ModEq.add_left_cancel' r he).eq_of_lt_of_lt (Nat.lt_trans hk hl) hl
    exact absurd this (Nat.ne_of_lt hk)
  · rw [← hw, update_self, List.getElem_concat_length rfl]

end

theorem head (h : Holds buf N M r w (c :: l)) : buf (r % N) = c := h.get 0 (Nat.succ_pos _)

theorem pop (h : Holds buf N M r w (c :: l)) (hN : N ∣ M) :
    Holds buf N M ((r + 1) % M) w l := by
  refine ⟨Nat.mod_lt _ (Nat.zero_lt_of_lt h.lt), ?_, fun k hk => ?_⟩
  · rw [h.last, Nat.mod_add_mod, List.length_cons, Nat.add_right_comm, Nat.add_assoc]
  · rw [Nat.add_mod, Nat.mod_mod_of_dvd _ hN, ← Nat.add_mod, Nat.add_right_comm]
    exact h.get (k + 1) (Nat.succ_lt_succ hk)

theorem take (h : Holds buf N M r w (l ++ l')) : Holds buf N M r ((r + l.length) % M) l := by
  refine ⟨h.lt, rfl, fun k hk => ?_⟩
  rw [h.get k (by simp; omega), List.getElem_append_left hk]

theorem unpush (h : Holds buf N M r w (l ++ [c])) : Holds buf N M r ((w + M - 1) % M) l := by
  have hlast : (w + M - 1) % M = (r + l.length) % M := by
    have hM := Nat.zero_lt_of_lt h.lt
    rw [h.last, Nat.add_sub_assoc hM, Nat.mod_add_mod, List.length_append, List.length_singleton,
      show r + (l.length + 1) + (M - 1) = r + l.length + M by omega, Nat.add_mod_right]
  rw [hlast]
  exact h.take

end Holds

end Yyds.Lib.Ring
