import Mathlib

/-! Numbers in little-endian order in a byte-addressed memory. -/
namespace Yyds.Lib

abbrev Bytes := Nat → BitVec 8

namespace Bytes

/-- The number in the `n` bytes from `a` on. -/
def load (m : Bytes) (a : Nat) : Nat → Nat
  | 0 => 0
  | n + 1 => (m a).toNat + 256 * load m (a + 1) n

def store (m : Bytes) (a n v : Nat) : Bytes := fun j =>
  if a ≤ j ∧ j < a + n then BitVec.ofNat 8 (v / 256 ^ (j - a)) else m j

/-- The `n` bytes from `src` on are copied to `dst`, as if they were all read first. -/
def move (m : Bytes) (dst src n : Nat) : Bytes := fun j =>
  if dst ≤ j ∧ j < dst + n then m (src + (j - dst)) else m j

def get (m : Bytes) (a n : Nat) : List (BitVec 8) := (List.range n).map fun i => m (a + i)

def put (m : Bytes) (a : Nat) (bs : List (BitVec 8)) : Bytes := fun j =>
  if a ≤ j then bs.getD (j - a) (m j) else m j

variable {m m' : Bytes} {a b n k v : Nat}

theorem load_shift (h : ∀ i < n, m (a + i) = m' (b + i)) : m.load a n = m'.load b n := by
  induction n generalizing a b with
  | zero => rfl
  | succ n ih =>
    have hfirst : m a = m' b := h 0 (Nat.succ_pos n)
    have hrest : m.load (a + 1) n = m'.load (b + 1) n := by
      refine ih fun i hi => ?_
      have hnext := h (i + 1) (by omega)
      rwa [← Nat.add_assoc, ← Nat.add_assoc, Nat.add_right_comm a, Nat.add_right_comm b] at hnext
    rw [load, load, hfirst, hrest]

theorem load_congr (h : ∀ j, a ≤ j → j < a + n → m j = m' j) : m.load a n = m'.load a n :=
  load_shift fun i hi => h (a + i) (by omega) (by omega)

theorem load_eq_zero (h : ∀ j, a ≤ j → j < a + n → m j = 0) : m.load a n = 0 := by
  induction n generalizing a with
  | zero => rfl
  | succ n ih =>
    rw [load, h a le_rfl (by omega), ih fun j hj hlt => h j (by omega) (by omega)]
    rfl

theorem load_store (m : Bytes) (a n v : Nat) : (m.store a n v).load a n = v % 256 ^ n := by
  induction n generalizing m a v with
  | zero => simp [load, Nat.mod_one]
  | succ n ih =>
    have hfirst : (m.store a (n + 1) v a).toNat = v % 256 := by simp [store]
    have hrest : (m.store a (n + 1) v).load (a + 1) n =
        (m.store (a + 1) n (v / 256)).load (a + 1) n := by
      refine load_congr fun j hj hlt => ?_
      have hsub : j - a = j - (a + 1) + 1 := by omega
      simp only [store, hsub, Nat.pow_succ']
      rw [if_pos (by omega), if_pos (by omega), Nat.div_div_eq_div_mul]
    rw [load, hfirst, hrest, ih, Nat.pow_succ', Nat.mod_mul]

theorem store_apply_of_disjoint {j : Nat} (h : j < a ∨ a + n ≤ j) : m.store a n v j = m j :=
  if_neg (by omega)

theorem load_store_of_disjoint (h : b + k ≤ a ∨ a + n ≤ b) :
    (m.store a n v).load b k = m.load b k :=
  load_congr fun j hj hlt => store_apply_of_disjoint (by omega)

theorem store_zero_apply {j : Nat} (h : m j = 0) : m.store a n 0 j = 0 := by
  unfold store
  split
  · simp
  · exact h

theorem move_self (m : Bytes) (a n : Nat) : m.move a a n = m := by
  funext j
  unfold move
  split
  · rw [Nat.add_sub_cancel' (by omega)]
  · rfl

theorem load_move_of_disjoint (h : b + k ≤ a ∨ a + n ≤ b) {c : Nat} :
    (m.move a c n).load b k = m.load b k :=
  load_congr fun j hj hlt => if_neg (by omega)

end Bytes

end Yyds.Lib
