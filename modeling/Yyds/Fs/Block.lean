import Yyds.Param

/-! Disk blocks as byte arrays, with the little-endian `uint` view that the log header,
the on-disk inodes and the pointer blocks use. -/
namespace Yyds.Fs

abbrev Byte := BitVec 8

/-- The bytes of one block; the code only touches indices below `BSIZE`. -/
abbrev Block := Nat → Byte

/-- `memset(bp->data, 0, BSIZE)` -/
def zeroBlock : Block := fun _ => 0

/-- The `uint` stored at byte offset `i`. -/
def u32At (b : Block) (i : Nat) : Nat :=
  (b i).toNat + 2 ^ 8 * (b (i + 1)).toNat + 2 ^ 16 * (b (i + 2)).toNat
    + 2 ^ 24 * (b (i + 3)).toNat

/-- Store the `uint` `v` at byte offset `i`. -/
def putU32 (b : Block) (i v : Nat) : Block := fun j =>
  if i ≤ j ∧ j < i + 4 then BitVec.ofNat 8 (v / 2 ^ (8 * (j - i))) else b j

theorem u32At_lt (b : Block) (i : Nat) : u32At b i < 2 ^ 32 := by
  unfold u32At
  omega

variable {b : Block} {i v j : Nat}

theorem u32At_congr {c : Block} (h : ∀ j, i ≤ j → j < i + 4 → b j = c j) :
    u32At b i = u32At c i := by
  simp only [u32At, h i (by omega) (by omega), h (i + 1) (by omega) (by omega),
    h (i + 2) (by omega) (by omega), h (i + 3) (by omega) (by omega)]

theorem putU32_outside (h : j < i ∨ i + 4 ≤ j) : putU32 b i v j = b j := by
  have hn : ¬ (i ≤ j ∧ j < i + 4) := by omega
  simp [putU32, hn]

theorem u32At_putU32 (b : Block) (i v : Nat) : u32At (putU32 b i v) i = v % 2 ^ 32 := by
  simp [u32At, putU32]
  omega

theorem u32At_putU32_self (hv : v < 2 ^ 32) : u32At (putU32 b i v) i = v := by
  rw [u32At_putU32, Nat.mod_eq_of_lt hv]

theorem u32At_putU32_ne (h : j + 4 ≤ i ∨ i + 4 ≤ j) : u32At (putU32 b i v) j = u32At b j := by
  apply u32At_congr
  intro k hk hk'
  exact putU32_outside (by omega)

end Yyds.Fs
