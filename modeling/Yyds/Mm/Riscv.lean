import Yyds.Param

/-! Page-table entries and address arithmetic of `riscv.h`. -/
namespace Yyds.Mm

/-- A `uint64`. -/
abbrev Word := BitVec 64

def PTE_V : Word := 1#64 <<< 0
def PTE_R : Word := 1#64 <<< 1
def PTE_W : Word := 1#64 <<< 2
def PTE_X : Word := 1#64 <<< 3
def PTE_U : Word := 1#64 <<< 4
/-- set on the pages that a fork has made copy-on-write -/
def PTE_F : Word := 1#64 <<< 8

def PA2PTE (pa : Nat) : Word := (BitVec.ofNat 64 pa >>> 12) <<< 10
def PTE2PA (pte : Word) : Nat := ((pte >>> 10) <<< 12).toNat
def PTE_FLAGS (pte : Word) : Word := pte &&& 0x3FF

/-- `pte & flag`, as a condition -/
def has (pte flag : Word) : Bool := pte &&& flag != 0

def PGROUNDUP (a : Nat) : Nat := (a + PGSIZE - 1) % 2 ^ 64 / PGSIZE * PGSIZE
def PGROUNDDOWN (a : Nat) : Nat := a / PGSIZE * PGSIZE

def PX (level va : Nat) : Fin 512 := Fin.ofNat 512 (va / 2 ^ (12 + 9 * level))

variable {a k i pa : Nat} {f w : Word}

theorem aligned_add (h : a % PGSIZE = 0) : (a + PGSIZE) % PGSIZE = 0 := by
  rw [Nat.add_mod_right, h]

theorem PGROUNDDOWN_of_aligned (h : a % PGSIZE = 0) : PGROUNDDOWN a = a := by
  simp only [PGROUNDDOWN, PGSIZE] at *
  omega

theorem aligned_le {b : Nat} (ha : a % PGSIZE = 0) (hb : b % PGSIZE = 0) (h : a < b) :
    a + PGSIZE ≤ b := by
  simp only [PGSIZE] at *
  omega

/-! ### Flag tests are bits -/

theorem has_bit (w : Word) (hk : k < 64) : has w (1#64 <<< k) = w.getLsbD k := by
  have hne : BitVec.twoPow 64 k ≠ 0#64 := by
    intro h
    have := congrArg (fun x => x.getLsbD k) h
    simp [hk] at this
  rw [has, ← BitVec.twoPow_eq, BitVec.and_twoPow]
  cases w.getLsbD k with
  | false => simp
  | true => simpa using hne

@[simp] theorem has_V (w : Word) : has w PTE_V = w.getLsbD 0 := has_bit w (by decide)
@[simp] theorem has_R (w : Word) : has w PTE_R = w.getLsbD 1 := has_bit w (by decide)
@[simp] theorem has_W (w : Word) : has w PTE_W = w.getLsbD 2 := has_bit w (by decide)
@[simp] theorem has_U (w : Word) : has w PTE_U = w.getLsbD 4 := has_bit w (by decide)
@[simp] theorem has_F (w : Word) : has w PTE_F = w.getLsbD 8 := has_bit w (by decide)

theorem getLsbD_flag (hk : k < 64) (i : Nat) : (1#64 <<< k).getLsbD i = decide (k = i) := by
  rw [← BitVec.twoPow_eq]
  simp [hk]

@[simp] theorem getLsbD_PTE_V (i : Nat) : PTE_V.getLsbD i = decide (0 = i) :=
  getLsbD_flag (by decide) i
@[simp] theorem getLsbD_PTE_W (i : Nat) : PTE_W.getLsbD i = decide (2 = i) :=
  getLsbD_flag (by decide) i
@[simp] theorem getLsbD_PTE_F (i : Nat) : PTE_F.getLsbD i = decide (8 = i) :=
  getLsbD_flag (by decide) i

/-- A flag word: nothing above the ten low bits. -/
def IsFlags (f : Word) : Prop := f &&& 0x3FF = f
  deriving Decidable

theorem getLsbD_mask (i : Nat) : (0x3FF : Word).getLsbD i = decide (i < 10) := by
  have h : (0x3FF : Word) = BitVec.ofNat 64 (2 ^ 10 - 1) := by decide
  rw [h, BitVec.getLsbD_ofNat, Nat.testBit_two_pow_sub_one]
  by_cases hi : i < 10
  · simp [hi]
    omega
  · simp [hi]

theorem IsFlags.high (hf : IsFlags f) (hi : 10 ≤ i) : f.getLsbD i = false := by
  rw [← hf, BitVec.getLsbD_and, getLsbD_mask]
  simp [Nat.not_lt.mpr hi]

theorem isFlags_PTE_FLAGS (w : Word) : IsFlags (PTE_FLAGS w) := by
  rw [IsFlags, PTE_FLAGS, BitVec.and_assoc, BitVec.and_self]

theorem IsFlags.or {g : Word} (hf : IsFlags f) (hg : IsFlags g) : IsFlags (f ||| g) := by
  apply BitVec.eq_of_getLsbD_eq
  intro i _
  rw [BitVec.getLsbD_and, getLsbD_mask]
  by_cases hi : i < 10
  · simp [hi]
  · simp [hf.high (Nat.not_lt.mp hi), hg.high (Nat.not_lt.mp hi)]

theorem IsFlags.and (g : Word) (hf : IsFlags f) : IsFlags (f &&& g) := by
  rw [IsFlags] at *
  rw [BitVec.and_assoc, BitVec.and_comm g, ← BitVec.and_assoc, hf]

@[simp] theorem getLsbD_PTE_FLAGS (w : Word) (hi : i < 10) :
    (PTE_FLAGS w).getLsbD i = w.getLsbD i := by
  rw [PTE_FLAGS, BitVec.getLsbD_and, getLsbD_mask]
  simp [hi]

theorem getLsbD_PA2PTE_or (pa : Nat) (f : Word) (hi : i < 10) :
    (PA2PTE pa ||| f).getLsbD i = f.getLsbD i := by
  simp [PA2PTE, hi]

/-! ### The page an entry points to -/

theorem PTE2PA_aligned (w : Word) : PTE2PA w % PGSIZE = 0 := by
  simp [PTE2PA, PGSIZE, BitVec.toNat_shiftLeft]
  omega

theorem PTE2PA_congr {w' : Word} (h : ∀ i, 10 ≤ i → w.getLsbD i = w'.getLsbD i) :
    PTE2PA w = PTE2PA w' := by
  refine congrArg BitVec.toNat ?_
  apply BitVec.eq_of_getLsbD_eq
  intro i _
  simp only [BitVec.getLsbD_shiftLeft, BitVec.getLsbD_ushiftRight]
  rw [h _ (by omega)]

theorem PTE2PA_or (hf : IsFlags f) : PTE2PA (w ||| f) = PTE2PA w :=
  PTE2PA_congr fun i hi => by simp [hf.high hi]

theorem PTE2PA_and_not (hf : IsFlags f) : PTE2PA (w &&& ~~~f) = PTE2PA w :=
  PTE2PA_congr fun i hi => by
    by_cases h : i < 64
    · rw [BitVec.getLsbD_and, BitVec.getLsbD_not, hf.high hi]
      simp [h]
    · simp [BitVec.getLsbD_of_ge w i (by omega)]

theorem PTE2PA_PA2PTE (h : pa % PGSIZE = 0) (hlt : pa < 2 ^ 64) : PTE2PA (PA2PTE pa) = pa := by
  simp only [PTE2PA, PA2PTE, BitVec.toNat_shiftLeft, BitVec.toNat_ushiftRight,
    BitVec.toNat_ofNat, Nat.shiftRight_eq_div_pow, Nat.shiftLeft_eq]
  simp only [PGSIZE] at h
  omega

theorem PTE2PA_mk (h : pa % PGSIZE = 0) (hlt : pa < 2 ^ 64) (hf : IsFlags f) :
    PTE2PA (PA2PTE pa ||| f) = pa := by
  rw [PTE2PA_or hf, PTE2PA_PA2PTE h hlt]

end Yyds.Mm
