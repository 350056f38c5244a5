import Yyds.Mm.Sharing

/-! What the routines of `vm.c` do to the leaf entries and the counts. -/
namespace Yyds.Mm

open Lib Kern Layout

theorem Slot.va_aligned (k : Slot) : k.va % PGSIZE = 0 := by
  simp [Slot.va]

theorem Slot.eq_slot_of_va {k : Slot} {a : Nat} (h : k.va = a) : k = slot a := by
  rw [← h, slot_of_va]

theorem slot_va_of_aligned {a : Nat} (h : a < MAXVA) (hal : a % PGSIZE = 0) : (slot a).va = a := by
  rw [slot_va h, PGROUNDDOWN_of_aligned hal]

theorem TRAPFRAME_lt_MAXVA : TRAPFRAME < MAXVA := by decide

theorem lt_MAXVA {va : Nat} (h : va < TRAPFRAME) : va < MAXVA := Nat.lt_trans h TRAPFRAME_lt_MAXVA

theorem TRAPFRAME_aligned : TRAPFRAME % PGSIZE = 0 := by decide

theorem PGROUNDUP_of_le {a : Nat} (h : a ≤ TRAPFRAME) : a ≤ PGROUNDUP a ∧
    PGROUNDUP a < a + PGSIZE ∧ PGROUNDUP a % PGSIZE = 0 ∧ PGROUNDUP a ≤ TRAPFRAME := by
  simp only [PGROUNDUP, PGSIZE, TRAPFRAME_eq] at *
  omega

theorem toNat_signExtend_small {n : Nat} (h : n < 2 ^ 31) :
    (BitVec.signExtend 64 (BitVec.ofNat 32 n)).toNat = n := by
  have hmsb : (BitVec.ofNat 32 n).msb = false := by
    rw [BitVec.msb_eq_false_iff_two_mul_lt, BitVec.toNat_ofNat]
    omega
  rw [BitVec.signExtend_eq_setWidth_of_msb_false hmsb, BitVec.toNat_setWidth, BitVec.toNat_ofNat]
  omega

variable [Layout] {s s' : Phys} {root : TableId → Nat} {own own' : Nat → Owner} {p : TableId}
  {va a n : Nat} {r : Nat}

section
variable (S : Space s root own) (hp : root p ≠ 0)
include S hp

theorem walkaddr_spec (va : Nat) :
    walkaddr (root p) va s = .ok (if va < MAXVA ∧ has (s.leaf (root p) (slot va)) PTE_V ∧
      has (s.leaf (root p) (slot va)) PTE_U then PTE2PA (s.leaf (root p) (slot va)) else 0, s) := by
  rw [walkaddr]
  by_cases hva : va ≥ MAXVA
  · rw [if_pos hva, if_neg (by omega)]
    rfl
  have hva' : va < MAXVA := by omega
  rw [if_neg hva]
  rcases S.walk_read hp hva' with ⟨hw, h0⟩ | ⟨t, hw, _, he⟩
  · rw [bind_of_ok hw, h0]
    simp
  rw [bind_of_ok hw]
  simp only [get_bind_apply, he]
  by_cases hv : has (s.leaf (root p) (slot va)) PTE_V
  · by_cases hu : has (s.leaf (root p) (slot va)) PTE_U
    · rw [if_neg (by simp [hv]), if_neg (by simp [hu]), if_pos ⟨hva', hv, hu⟩]
      rfl
    · rw [if_neg (by simp [hv]), if_pos (by simpa using hu), if_neg (by simp [hu])]
      rfl
  · rw [if_pos (by simpa using hv), if_neg (by simp [hv])]
    rfl

theorem walkaddr_user (hva : va < MAXVA) (hV : has (s.leaf (root p) (slot va)) PTE_V)
    (hU : has (s.leaf (root p) (slot va)) PTE_U) :
    walkaddr (root p) va s = .ok (PTE2PA (s.leaf (root p) (slot va)), s) := by
  rw [walkaddr_spec S hp, if_pos ⟨hva, hV, hU⟩]

theorem walkaddr_none
    (h : ¬ (va < MAXVA ∧ has (s.leaf (root p) (slot va)) PTE_V ∧
      has (s.leaf (root p) (slot va)) PTE_U)) : walkaddr (root p) va s = .ok (0, s) := by
  rw [walkaddr_spec S hp, if_neg h]

theorem cowpage_spec (va : Nat) :
    cowpage (root p) va s = .ok (if va < MAXVA ∧ has (s.leaf (root p) (slot va)) PTE_V ∧
      has (s.leaf (root p) (slot va)) PTE_F then 0 else -1, s) := by
  rw [cowpage]
  by_cases hva : va ≥ MAXVA
  · rw [if_pos hva, if_neg (by omega)]
    rfl
  have hva' : va < MAXVA := by omega
  rw [if_neg hva]
  rcases S.walk_read hp hva' with ⟨hw, h0⟩ | ⟨t, hw, _, he⟩
  · rw [bind_of_ok hw, h0]
    simp
  rw [bind_of_ok hw]
  simp only [get_bind_apply, he]
  by_cases hv : has (s.leaf (root p) (slot va)) PTE_V
  · by_cases hf : has (s.leaf (root p) (slot va)) PTE_F
    · rw [if_neg (by simp [hv]), if_pos hf, if_pos ⟨hva', hv, hf⟩]
      rfl
    · rw [if_neg (by simp [hv]), if_neg hf, if_neg (by simp [hf])]
      rfl
  · rw [if_pos (by simpa using hv), if_neg (by simp [hv])]
    rfl

end

/-! ### Unmapping -/

/-- The entries of `p` for the pages from `a` up to `b`. -/
def Pages (p : TableId) (a b : Nat) (x : TableId × Slot) : Prop := x.1 = p ∧ a ≤ x.2.va ∧ x.2.va < b

/-- No valid entry of `p` from `a` up to `b`. -/
def Unmapped (s : Phys) (root : TableId → Nat) (p : TableId) (a b : Nat) : Prop :=
  ∀ k : Slot, a ≤ k.va → k.va < b → has (s.leaf (root p) k) PTE_V = false

theorem uvmdealloc_eq (pt : Nat) {oldsz newsz : Nat} (hold : oldsz ≤ TRAPFRAME) (hlt : newsz < oldsz) :
    ∃ n, PGROUNDUP newsz + n * PGSIZE = PGROUNDUP oldsz ∧ uvmdealloc pt oldsz newsz =
      uvmunmapFrom pt true n (PGROUNDUP newsz) >>= fun _ => pure newsz := by
  have hup := PGROUNDUP_of_le hold
  have hup' := PGROUNDUP_of_le (hlt.le.trans hold)
  have hsum : PGROUNDUP newsz + (PGROUNDUP oldsz - PGROUNDUP newsz) / PGSIZE * PGSIZE =
      PGROUNDUP oldsz := by
    simp only [PGSIZE] at *
    omega
  refine ⟨_, hsum, ?_⟩
  rw [uvmdealloc, if_neg (Nat.not_le.mpr hlt)]
  by_cases hpages : PGROUNDUP newsz < PGROUNDUP oldsz
  · have hsmall : (PGROUNDUP oldsz - PGROUNDUP newsz) / PGSIZE < 2 ^ 31 := by
      rw [TRAPFRAME_eq] at hup
      simp only [PGSIZE] at *
      omega
    rw [when_pos hpages, toNat_signExtend_small hsmall, uvmunmap, when_neg (by simp [hup'.2.2.1]),
      hsum, Nat.mod_eq_of_lt (by rw [TRAPFRAME_eq] at hup; omega)]
    rfl
  · rw [when_neg hpages, Nat.sub_eq_zero_of_le (Nat.not_lt.mp hpages)]
    rfl

section
variable (C : Counted s root own) (hp : root p ≠ 0)
include C hp

theorem unmapOne_cases (ha : a < TRAPFRAME) (hal : a % PGSIZE = 0) :
    (has (s.leaf (root p) (slot a)) PTE_V ∧ PTE_FLAGS (s.leaf (root p) (slot a)) = PTE_V ∧
      unmapOne (root p) true a s = .error "uvmunmap: not a leaf") ∨
    ∃ s', unmapOne (root p) true a s = .ok ((), s') ∧ Counted s' root own ∧
      Keeps root (· = (p, slot a)) s s' ∧ has (s'.leaf (root p) (slot a)) PTE_V = false := by
  have hmax : a < MAXVA := lt_MAXVA ha
  rw [unmapOne]
  rcases C.space.walk_read hp hmax with ⟨hw, h0⟩ | ⟨u, hw, hu, he⟩
  · rw [bind_of_ok hw]
    exact .inr ⟨s, rfl, C, .refl _ _ _, by rw [h0]; decide⟩
  rw [bind_of_ok hw]
  simp only [get_bind_apply, he]
  by_cases hv : has (s.leaf (root p) (slot a)) PTE_V
  · have hx : target s root (p, slot a) = some (PTE2PA (s.leaf (root p) (slot a))) :=
      target_eq_some.mpr ⟨by rw [slot_va_of_aligned hmax hal]; exact ha, hv, rfl⟩
    obtain ⟨s1, hk, C1, P, hkeep⟩ := C.unmap hx hu
    rw [if_neg (by simp [hv])]
    split
    case isTrue hflags => exact .inl ⟨hv, hflags, rfl⟩
    case isFalse =>
      rw [when_pos rfl, bind_of_ok hk]
      refine .inr ⟨s1.setPte (u, (slot a).2.2) 0, rfl, C1, hkeep, ?_⟩
      rw [P.self]
      decide
  · rw [if_pos (by simpa using hv)]
    exact .inr ⟨s, rfl, C, .refl _ _ _, by simpa using hv⟩

theorem uvmunmapFrom_spec (ha : a + n * PGSIZE ≤ TRAPFRAME) (hal : a % PGSIZE = 0)
    (h : uvmunmapFrom (root p) true n a s = .ok ((), s')) :
    Counted s' root own ∧ Keeps root (Pages p a (a + n * PGSIZE)) s s' ∧
      Unmapped s' root p a (a + n * PGSIZE) := by
  induction n generalizing a s with
  | zero =>
    cases h
    exact ⟨C, .refl _ _ _, fun k h1 h2 => by omega⟩
  | succ n ih =>
    have hpg : PGSIZE = 4096 := rfl
    rw [Nat.succ_mul] at ha
    obtain ⟨_, s1, h1, h2⟩ := bind_ok h
    rcases unmapOne_cases C hp (show a < TRAPFRAME by omega) hal with
      ⟨_, _, herr⟩ | ⟨s1', h1', C1, K1, hv1⟩
    · cases herr.symm.trans h1
    cases h1'.symm.trans h1
    have hsum : a + PGSIZE + n * PGSIZE = a + (n + 1) * PGSIZE := by
      rw [Nat.succ_mul]
      omega
    obtain ⟨C2, K2, U2⟩ := ih C1 (by omega) (aligned_add hal) h2
    rw [hsum] at K2 U2
    have hmax : a < MAXVA := lt_MAXVA (by omega)
    have hself := slot_va_of_aligned hmax hal
    refine ⟨C2, (K1.mono ?_).trans (K2.mono ?_), ?_⟩
    · rintro x rfl
      exact ⟨rfl, Nat.le_of_eq hself.symm, by simp only [hself]; omega⟩
    · rintro x ⟨h1, h2, h3⟩
      exact ⟨h1, by omega, h3⟩
    · intro k hk1 hk2
      by_cases hka : k.va = a
      · rw [Slot.eq_slot_of_va hka, (K2 (p, slot a) ?_).1]
        · exact hv1
        · rintro ⟨_, h', _⟩
          simp only [hself] at h'
          omega
      · exact U2 k (aligned_le hal k.va_aligned (by omega)) hk2

theorem uvmunmap_spec {npages : Nat} (ha : va + npages * PGSIZE ≤ TRAPFRAME)
    (h : uvmunmap (root p) va npages true s = .ok ((), s')) :
    Counted s' root own ∧ Keeps root (Pages p va (va + npages * PGSIZE)) s s' ∧
      Unmapped s' root p va (va + npages * PGSIZE) := by
  rw [uvmunmap] at h
  by_cases hal : va % PGSIZE = 0
  · have hrounds : ((va + npages * PGSIZE) % 2 ^ 64 - va) / PGSIZE = npages := by
      rw [TRAPFRAME_eq] at ha
      simp only [PGSIZE] at *
      omega
    rw [when_neg (by simp [hal]), hrounds] at h
    exact uvmunmapFrom_spec C hp ha hal h
  · rw [when_pos hal] at h
    cases h

theorem uvmdealloc_spec {oldsz newsz : Nat} (hold : oldsz ≤ TRAPFRAME)
    (h : uvmdealloc (root p) oldsz newsz s = .ok (r, s')) :
    r = min newsz oldsz ∧ Counted s' root own ∧
      Keeps root (Pages p (PGROUNDUP r) (PGROUNDUP oldsz)) s s' ∧
      Unmapped s' root p (PGROUNDUP r) (PGROUNDUP oldsz) := by
  by_cases hle : newsz ≥ oldsz
  · rw [uvmdealloc, if_pos hle] at h
    cases h
    exact ⟨(Nat.min_eq_right hle).symm, C, .refl _ _ _, fun k h1 h2 => by omega⟩
  have hlt := Nat.not_le.mp hle
  obtain ⟨n, hsum, heq⟩ := uvmdealloc_eq (root p) hold hlt
  rw [heq] at h
  obtain ⟨_, s1, h1, h2⟩ := bind_ok h
  cases h2
  rw [← hsum]
  refine ⟨(Nat.min_eq_left hlt.le).symm, uvmunmapFrom_spec C hp ?_ ?_ h1⟩
  · rw [hsum]
    exact (PGROUNDUP_of_le hold).2.2.2
  · exact (PGROUNDUP_of_le (hlt.le.trans hold)).2.2.1

end

end Yyds.Mm
