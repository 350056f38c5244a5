import Yyds.Kernel.Access

/-! `sbrk` over all sizes and increments, and over runs of `sbrk` calls. -/
namespace Yyds.Kernel

open Lib Kern Mm

section

/-! ### Unmapping comes to its end -/

/-- Every page of the user is mapped with some permission, as `uvmunmap` expects it. -/
def Leaves (m : Phys) (root : TableId → Nat) (q : TableId) : Prop :=
  ∀ k : Slot, k.va < TRAPFRAME → has (m.leaf (root q) k) PTE_V → PTE_FLAGS (m.leaf (root q) k) ≠ PTE_V

variable [Layout] {m m' : Phys} {root : TableId → Nat} {q : TableId} {own own' : Nat → Owner} {a n : Nat}

omit [Layout] in
theorem Leaves.of_unmap {lo hi : Nat} (h : Leaves m root q)
    (K : Keeps root (Pages q lo hi) m m') (U : Unmapped m' root q lo hi) : Leaves m' root q := by
  intro k hk hV
  by_cases hin : Pages q lo hi (q, k)
  · rw [U k hin.2.1 hin.2.2] at hV
    cases hV
  · rw [(K (q, k) hin).1] at hV ⊢
    exact h k hk hV

section
variable (C : Counted m root own) (hq : root q ≠ 0) (hl : Leaves m root q)
include C hq hl

theorem uvmunmapFrom_returns (ha : a + n * PGSIZE ≤ TRAPFRAME) (hal : a % PGSIZE = 0) :
    (uvmunmapFrom (root q) true n a).Returns m := by
  induction n generalizing a m with
  | zero => exact ⟨_, _, rfl⟩
  | succ n ih =>
    have hpg : PGSIZE = 4096 := rfl
    rw [Nat.succ_mul] at ha
    have hmax : a < MAXVA := lt_MAXVA (by omega)
    have hself := slot_va_of_aligned hmax hal
    rcases unmapOne_cases C hq (show a < TRAPFRAME by omega) hal with
      ⟨hv, hflags, _⟩ | ⟨m1, h1, C1, K1, hv1⟩
    · exact absurd hflags (hl _ (by omega) hv)
    have hone : Keeps root (Pages q a (a + 1)) m m1 := K1.mono fun x hx => by
      subst hx
      exact ⟨rfl, Nat.le_of_eq hself.symm, by simp only [hself]; omega⟩
    have hl1 : Leaves m1 root q := hl.of_unmap hone fun k h1 h2 => by
      rw [Slot.eq_slot_of_va (show k.va = a by omega)]
      exact hv1
    exact Kern.Returns.bind ⟨_, _, h1⟩ fun _ t ht => by
      rw [h1] at ht
      cases ht
      exact ih C1 hl1 (by omega) (aligned_add hal)

theorem uvmdealloc_returns {oldsz : Nat} (hold : oldsz ≤ TRAPFRAME) (newsz : Nat) :
    (uvmdealloc (root q) oldsz newsz).Returns m := by
  by_cases hle : newsz ≥ oldsz
  · rw [uvmdealloc, if_pos hle]
    exact .pure _ _
  have hlt := Nat.not_le.mp hle
  obtain ⟨n, hsum, heq⟩ := uvmdealloc_eq (root q) hold hlt
  rw [heq]
  refine Kern.Returns.bind (uvmunmapFrom_returns C hq hl ?_ ?_) fun _ _ _ => .pure _ _
  · rw [hsum]
    exact (PGROUNDUP_of_le hold).2.2.2
  · exact (PGROUNDUP_of_le (hlt.le.trans hold)).2.2.1

end

/-! ### What `sbrk` should do -/

variable {s s' : Sys} {p : ProcId} {e : Int}

/-- The pages of `p` from `lo` up to `hi` are gone, and exactly the pages that nothing else maps
are free now. -/
structure Released (root : TableId → Nat) (q : TableId) (lo hi : Nat) (m m' : Phys) : Prop where
  unmapped : Unmapped m' root q lo hi
  keeps : Keeps root (Pages q lo hi) m m'
  freed : ∀ t, Managed t → (m'.count t = 0 ↔ m.count t = 0 ∨
    ((∃ x, target m root x = some t) ∧ ∀ x, target m root x = some t → Pages q lo hi x))

/-- `sbrk` in terms of integers: the old size comes back and `n` is added to it, if that is
possible. -/
def SbrkExact (s : Sys) (p : ProcId) (n e : Int) (s' : Sys) : Prop :=
  if 0 ≤ ((s.proc p).sz : Int) + n ∧ ((s.proc p).sz : Int) + n ≤ TRAPFRAME then
    uint64 e = (s.proc p).sz ∧
      s' = { s with mem := s'.mem }.setProc p
        (fun pr => { pr with sz := (((s.proc p).sz : Int) + n).toNat }) ∧
      (0 ≤ n → s'.mem = s.mem) ∧
      (n < 0 → Released s.root (some p) (PGROUNDUP (((s.proc p).sz : Int) + n).toNat)
        (PGROUNDUP (s.proc p).sz) s.mem s'.mem)
  else uint64 e = uint64 (-1) ∧ s' = s

theorem not_sbrkExact {n : Int} (h0 : 0 ≤ ((s.proc p).sz : Int) + n)
    (hle : ((s.proc p).sz : Int) + n ≤ TRAPFRAME) (hret : uint64 e ≠ (s.proc p).sz) :
    ¬ SbrkExact s p n e s' := by
  intro h
  rw [SbrkExact, if_pos ⟨h0, hle⟩] at h
  exact hret h.1

/-- The new size is positive and at most `TRAPFRAME`, and the old one fits into an `int`. -/
def SbrkFits (sz : Nat) (n : Int) : Prop :=
  0 < (sz : Int) + n ∧ (sz : Int) + n ≤ TRAPFRAME ∧ sz < 2 ^ 31
  deriving Decidable

theorem Counted.released {lo hi : Nat} (C : Counted m root own) (C' : Counted m' root own)
    (K : Keeps root (Pages q lo hi) m m') (U : Unmapped m' root q lo hi) :
    Released root q lo hi m m' := by
  refine ⟨U, K, fun t ht => ?_⟩
  have hgone : ∀ x, Pages q lo hi x → target m' root x = none := by
    rintro ⟨x, k⟩ ⟨hx, h1, h2⟩
    subst hx
    exact target_none (U k h1 h2)
  by_cases ho : own t = .user
  · have hz : ∀ {m1 : Phys}, Counted m1 root own →
        (m1.count t = 0 ↔ ∀ x, target m1 root x ≠ some t) := by
      intro m1 C1
      rw [← refs_eq_zero]
      exact C1.count_eq_ofNat ht ho (by decide)
    rw [hz C, hz C']
    refine ⟨fun h => ?_, fun h x hx => ?_⟩
    · by_cases hno : ∀ x, target m root x ≠ some t
      · exact .inl hno
      · refine .inr ⟨by simpa using hno, fun x hx => ?_⟩
        by_contra hout
        exact h x ((K.target hout).trans hx)
    · by_cases hin : Pages q lo hi x
      · rw [hgone x hin] at hx
        cases hx
      · rw [K.target hin] at hx
        rcases h with h | ⟨_, h⟩
        · exact h x hx
        · exact hin (h x hx)
  · have hne : ∀ {m1 : Phys}, Counted m1 root own → m1.count t ≠ 0 :=
      fun C1 h0 => ho (C1.space.own_of_free h0)
    refine ⟨fun h => absurd h (hne C'), ?_⟩
    rintro (h | ⟨⟨x, hx⟩, _⟩)
    · exact absurd h (hne C)
    · exact absurd (C.user x t hx).2 ho

omit [Layout] in
/-- The old size survives the `int` that `sys_sbrk` returns. -/
theorem uint64_int_eq_iff {sz : Nat} (h : sz ≤ TRAPFRAME) : uint64 (int sz) = sz ↔ sz < 2 ^ 31 := by
  rw [TRAPFRAME_eq] at h
  simp only [uint64, int, Int.bmod]
  split <;> omega

theorem sys_sbrk_grow {n : Int} (hn : 0 < n) (hhi : n < 2 ^ 31) (hsz : (s.proc p).sz ≤ TRAPFRAME) :
    sys_sbrk p n s = .ok (int (s.proc p).sz, s.setProc p fun pr =>
      { pr with sz := (((s.proc p).sz : Int) + n).toNat }) := by
  have hsum : ((s.proc p).sz + uint64 n) % 2 ^ 64 = (((s.proc p).sz : Int) + n).toNat := by
    rw [TRAPFRAME_eq] at hsz
    rw [uint64_of_nonneg]
    omega
  rw [sys_sbrk, get_bind_apply, if_pos hn, hsum]
  rfl

theorem sys_sbrk_grow_exact {n : Int} (hn : 0 < n) (hhi : n < 2 ^ 31)
    (hsz : (s.proc p).sz ≤ TRAPFRAME) : ∃ e s', sys_sbrk p n s = .ok (e, s') ∧
      (SbrkExact s p n e s' ↔ SbrkFits (s.proc p).sz n) := by
  refine ⟨_, _, sys_sbrk_grow hn hhi hsz, ?_⟩
  rw [SbrkExact]
  by_cases hle : ((s.proc p).sz : Int) + n ≤ TRAPFRAME
  · rw [if_pos ⟨by omega, hle⟩, uint64_int_eq_iff hsz]
    refine ⟨fun h => ⟨by omega, hle, h.1⟩, fun h => ⟨h.2.2, rfl, fun _ => rfl, fun h0 => ?_⟩⟩
    omega
  · rw [if_neg fun h => hle h.2]
    refine ⟨fun h => ?_, fun h => absurd h.2.1 hle⟩
    have hself := congrArg (fun t : Sys => (t.proc p).sz) h.2
    simp only [Sys.setProc_self] at hself
    omega

theorem sys_sbrk_shrink {n : Int} (hn : n ≤ 0) {r : Nat} (hpos : 0 < ((s.proc p).sz + uint64 n) % 2 ^ 64)
    (h : uvmdealloc (s.proc p).pagetable (s.proc p).sz (((s.proc p).sz + uint64 n) % 2 ^ 64) s.mem =
      .ok (r, m')) :
    sys_sbrk p n s = .ok (int (s.proc p).sz, { s with mem := m' }.setProc p fun pr =>
      { pr with sz := r }) := by
  rw [sys_sbrk, get_bind_apply, if_neg (by omega), if_pos hpos, bind_of_ok (onMem_of_ok h)]
  rfl

theorem sys_sbrk_shrink_exact (I : Inv s own) (hp : (s.proc p).pagetable ≠ 0)
    (hl : Leaves s.mem s.root (some p)) {n : Int} (hlo : -(2 ^ 31) ≤ n) (hn : n ≤ 0) :
    ∃ e s', sys_sbrk p n s = .ok (e, s') ∧
      (SbrkExact s p n e s' ↔ SbrkFits (s.proc p).sz n) := by
  have hsz := (I.space p hp).size
  have hlim := hsz
  rw [TRAPFRAME_eq] at hlim
  have hmod : ((s.proc p).sz + uint64 n) % 2 ^ 64 =
      if 0 ≤ ((s.proc p).sz : Int) + n then (((s.proc p).sz : Int) + n).toNat
      else (2 ^ 64 + ((s.proc p).sz : Int) + n).toNat := by
    simp only [uint64]
    split <;> omega
  rcases Int.lt_trichotomy (((s.proc p).sz : Int) + n) 0 with hneg | hzero | hpos
  · -- the sum wraps around, `uvmdealloc` finds nothing to do
    rw [if_neg (by omega)] at hmod
    have hd : uvmdealloc (s.proc p).pagetable (s.proc p).sz
        (((s.proc p).sz + uint64 n) % 2 ^ 64) s.mem = .ok ((s.proc p).sz, s.mem) := by
      rw [uvmdealloc, if_pos (by omega)]
      rfl
    refine ⟨_, _, sys_sbrk_shrink hn (by omega) hd, ?_⟩
    rw [SbrkExact, SbrkFits, if_neg (by omega)]
    refine ⟨fun h => ?_, fun h => by omega⟩
    have hret := (uint64_int_eq_iff hsz).mpr (by omega)
    rw [h.1] at hret
    simp only [uint64] at hret
    omega
  · rw [if_pos (by omega)] at hmod
    refine ⟨-1, s, ?_, ?_⟩
    · rw [sys_sbrk, get_bind_apply, if_neg (by omega), if_neg (by omega)]
      rfl
    · rw [SbrkExact, SbrkFits, if_pos (by rw [TRAPFRAME_eq]; omega)]
      refine ⟨fun h => ?_, fun h => by omega⟩
      have hret := h.1
      simp only [uint64] at hret
      omega
  · rw [if_pos (by omega)] at hmod
    obtain ⟨r, m', hd⟩ := uvmdealloc_returns (q := some p) I.counted hp hl hsz
      (((s.proc p).sz + uint64 n) % 2 ^ 64)
    obtain ⟨hr, C, K, U⟩ := uvmdealloc_spec (p := some p) I.counted hp hsz hd
    have hr' : r = (((s.proc p).sz : Int) + n).toNat := by omega
    refine ⟨_, _, sys_sbrk_shrink hn (by omega) hd, ?_⟩
    rw [SbrkExact, if_pos (by rw [TRAPFRAME_eq]; omega), uint64_int_eq_iff hsz, hr']
    rw [hr'] at K U
    refine ⟨fun h => ⟨hpos, by rw [TRAPFRAME_eq]; omega, h.1⟩, fun h =>
      ⟨h.2.2, rfl, fun h0 => ?_, fun _ => Counted.released I.counted C K U⟩⟩
    obtain rfl : n = 0 := by omega
    rw [show ((s.proc p).sz + uint64 0) % 2 ^ 64 = (s.proc p).sz by omega, uvmdealloc,
      if_pos (Nat.le_refl _)] at hd
    cases hd
    rfl

theorem sys_sbrk_exact (I : Inv s own) (hp : (s.proc p).pagetable ≠ 0)
    (hl : Leaves s.mem s.root (some p)) {n : Int} (hlo : -(2 ^ 31) ≤ n) (hhi : n < 2 ^ 31) :
    ∃ e s', sys_sbrk p n s = .ok (e, s') ∧
      (SbrkExact s p n e s' ↔ SbrkFits (s.proc p).sz n) := by
  by_cases hn : 0 < n
  · exact sys_sbrk_grow_exact hn hhi (I.space p hp).size
  · exact sys_sbrk_shrink_exact I hp hl hlo (by omega)

/-! ### Runs of `sbrk` -/

/-- A call of `sbrk` whose sizes fit. -/
def SbrkStep (s : Sys) (x : ProcId × Action) : Prop :=
  match x.2 with
  | .sbrk n => SbrkFits (s.proc x.1).sz n.toInt
  | _ => False

instance (s : Sys) : (x : ProcId × Action) → Decidable (SbrkStep s x)
  | (_, a) => by
    refine a.casesOn ?_ ?_ ?_ ?_ ?_ ?_ ?_ ?_ ?_ ?_ ?_ ?_ ?_ ?_ <;> intros <;> dsimp only [SbrkStep] <;>
      infer_instance

/-- The machine is in order, and `uvmunmap` can take any page of any process. -/
def Regular (s : Sys) : Prop := (∃ own, Inv s own) ∧ ∀ q, Leaves s.mem s.root (some q)

omit [Layout] in
theorem Sys.root_setSz (s : Sys) (p : ProcId) (f : Proc → Nat) :
    (s.setProc p fun pr => { pr with sz := f pr }).root = s.root := by
  refine root_congr fun q => ?_
  by_cases hq : q = p
  · rw [hq, Sys.setProc_self]
  · rw [Sys.setProc_ne _ _ hq]

theorem Regular.step {x : ProcId × Action} (h : Regular s) (hx : SbrkStep s x) (hst : Step s x s') :
    Regular s' := by
  obtain ⟨⟨own, I⟩, hl⟩ := h
  obtain ⟨p, a⟩ := x
  have hp := I.used p hst.1.1
  have hsz := (I.space p hp).size
  cases a with
  | sbrk n =>
    have htame : Tame s (p, .sbrk n) := by
      have h1 : SbrkFits (s.proc p).sz n.toInt := hx
      rw [SbrkFits, TRAPFRAME_eq] at h1
      rw [Tame, TRAPFRAME_eq]
      dsimp only
      omega
    refine ⟨hst.inv I htame, ?_⟩
    obtain ⟨_, h⟩ := hst
    obtain ⟨_, h1⟩ := ignore_ok h
    rcases sys_sbrk_cases h1 with ⟨_, _, rfl⟩ | ⟨_, _, _, rfl⟩ | ⟨_, _, _, r, m', hd, rfl⟩
    · rw [Sys.root_setSz]
      exact hl
    · exact hl
    obtain ⟨_, _, K, U⟩ := uvmdealloc_spec (p := some p) I.counted hp hsz hd
    have hleaves : ∀ q, Leaves m' s.root (some q) := by
      intro q
      by_cases hq : q = p
      · subst hq
        exact (hl q).of_unmap K U
      · intro k hk hV
        have hkeep : m'.leaf (s.root (some q)) k = s.mem.leaf (s.root (some q)) k :=
          (K (some q, k) fun hin => hq (Option.some.inj hin.1)).1
        rw [hkeep] at hV ⊢
        exact hl q k hk hV
    rw [Sys.root_setSz]
    exact hleaves
  | moveSp | load | store | argaddr | copyout | grow | shrink | mmap | munmap | fork | exec | exit
  | wait => exact hx.elim

/-- In every run of `sbrk` calls whose sizes fit, no size exceeds `TRAPFRAME`, and the next call
does what integer arithmetic says if and only if its sizes fit. -/
theorem sbrk_exact_iff {s₀ : Sys} {xs : List (ProcId × Action)} (hs : Regular s₀)
    (h : Run (Guarded SbrkStep Step) s₀ xs s) (ha : (s.proc p).Active) (n : BitVec 32) :
    (s.proc p).sz ≤ TRAPFRAME ∧ ∃ e s', sys_sbrk p n.toInt s = .ok (e, s') ∧
      (SbrkExact s p n.toInt e s' ↔ SbrkFits (s.proc p).sz n.toInt) := by
  have hstep : ∀ s x s', Guarded SbrkStep Step s x s' → Regular s → Regular s' :=
    fun _ _ _ hst hr => hr.step hst.1 hst.2
  obtain ⟨⟨own, I⟩, hl⟩ := h.invariant hstep hs
  have hp := I.used p ha.1
  exact ⟨(I.space p hp).size, sys_sbrk_exact I hp (hl p) (BitVec.le_toInt n) BitVec.toInt_lt⟩

theorem AddrSpace.leaves {tf : Nat} (A : AddrSpace m root q tf PGSIZE)
    (h : PTE_FLAGS (m.leaf (root q) (slot 0)) ≠ PTE_V) : Leaves m root q := by
  intro k hk hV
  by_cases hpage : PGSIZE ≤ k.va
  · rw [A.empty k hpage hk] at hV
    cases hV
  · have hal := k.va_aligned
    simp only [PGSIZE] at hpage hal
    rw [Slot.eq_slot_of_va (show k.va = 0 by omega)]
    exact h

theorem Inv.regular_first (I : Inv s own) (hp : (s.proc p).pagetable ≠ 0)
    (hsz : (s.proc p).sz = PGSIZE)
    (hflags : PTE_FLAGS (s.mem.leaf (s.proc p).pagetable (slot 0)) ≠ PTE_V)
    (hnone : ∀ q ≠ p, (s.proc q).pagetable = 0) : Regular s := by
  refine ⟨⟨own, I⟩, fun q => ?_⟩
  by_cases hq : q = p
  · subst hq
    have A := I.space q hp
    rw [hsz] at A
    exact A.leaves hflags
  · intro k _ hV
    rw [Sys.root_some, hnone q hq, Phys.leaf, if_pos rfl] at hV
    cases hV

end

/-- The first process of the small machine takes a page and gives it back. -/
theorem sbrk_exact_page : let := twentyPages
    ∃ s₀ s e s', small oneFile oneInode SbrkStep [] = some s₀ ∧ next s₀ (0, .sbrk 4096) = some s ∧
      sys_sbrk 0 (-4096#32).toInt s = .ok (e, s') ∧ SbrkExact s 0 (-4096#32).toInt e s' := by
  let := twentyPages
  obtain ⟨s₀, h0, hnone, hsz, hpt, hflags, hx, s, hs, ha, hsz'⟩ : ∃ s₀,
      small oneFile oneInode SbrkStep [] = some s₀ ∧ (∀ q ≠ 0, (s₀.proc q).pagetable = 0) ∧
      (s₀.proc 0).sz = PGSIZE ∧ (s₀.proc 0).pagetable ≠ 0 ∧
      PTE_FLAGS (s₀.mem.leaf (s₀.proc 0).pagetable (slot 0)) ≠ PTE_V ∧
      SbrkStep s₀ (0, .sbrk 4096) ∧ ∃ s, next s₀ (0, .sbrk 4096) = some s ∧
        (s.proc 0).Active ∧ (s.proc 0).sz = 8192 := by
    decide +kernel
  obtain ⟨_, ⟨own, I⟩, hrun⟩ := small_run h0
  cases hrun
  have hreg : Regular s₀ := I.regular_first hpt hsz hflags hnone
  have hrun : Run (Guarded SbrkStep Step) s₀ [(0, .sbrk 4096)] s := .single ⟨hx, next_eq_some.mp hs⟩
  obtain ⟨_, e, s', he, hexact⟩ := sbrk_exact_iff hreg hrun ha (-4096#32)
  refine ⟨s₀, s, e, s', h0, hs, he, hexact.mpr ?_⟩
  rw [hsz']
  decide

/-- Above 2 GiB the old size comes back with its sign bit spread over the upper half. -/
theorem sbrk_above_two_gib : let := twentyPages
    ∃ s e s', small oneFile oneInode SbrkStep [(0, .sbrk 0x7fffffff)] = some s ∧
      (s.proc 0).Active ∧ sys_sbrk 0 1 s = .ok (e, s') ∧ ((s.proc 0).sz : Int) + 1 ≤ TRAPFRAME ∧
      uint64 e ≠ (s.proc 0).sz ∧ ¬ SbrkExact s 0 1 e s' := by
  let := twentyPages
  obtain ⟨s, hs, ha, hsz⟩ : ∃ s, small oneFile oneInode SbrkStep [(0, .sbrk 0x7fffffff)] = some s ∧
      (s.proc 0).Active ∧ (s.proc 0).sz = 0x80000fff := by
    decide +kernel
  have hle : (s.proc 0).sz ≤ TRAPFRAME := by
    rw [hsz]
    decide
  have hin : ((s.proc 0).sz : Int) + 1 ≤ TRAPFRAME := by
    rw [hsz]
    decide
  have hret : uint64 (int (s.proc 0).sz) ≠ (s.proc 0).sz := by
    rw [hsz]
    decide
  obtain ⟨e, s', he, hval⟩ : ∃ e s', sys_sbrk 0 1 s = .ok (e, s') ∧ uint64 e ≠ (s.proc 0).sz :=
    ⟨_, _, sys_sbrk_grow (by decide) (by decide) hle, hret⟩
  exact ⟨s, e, s', hs, ha, he, hin, hval, not_sbrkExact (by omega) hin hval⟩

end Yyds.Kernel
