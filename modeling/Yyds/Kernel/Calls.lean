import Yyds.Kernel.Fault

/-! Page faults and the system calls on memory keep the machine in order. -/
namespace Yyds.Kernel

open Lib Kern Mm Function

variable {va sz' addr vfile pt fuel ip off : Nat} {length flags offset : Int} {prot : BitVec 32}

/-- The address that `mmap_handler` sees is the address of the fault or a lower one. -/
theorem uint64_int_le (h : uint64 (int va) < 2 ^ 63) : uint64 (int va) ≤ va := by
  simp only [uint64, int, Int.bmod] at *
  split at h <;> split <;> omega

variable [Layout] {s s' s₁ : Sys} {p : ProcId} {own own' : Nat → Owner} {m m' : Phys}
  {root : TableId → Nat} {q : TableId} {tf sz : Nat} {e : Int}

theorem AddrSpace.of_keeps {K : TableId × Slot → Prop} (A : AddrSpace m root q tf sz)
    (h : Keeps root K m m') (hK : ∀ k, K (q, k) → k.va < PGROUNDUP sz) :
    AddrSpace m' root q tf sz := by
  have hup := PGROUNDUP_of_le A.size
  have hhigh : ∀ k : Slot, PGROUNDUP sz ≤ k.va → m'.leaf (root q) k = m.leaf (root q) k :=
    fun k hk => (h (q, k) fun hk' => Nat.not_lt.mpr hk (hK k hk')).1
  refine ⟨?_, ?_, A.size, ?_, ?_⟩
  · rw [hhigh _ ?_, A.trampoline]
    exact Nat.le_trans hup.2.2.2 (by decide)
  · rw [hhigh _ ?_, A.trapframe]
    exact hup.2.2.2
  · intro k hk hlt
    rw [hhigh k hk]
    exact A.empty k hk hlt
  · intro k hk
    rw [hhigh k (Nat.le_trans hup.2.2.2 (Nat.le_trans (Nat.le_of_lt TRAPFRAME_lt_MAXVA) hk))]
    exact A.beyond k hk

namespace Inv

/-- The process `p` has changed its memory below its size, and nothing else. -/
theorem of_below (I : Inv s own) {K : TableId × Slot → Prop} (C : Counted m' s.root own')
    (G : Grows (some p) own own') (h : Keeps s.root K s.mem m')
    (hK : ∀ x, K x → x.1 = some p ∧ x.2.va < PGROUNDUP (s.proc p).sz) :
    Local p s own { s with mem := m' } own' := by
  refine I.of_local C G (h.mono fun x hx => (hK x hx).1) (fun _ _ => rfl) (.refl _) ?_ ?_ ?_
  · exact fun hp => (I.space p hp).of_keeps h fun k hk => (hK _ hk).2
  · exact fun hu => (I.unused p hu).2
  · exact I.vma p

theorem mapped (I : Inv s own) (C : Counted m' s.root own') (G : Grows (some p) own own')
    {a : Nat} {perm : Word} {pg : Page} (M : Mapped s.root (some p) a perm pg s.mem m')
    (ha : a < (s.proc p).sz) (hp : (s.proc p).pagetable ≠ 0) :
    Local p s own { s with mem := m' } own' := by
  refine I.of_below C G M.keeps ?_
  rintro x rfl
  refine ⟨rfl, ?_⟩
  have hup := PGROUNDUP_of_le (I.space p hp).size
  rw [slot_va (lt_MAXVA M.below)]
  exact Nat.lt_of_le_of_lt (Nat.div_mul_le_self _ _) (Nat.lt_of_lt_of_le ha hup.1)

end Inv

/-- The fault is at or above `p->sz` and below `p->shm`, on the heap side of the stack. -/
def InShmWindow (s : Sys) (p : ProcId) (va : Nat) : Prop :=
  (s.proc p).sz ≤ va ∧ va < (s.proc p).shm ∧ (s.proc p).aboveStack va
  deriving Decidable

theorem pageFault_local (I : Inv s own) (hp : (s.proc p).pagetable ≠ 0) {cause : Nat}
    (hw : ¬ InShmWindow s p va) (h : pageFault p cause va s = .ok ((), s')) :
    ∃ own', Local p s own s' own' := by
  obtain ⟨own', C, G, D⟩ := pageFault_spec I hp h
  refine ⟨own', ?_⟩
  have hkill : ∀ m', Counted m' s.root own' → Keeps s.root (fun _ => False) s.mem m' →
      Local p s own ({ s with mem := m' }.setProc p killedProc) own' := by
    intro m' C K
    have L := I.of_below C G K fun _ h => h.elim
    exact L.trans (L.inv.of_proc ⟨.rfl, rfl, rfl, rfl⟩ rfl (I.vma p))
  cases D with
  | cow hc D =>
    obtain ⟨m', ⟨rfl, K, _⟩ | ⟨rfl, hlt, K, _⟩⟩ := D
    · exact hkill m' C K
    refine I.of_below C G K ?_
    rintro x rfl
    refine ⟨rfl, ?_⟩
    have hup := PGROUNDUP_of_le (I.space p hp).size
    rw [slot_va hc.1]
    exact Nat.lt_of_le_of_lt (Nat.div_mul_le_self _ _) (Nat.lt_of_lt_of_le hlt hup.1)
  | file hc hit M hs =>
    subst hs
    refine I.mapped C G M ?_ hp
    have hb := M.below
    have hle : uint64 (int va) ≤ va := by
      refine uint64_int_le ?_
      rw [TRAPFRAME_eq] at hb
      simp only [PGROUNDDOWN, PGSIZE] at hb
      omega
    exact Nat.lt_of_le_of_lt (Nat.div_mul_le_self _ _) (Nat.lt_of_le_of_lt hle hit.size)
  | zero hc hno hst hlt M hs =>
    subst hs
    refine I.mapped C G M (Nat.lt_of_le_of_lt (Nat.div_mul_le_self _ _) ?_) hp
    rcases hlt with hlt | hlt
    · exact hlt
    · by_contra hge
      exact hw ⟨Nat.not_lt.mp hge, hlt, hst⟩
  | killed hc hno K hs =>
    subst hs
    exact hkill _ C K

/-! ### `argaddr` and `copyout` -/

/-- `walkaddr` finds a page for `va`. -/
def UserEntry (m : Phys) (root : TableId → Nat) (q : TableId) (va : Nat) : Prop :=
  va < MAXVA ∧ has (m.leaf (root q) (slot va)) PTE_V ∧ has (m.leaf (root q) (slot va)) PTE_U
  deriving Decidable

/-- How `argaddr` ends: the page was there, a zero page is there now, or it has failed. -/
def ArgDone (s : Sys) (p : ProcId) (va : Nat) (own : Nat → Owner) (e : Int) (s' : Sys) : Prop :=
  ∃ m' own', s' = { s with mem := m' } ∧ Counted m' s.root own' ∧ Grows (some p) own own' ∧
    ((e = 0 ∧ UserEntry s.mem s.root (some p) va ∧ m' = s.mem) ∨
      (e = 0 ∧ (s.proc p).aboveStack va ∧ va < (s.proc p).sz ∧
        Mapped s.root (some p) (PGROUNDDOWN va) (PTE_R ||| PTE_W ||| PTE_X ||| PTE_U) (fun _ => 0)
          s.mem m') ∨
      (e = -1 ∧ ¬ UserEntry s.mem s.root (some p) va ∧ Keeps s.root (fun _ => False) s.mem m' ∧
        (Enough s.mem 3 → ¬ ((s.proc p).aboveStack va ∧ va < (s.proc p).sz))))

omit [Layout] in
/-- An entry for the user is not one of the kernel's, so it maps a page. -/
theorem UserEntry.page (R : Reserved m root q) (h : UserEntry m root q va) :
    va < TRAPFRAME ∧ target m root (q, slot va) = some (PTE2PA (m.leaf (root q) (slot va))) := by
  have hlt : (slot va).va < TRAPFRAME := by
    by_contra hge
    have hU := h.2.2
    rw [(R (slot va) (Nat.not_lt.mp hge)).1] at hU
    cases hU
  refine ⟨?_, target_eq_some.mpr ⟨hlt, h.2.1, rfl⟩⟩
  rw [slot_va h.1, TRAPFRAME_eq] at hlt
  rw [TRAPFRAME_eq]
  simp only [PGROUNDDOWN, PGSIZE] at hlt
  omega

section
variable (I : Inv s own) (hp : (s.proc p).pagetable ≠ 0)
include I hp

theorem argaddr_user (hu : UserEntry s.mem s.root (some p) va) : argaddr p va s = .ok (0, s) := by
  have hwalk : walkaddr (s.proc p).pagetable va s.mem = .ok (_, s.mem) :=
    (walkaddr_user (p := some p) I.counted.space hp hu.1 hu.2.1 hu.2.2 :)
  have hpos := (I.counted.user _ _ (hu.page (I.space p hp).reserved).2).1.pos
  rw [argaddr, get_bind_apply]
  simp only [bind_of_ok (onMem_of_ok hwalk)]
  rw [if_pos hpos]
  rfl

theorem argaddr_spec (h : argaddr p va s = .ok (e, s')) : ArgDone s p va own e s' := by
  by_cases hu : UserEntry s.mem s.root (some p) va
  · rw [argaddr_user I hp hu] at h
    cases h
    exact ⟨s.mem, own, rfl, I.counted, .refl _ _, .inl ⟨rfl, hu, rfl⟩⟩
  have hwalk : walkaddr (s.proc p).pagetable va s.mem = .ok (0, s.mem) :=
    (walkaddr_none (p := some p) I.counted.space hp hu :)
  rw [argaddr, get_bind_apply] at h
  simp only [bind_of_ok (onMem_of_ok hwalk)] at h
  rw [if_neg (by simp)] at h
  by_cases hc : (s.proc p).aboveStack va ∧ va < (s.proc p).sz
  · rw [if_pos hc] at h
    obtain ⟨r, m1, hk, h⟩ := onMem_bind_ok h
    obtain ⟨r', m1', hk', hcase⟩ := I.counted.kalloc_fill
    rw [hk] at hk'
    cases hk'
    rcases hcase with ⟨hr, C1, K1⟩ | ⟨hr, ho, hfill⟩
    · rw [if_pos hr] at h
      cases h
      refine ⟨m1, own, rfl, C1, .refl _ _, .inr (.inr ⟨rfl, hu, K1, fun hE => ?_⟩)⟩
      exact absurd hr (hE.kalloc I.counted.space.alloc hk).1
    rw [if_neg hr] at h
    obtain ⟨_, m2, hz, h⟩ := onMem_bind_ok h
    cases hz
    obtain ⟨e', m', hm, h⟩ := onMem_bind_ok h
    obtain ⟨own', C', G, hend⟩ := mapFresh_spec (I.space p hp) hp ho (hfill _)
      (PGROUNDDOWN_aligned va) (by decide) hm
    refine ⟨m', own', ?_⟩
    rcases hend with ⟨he, K', hno⟩ | ⟨he, M⟩
    · rw [if_pos he] at h
      cases h
      refine ⟨rfl, C', G, .inr (.inr ⟨rfl, hu, K', fun hE => absurd ?_ hno⟩)⟩
      exact (hE.kalloc I.counted.space.alloc hk).2
    · rw [if_neg (by simpa using he)] at h
      cases h
      exact ⟨rfl, C', G, .inr (.inl ⟨rfl, hc.1, hc.2, M⟩)⟩
  · rw [if_neg hc] at h
    cases h
    exact ⟨s.mem, own, rfl, I.counted, .refl _ _, .inr (.inr ⟨rfl, hu, .refl _ _ _, fun _ => hc⟩)⟩

theorem argaddr_local (h : argaddr p va s = .ok (e, s')) : ∃ own', Local p s own s' own' := by
  obtain ⟨m', own', rfl, C, G, hcase⟩ := argaddr_spec I hp h
  refine ⟨own', ?_⟩
  rcases hcase with ⟨_, _, rfl⟩ | ⟨_, _, hlt, M⟩ | ⟨_, _, K, _⟩
  · exact I.of_below C G (.refl _ (fun _ => False) _) fun _ h => h.elim
  · exact I.mapped C G M (Nat.lt_of_le_of_lt (Nat.div_mul_le_self _ _) hlt) hp
  · exact I.of_below C G K fun _ h => h.elim

theorem copyout_inv {src : List Byte}
    (h : onMem (copyout (s.proc p).pagetable va src) s = .ok (e, s')) :
    s'.proc = s.proc ∧ Inv s' own ∧ Refreshed s.root (some p) s.mem s'.mem ∧
      OnlyAt s.root (some p) va src.length s.mem s'.mem ∧
      ((view s.mem s.root (some p)).Writable va src.length →
        Keeps s.root (fun x => x.1 = some p) s.mem s'.mem) := by
  obtain ⟨m', hm, rfl⟩ := onMem_ok h
  obtain ⟨r, m1, hc, C, R, T, hview⟩ :=
    copyout_spec (p := some p) I.counted hp (I.space p hp).reserved va src
  rw [Sys.root_some, hm] at hc
  cases hc
  refine ⟨rfl, I.of_rests C (fun _ ht => ht) fun q => .of_refreshed R, R, T, fun hW x hx => ?_⟩
  have hl := T x fun h => absurd h hx
  refine ⟨hl, fun t ht => ?_⟩
  have hv := congrFun ((hview hW).1 x.1 hx) x.2
  simpa [view, target_congr hl, ht, hl] using hv

end

/-! ### `sbrk` and `mmap` -/

theorem AddrSpace.grow (A : AddrSpace m root q tf sz) (h : sz ≤ sz') (hlim : sz' ≤ TRAPFRAME) :
    AddrSpace m root q tf sz' := by
  refine ⟨A.trampoline, A.trapframe, hlim, ?_, A.beyond⟩
  intro k hk hlt
  refine A.empty k (Nat.le_trans ?_ hk) hlt
  have h1 := PGROUNDUP_of_le A.size
  have h2 := PGROUNDUP_of_le hlim
  simp only [PGSIZE] at h1 h2
  omega

omit [Layout] in
theorem Rests.of_unmap {p : TableId} {a b : Nat} (hb : b ≤ TRAPFRAME)
    (K : Keeps root (Pages p a b) m m') (U : Unmapped m' root p a b) : Rests root q m m' := by
  refine ⟨fun k hk => (K (q, k) fun h => ?_).1, fun k hk hv => ?_⟩
  · have hlt : k.va < b := h.2.2
    omega
  · by_cases h : Pages p a b (q, k)
    · obtain ⟨rfl, h1, h2⟩ := h
      exact U k h1 h2
    · rw [(K (q, k) h).1]
      exact hv

/-- Everything from the new size on has been unmapped. -/
theorem AddrSpace.shrink (A : AddrSpace m root q tf sz) (h : sz' ≤ sz)
    (K : Keeps root (Pages q (PGROUNDUP sz') (PGROUNDUP sz)) m m')
    (U : Unmapped m' root q (PGROUNDUP sz') (PGROUNDUP sz)) : AddrSpace m' root q tf sz' := by
  have A' := A.of_rests (.of_unmap (PGROUNDUP_of_le A.size).2.2.2 K U)
  refine ⟨A'.trampoline, A'.trapframe, Nat.le_trans h A.size, ?_, A'.beyond⟩
  intro k hk hlt
  by_cases hb : k.va < PGROUNDUP sz
  · exact U k hk hb
  · exact A'.empty k (Nat.not_lt.mp hb) hlt

omit [Layout] in
theorem uint64_of_nonneg {n : Int} (h : 0 ≤ n := by omega) (hlt : n < 2 ^ 64 := by omega) :
    uint64 n = n.toNat := by
  rw [uint64, Int.emod_eq_of_lt h hlt]

theorem Inv.resize (I : Inv s own) (hp : (s.proc p).pagetable ≠ 0) (C : Counted m' s.root own')
    (G : Grows (some p) own own') (K : Keeps s.root (fun x => x.1 = some p) s.mem m')
    (A : AddrSpace m' s.root (some p) (s.proc p).trapframe sz') :
    Local p s own ({ s with mem := m' }.setProc p fun pr => { pr with sz := sz' }) own' := by
  have hself : ({ s with mem := m' }.setProc p fun pr => { pr with sz := sz' }).proc p =
      { s.proc p with sz := sz' } := update_self _ _ _
  refine I.of_local C G K ?_ ?_ ?_ ?_ ?_
  · exact fun q hq => update_of_ne hq _ _
  · rw [hself]
    exact ⟨.rfl, rfl, rfl, rfl⟩
  · rw [hself]
    exact fun _ => A
  · exact fun hu => absurd (I.unused p hu).1 hp
  · rw [hself]
    exact I.vma p

section
omit [Layout]

theorem updProc_bind_apply {α : Type} (p : ProcId) (f : Proc → Proc) (g : Unit → Kern Sys α)
    (s : Sys) : (updProc p f >>= g) s = g () (s.setProc p f) := rfl

theorem setVma_bind_apply {α : Type} (p : ProcId) (i : Fin NVMA) (a : VmArea)
    (g : Unit → Kern Sys α) (s : Sys) : (setVma p i a >>= g) s =
      g () (s.setProc p fun pr => { pr with vma := update pr.vma i a }) := rfl

theorem Sys.setProc_setProc (s : Sys) (p : ProcId) (f g : Proc → Proc) :
    (s.setProc p f).setProc p g = s.setProc p fun pr => g (f pr) := by
  simp only [Sys.setProc, update_self, update_idem]

theorem Sys.setProc_self (s : Sys) (p : ProcId) (f : Proc → Proc) :
    (s.setProc p f).proc p = f (s.proc p) := update_self _ _ _

theorem Sys.setProc_ne (s : Sys) {p q : ProcId} (f : Proc → Proc) (h : q ≠ p) :
    (s.setProc p f).proc q = s.proc q := update_of_ne h _ _

end

/-- `sbrk` moves the size up, leaves everything alone, or unmaps what is above the new size. -/
theorem sys_sbrk_cases {n : Int} (h : sys_sbrk p n s = .ok (e, s')) :
    (0 < n ∧ e = int (s.proc p).sz ∧
      s' = s.setProc p fun pr => { pr with sz := (pr.sz + uint64 n) % 2 ^ 64 }) ∨
    (¬ 0 < n ∧ e = -1 ∧ ¬ 0 < ((s.proc p).sz + uint64 n) % 2 ^ 64 ∧ s' = s) ∨
    (¬ 0 < n ∧ e = int (s.proc p).sz ∧ 0 < ((s.proc p).sz + uint64 n) % 2 ^ 64 ∧
      ∃ r m', uvmdealloc (s.proc p).pagetable (s.proc p).sz
        (((s.proc p).sz + uint64 n) % 2 ^ 64) s.mem = .ok (r, m') ∧
      s' = { s with mem := m' }.setProc p fun pr => { pr with sz := r }) := by
  rw [sys_sbrk, get_bind_apply] at h
  by_cases hn : n > 0
  · rw [if_pos hn] at h
    injection h with h
    injection h with he hs
    exact .inl ⟨hn, he.symm, hs.symm⟩
  rw [if_neg hn] at h
  split at h
  case isFalse hpos =>
    injection h with h
    injection h with he hs
    exact .inr (.inl ⟨hn, he.symm, hpos, hs.symm⟩)
  case isTrue hpos =>
    obtain ⟨r, m', hd, h⟩ := onMem_bind_ok h
    injection h with h
    injection h with he hs
    exact .inr (.inr ⟨hn, he.symm, hpos, r, m', hd, hs.symm⟩)

theorem sys_sbrk_local (I : Inv s own) (hp : (s.proc p).pagetable ≠ 0) {n : Int}
    (hlim : (s.proc p).sz + n.toNat ≤ TRAPFRAME) (h : sys_sbrk p n s = .ok (e, s')) :
    Local p s own s' own := by
  have A := I.space p hp
  rcases sys_sbrk_cases h with ⟨hn, _, rfl⟩ | ⟨_, _, _, rfl⟩ | ⟨_, _, _, r, m', hd, rfl⟩
  · have hu : uint64 n = n.toNat := by
      rw [TRAPFRAME_eq] at hlim
      exact uint64_of_nonneg
    have hsz : ((s.proc p).sz + uint64 n) % 2 ^ 64 = (s.proc p).sz + n.toNat := by
      rw [TRAPFRAME_eq] at hlim
      omega
    have L := I.resize hp I.counted (.refl _ _) (.refl _ _ _) (A.grow (Nat.le_add_right _ _) hlim)
    rw [← hsz] at L
    exact L
  · exact .refl I p
  · obtain ⟨hr, C, K, U⟩ := uvmdealloc_spec (p := some p) I.counted hp A.size hd
    exact I.resize hp C (.refl _ _) (K.mono fun _ h => h.1) (A.shrink (by omega) K U)

/-- The process after `mmap` has put the area `a` into the slot `i` of its table. -/
def Proc.mapArea (pr : Proc) (i : Fin NVMA) (a : VmArea) : Proc :=
  { pr with vma := update pr.vma i a, sz := (pr.sz + uint64 a.len) % 2 ^ 64 }

omit [Layout] in
theorem mmapSlot_some {vma : Fin NVMA → VmArea} {sz : Nat} {writable : Bool} {i : Fin NVMA}
    (h : mmapSlot vma sz writable addr length prot flags offset = some i) :
    addr = 0 ∧ offset = 0 ∧ 0 ≤ length ∧
      ¬ (writable = false ∧ allows prot PROT_WRITE ∧ flags = MAP_SHARED) ∧
      (sz + uint64 length) % 2 ^ 64 ≤ MAXVA ∧ (vma i).used = false := by
  obtain ⟨hargs, h⟩ := Option.ite_none_left_eq_some.mp h
  obtain ⟨hfile, h⟩ := Option.ite_none_left_eq_some.mp h
  obtain ⟨hmax, h⟩ := Option.ite_none_left_eq_some.mp h
  have hunused := List.find?_some h
  exact ⟨by omega, by omega, by omega, hfile, by omega, by simpa using hunused⟩

omit [Layout] in
theorem sys_mmap_cases {r : Option Nat}
    (h : sys_mmap p addr length prot flags vfile offset s = .ok (r, s')) :
    (r = none ∧ s' = s) ∨
    (r = some (s.proc p).sz ∧ addr = 0 ∧ offset = 0 ∧ 0 ≤ length ∧
      ¬ ((s.file vfile).writable = false ∧ allows prot PROT_WRITE ∧ flags = MAP_SHARED) ∧
      ((s.proc p).sz + uint64 length) % 2 ^ 64 ≤ MAXVA ∧
      ∃ i, ((s.proc p).vma i).used = false ∧ s' = s.setProc p fun pr =>
        pr.mapArea i ⟨true, pr.sz, length, prot, flags, vfile, offset⟩) := by
  rw [sys_mmap, get_bind_apply] at h
  cases hi : mmapSlot (s.proc p).vma (s.proc p).sz (s.file vfile).writable addr length prot flags
      offset with
  | none =>
    simp only [hi] at h
    cases h
    exact .inl ⟨rfl, rfl⟩
  | some i =>
    simp only [hi] at h
    obtain ⟨haddr, hoff, hlen, hfile, hmax, hunused⟩ := mmapSlot_some hi
    rw [setVma_bind_apply, updProc_bind_apply, pure_apply, Sys.setProc_setProc] at h
    injection h with h
    injection h with hr hs
    exact .inr ⟨hr.symm, haddr, hoff, hlen, hfile, hmax, i, hunused, hs.symm⟩

theorem sys_mmap_local (I : Inv s own) (hp : (s.proc p).pagetable ≠ 0) {r : Option Nat}
    (hint : length < 2 ^ 31) (hlim : (s.proc p).sz + length.toNat ≤ TRAPFRAME)
    (h : sys_mmap p addr length prot flags vfile offset s = .ok (r, s')) :
    Local p s own s' own := by
  rcases sys_mmap_cases h with ⟨_, rfl⟩ | ⟨_, _, _, h0, _, _, i, _, rfl⟩
  · exact .refl I p
  have hu : uint64 length = length.toNat := uint64_of_nonneg
  have hsz : ((s.proc p).sz + uint64 length) % 2 ^ 64 = (s.proc p).sz + length.toNat := by
    rw [TRAPFRAME_eq] at hlim
    omega
  refine I.of_local I.counted (.refl (some p) own) (.refl _ _ _)
    (fun q hq => Sys.setProc_ne _ _ hq) ?_ ?_ ?_ ?_
  · rw [Sys.setProc_self]
    exact ⟨.rfl, rfl, rfl, rfl⟩
  · intro _
    rw [Sys.setProc_self]
    simp only [Proc.mapArea, hsz]
    exact (I.space p hp).grow (by omega) hlim
  · exact fun hunused => absurd (I.unused p hunused).1 hp
  · intro j
    rw [Sys.setProc_self]
    by_cases hj : j = i
    · subst hj
      simp only [Proc.mapArea, update_self]
      exact fun _ => ⟨h0, hint, hlim⟩
    · simp only [Proc.mapArea, update_of_ne hj]
      exact I.vma p j

/-! ### Files -/

omit [Layout] in
theorem copyin_read (pt fuel va len : Nat) : Calm Eq "walk" (copyinFrom pt fuel va len) := by
  induction fuel generalizing va len with
  | zero => cases len <;> exact .pure _
  | succ fuel ih =>
    cases len with
    | zero => exact .pure _
    | succ len =>
      refine .bind (walkaddr_read _ _) fun pa => ?_
      split
      · exact .pure _
      · exact .bind .get fun s => .bind (ih _ _) fun rest => .pure _

/-- Only files have changed. -/
def FilesOnly (s s' : Sys) : Prop := s' = { s with file := s'.file, inode := s'.inode }

instance : IsPreorder Sys FilesOnly where
  refl _ := rfl
  trans _ _ _ h₁ h₂ := by rw [FilesOnly, h₂, h₁]

section
omit [Layout]

theorem FilesOnly.mem (h : FilesOnly s s') : s'.mem = s.mem := by rw [h]

theorem FilesOnly.proc (h : FilesOnly s s') : s'.proc = s.proc := by rw [h]

theorem writeiLoop_loads (src off n : Nat) (data : List Byte) :
    (writeiLoop fuel src off n data).Loads := by
  induction fuel generalizing src off n data with
  | zero => trivial
  | succ fuel ih =>
    rw [writeiLoop]
    split
    · trivial
    · intro r
      cases r with
      | none => trivial
      | some bytes => exact ih _ _ _ _

theorem filewriteLoop_loads (i : Nat) (data : List Byte) (off : Nat) :
    (filewriteLoop addr n fuel i data off).Loads := by
  induction fuel generalizing i data off with
  | zero => trivial
  | succ fuel ih =>
    rw [filewriteLoop]
    split
    · refine .bind ?_ fun x => ?_
      · rw [writeiUser]
        split
        · trivial
        split
        · trivial
        · exact .bind (writeiLoop_loads _ _ _ _) fun _ => trivial
      · split
        · trivial
        · exact ih _ _ _
    · trivial

theorem onMem_files {x : Kern Phys α} (h : Calm Eq "walk" x) : Calm FilesOnly "walk" (onMem x) := by
  refine ⟨fun s a s' hx => ?_, fun e he => .zoom (h.2 e he)⟩
  obtain ⟨m', hm, rfl⟩ := onMem_ok hx
  rw [← h.1 _ _ _ hm]
  rfl

end

theorem exec_read {x : Routine Byte α} (h : x.Loads) : Calm Eq "walk" (x.exec (userOps pt)) := by
  induction x with
  | done a => exact .pure _
  | load va len k ih => exact .bind (copyin_read _ _ _ _) fun r => ih r (h r)
  | store va bs k => exact h.elim

theorem filewrite_files (f : Nat) (n : Int) : Calm FilesOnly "walk" (filewrite pt f addr n) := by
  refine .bind .get fun s => ?_
  dsimp only
  split
  · exact .pure _
  split
  · exact .pure _
  split
  · exact .pure _
  split
  · exact .pure _
  · exact .bind (onMem_files (exec_read (filewriteLoop_loads _ _ _))) fun x =>
      .bind (.modify fun _ => rfl) fun _ => .pure _

theorem writeBack_files {a : VmArea} : Calm FilesOnly "walk" (writeBack p a addr length) := by
  refine .bind .get fun s => ?_
  split
  · exact .bind (filewrite_files _ _) fun _ => .pure _
  · exact .pure _

/-! ### `munmap` -/

/-- What `munmap` makes of an area: one that is used up is not used any more. -/
def VmArea.closed (a : VmArea) : VmArea := if a.len = 0 then { a with used := false } else a

/-- `p->vma[i] = a` -/
def Proc.withVma (i : Fin NVMA) (a : VmArea) (pr : Proc) : Proc :=
  { pr with vma := update pr.vma i a }

omit [Layout] in
theorem Sys.withVma_withVma (s : Sys) (p : ProcId) (i : Fin NVMA) (a b : VmArea) :
    (s.setProc p (Proc.withVma i a)).setProc p (Proc.withVma i b) =
      s.setProc p (Proc.withVma i b) := by
  rw [Sys.setProc_setProc]
  congr 1
  funext pr
  simp only [Proc.withVma, update_idem]

theorem sys_munmap_cases (h : sys_munmap p addr length s = .ok (e, s')) :
    (e = -1 ∧ s' = s) ∨
    (e = 0 ∧ ∃ i a s1 m', findCut (s.proc p).vma addr length = some (i, a) ∧
      writeBack p a addr length (s.setProc p (Proc.withVma i a)) = .ok ((), s1) ∧
      uvmunmap (s.proc p).pagetable addr (pages length) true s.mem = .ok ((), m') ∧
      s' = { s with mem := m', file := s1.file, inode := s1.inode }.setProc p
        (Proc.withVma i a.closed)) := by
  rw [sys_munmap, get_bind_apply] at h
  cases hf : findCut (s.proc p).vma addr length with
  | none =>
    rw [hf] at h
    cases h
    exact .inl ⟨rfl, rfl⟩
  | some x =>
    obtain ⟨i, a⟩ := x
    simp only [hf] at h
    rw [setVma_bind_apply] at h
    obtain ⟨_, s1, hw, h⟩ := bind_ok h
    obtain ⟨_, m', hu, h⟩ := onMem_bind_ok h
    obtain ⟨_, s2, hv, h⟩ := bind_ok h
    cases h
    have hfiles := writeBack_files.1 _ _ _ hw
    rw [hfiles.mem] at hu
    refine .inr ⟨rfl, i, a, s1, m', rfl, hw, hu, ?_⟩
    have hs1 : { s1 with mem := m' } =
        { s with mem := m', file := s1.file, inode := s1.inode }.setProc p (Proc.withVma i a) := by
      rw [hfiles]
      rfl
    rw [VmArea.closed]
    by_cases ha : a.len = 0
    · rw [when_pos ha, hs1] at hv
      cases hv
      rw [if_pos ha]
      exact Sys.withVma_withVma _ _ _ _ _
    · rw [when_neg ha] at hv
      cases hv
      rw [if_neg ha]
      exact hs1

/-- The bytes that `munmap` takes lie at the start or at the end of the area. -/
structure Cut (v : VmArea) (addr : Nat) (length : Int) (a : VmArea) : Prop where
  used : v.used = true
  le : length ≤ v.len
  start : v.addr ≤ addr
  stop : addr + length.toNat ≤ v.addr + v.len.toNat
  rest : (addr = v.addr ∧ a = { v with addr := addr + length.toNat, len := v.len - length }) ∨
    (addr + length.toNat = v.addr + v.len.toNat ∧ a = { v with len := v.len - length })

omit [Layout] in
theorem int_of_small {n : Int} (h : -(2 ^ 31) ≤ n := by omega) (hlt : n < 2 ^ 31 := by omega) :
    int n = n := by
  simp only [int, Int.bmod]
  split <;> omega

omit [Layout] in
theorem findCut_some {vma : Fin NVMA → VmArea} {i : Fin NVMA} {a : VmArea}
    (h : findCut vma addr length = some (i, a)) : (vma i).cut addr length = some a := by
  rw [findCut, List.findSome?_eq_some_iff] at h
  obtain ⟨_, j, _, _, hj, _⟩ := h
  obtain ⟨b, hb, he⟩ := Option.map_eq_some_iff.mp hj
  cases he
  exact hb

/-- The end of the area is an address. -/
def VmArea.Fits (v : VmArea) : Prop :=
  v.used = true → 0 ≤ v.len ∧ v.len < 2 ^ 31 ∧ v.addr + v.len.toNat < 2 ^ 64

variable {v : VmArea}

section
omit [Layout]

theorem VmArea.Inside.fits (h : v.Inside) : v.Fits := by
  intro hu
  obtain ⟨h0, hl, hend⟩ := h hu
  rw [TRAPFRAME_eq] at hend
  exact ⟨h0, hl, by omega⟩

theorem VmArea.cut_some {a : VmArea} (hv : v.Fits) (haddr : addr < 2 ^ 64) (h0 : 0 ≤ length)
    (h : v.cut addr length = some a) : Cut v addr length a := by
  rw [VmArea.cut] at h
  split at h
  case isTrue => cases h
  case isFalse hused =>
    obtain ⟨hl0, hl, hend⟩ := hv (by simpa using fun hf => hused (.inl hf))
    have hle : length ≤ v.len := by omega
    have hu : uint64 length = length.toNat := uint64_of_nonneg
    have hul : uint64 v.len = v.len.toNat := uint64_of_nonneg
    rw [hu, hul, int_of_small] at h
    have hused' : v.used = true := by simpa using fun hf => hused (.inl hf)
    split at h
    case isTrue ha =>
      cases h
      refine ⟨hused', hle, by omega, by omega, .inl ⟨ha.symm, ?_⟩⟩
      rw [Nat.mod_eq_of_lt (by omega), ha]
    case isFalse ha =>
      split at h
      case isTrue he =>
        cases h
        have : addr + length.toNat = v.addr + v.len.toNat := by omega
        exact ⟨hused', hle, by omega, by omega, .inr ⟨this, rfl⟩⟩
      case isFalse => cases h

theorem Cut.inside {a : VmArea} (c : Cut v addr length a) (h0 : 0 ≤ length) (hv : v.Inside) :
    a.Inside := by
  obtain ⟨hl0, hl, hend⟩ := hv c.used
  have hle := c.le
  have hstop := c.stop
  rcases c.rest with ⟨_, rfl⟩ | ⟨_, rfl⟩
  · exact fun _ => ⟨by dsimp only; omega, by dsimp only; omega, by dsimp only; omega⟩
  · exact fun _ => ⟨by dsimp only; omega, by dsimp only; omega, by dsimp only; omega⟩

theorem VmArea.Inside.closed {a : VmArea} (h : a.Inside) : a.closed.Inside := by
  rw [VmArea.closed]
  split
  · intro hf
    cases hf
  · exact h

theorem pages_le (h0 : 0 ≤ length) (hlt : length < 2 ^ 31) :
    pages length * PGSIZE ≤ length.toNat := by
  have hdiv : length.tdiv PGSIZE = length / 4096 := Int.tdiv_eq_ediv_of_nonneg h0
  rw [pages, hdiv, uint64_of_nonneg]
  simp only [PGSIZE]
  omega

end

theorem Inv.unmap (I : Inv s own) {a b : Nat} (hb : b ≤ TRAPFRAME) (C : Counted m' s.root own')
    (G : Grows (some p) own own') (K : Keeps s.root (Pages (some p) a b) s.mem m')
    (U : Unmapped m' s.root (some p) a b) : Local p s own { s with mem := m' } own' :=
  ⟨I.of_rests C G.hold fun _ => .of_unmap hb K U, G, K.mono fun _ h => h.1, fun _ _ => rfl, .refl _⟩

/-- Files have changed, and the entry `i` of the table of mapped files. -/
theorem Local.withVma (L : Local p s own s' own') (hf : FilesOnly s' s₁) {i : Fin NVMA}
    {a : VmArea} (ha : a.Inside) : Local p s own (s₁.setProc p (Proc.withVma i a)) own' := by
  rw [hf]
  have I : Inv { s' with file := s₁.file, inode := s₁.inode } own' := L.inv.congr rfl rfl
  have L' := L.trans ⟨I, .refl _ _, .refl _ _ _, fun _ _ => rfl, .refl _⟩
  refine L'.trans (I.of_proc ⟨.rfl, rfl, rfl, rfl⟩ rfl ?_)
  intro j
  by_cases hj : j = i
  · subst hj
    simpa only [Proc.withVma, update_self] using ha
  · simpa only [Proc.withVma, update_of_ne hj] using I.vma p j

theorem sys_munmap_local (I : Inv s own) (hp : (s.proc p).pagetable ≠ 0) (haddr : addr < 2 ^ 64)
    (h0 : 0 ≤ length) (h : sys_munmap p addr length s = .ok (e, s')) : Local p s own s' own := by
  rcases sys_munmap_cases h with ⟨_, rfl⟩ | ⟨_, i, a, s1, m', hf, hw, hu, rfl⟩
  · exact .refl I p
  have hv := I.vma p i
  have c := VmArea.cut_some hv.fits haddr h0 (findCut_some hf)
  obtain ⟨_, hl, hend⟩ := hv c.used
  have hle := c.le
  have hstop := c.stop
  have hpages := pages_le h0 (by omega)
  have hlim : addr + pages length * PGSIZE ≤ TRAPFRAME := by omega
  obtain ⟨C, K, U⟩ := uvmunmap_spec (p := some p) I.counted hp hlim hu
  have hfiles : FilesOnly { s with mem := m' }
      { s with mem := m', file := s1.file, inode := s1.inode } := rfl
  exact (I.unmap hlim C (.refl _ _) K U).withVma hfiles (c.inside h0 hv).closed

end Yyds.Kernel
