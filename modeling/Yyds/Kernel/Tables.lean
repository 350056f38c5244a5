import Yyds.Kernel.Calls
import Yyds.Mm.Roots

/-! The page table of a process from `proc_pagetable` to `proc_freepagetable`. -/
namespace Yyds.Kernel

open Lib Kern Mm Function

variable [Layout] {m m' : Phys} {root : TableId → Nat} {own own' : Nat → Owner} {q c : TableId}
  {a pa tf sz : Nat} {perm : Word} {e : Int}

section
variable (C : Counted m root own) (hq : root q ≠ 0)
include C hq

theorem mappages_sys (ha : TRAPFRAME ≤ a) (hmax : a < MAXVA) (hal : a % PGSIZE = 0)
    (h : mappages (root q) a PGSIZE pa perm m = .ok (e, m')) :
    ∃ own', Counted m' root own' ∧ Grows q own own' ∧ Keeps root (· = (q, slot a)) m m' ∧
      ((e = -1 ∧ SameLeaf root m m') ∨
        (e = 0 ∧ m'.leaf (root q) (slot a) = PA2PTE pa ||| perm ||| PTE_V)) := by
  rcases C.space.mappages_spec hq hmax hal pa perm with
    ⟨m1, own1, h1, S, F, hl⟩ | ⟨h1, _⟩ | ⟨_, m1, own1, h1, S, F, P⟩
  · rw [h] at h1
    cases h1
    exact ⟨own1, C.frame S F hl, .of_frame F, C.keeps_frame F fun x _ => hl x.1 x.2, .inl ⟨rfl, hl⟩⟩
  · rw [h] at h1
    cases h1
  · rw [h] at h1
    cases h1
    refine ⟨own1, C.setSysLeaf S F P ?_, .of_frame F, C.keeps_frame F fun x hx => P.ne hx,
      .inr ⟨rfl, P.self⟩⟩
    rw [slot_va_of_aligned hmax hal]
    exact ha

theorem uvmunmap_sys (ha : TRAPFRAME ≤ a) (hmax : a < MAXVA) (hal : a % PGSIZE = 0)
    (h : uvmunmap (root q) a 1 false m = .ok ((), m')) :
    Counted m' root own ∧ Keeps root (· = (q, slot a)) m m' ∧
      has (m'.leaf (root q) (slot a)) PTE_V = false := by
  have hrounds : ((a + 1 * PGSIZE) % 2 ^ 64 - a) / PGSIZE = 1 := by
    rw [MAXVA_eq] at hmax
    simp only [PGSIZE]
    omega
  rw [uvmunmap, when_neg (by simp [hal]), pure_bind_apply, hrounds] at h
  obtain ⟨_, m1, h1, h2⟩ := bind_ok h
  cases h2
  rw [unmapOne] at h1
  rcases C.space.walk_read hq hmax with ⟨hw, h0⟩ | ⟨u, hw, hu, he⟩
  · rw [bind_of_ok hw] at h1
    cases h1
    exact ⟨C, .refl _ _ _, by rw [h0]; decide⟩
  rw [bind_of_ok hw] at h1
  simp only [get_bind_apply, he] at h1
  split at h1
  case isTrue hv =>
    cases h1
    exact ⟨C, .refl _ _ _, hv⟩
  case isFalse hv =>
    split at h1
    case isTrue => cases h1
    case isFalse =>
      cases h1
      have P : Space.PutLeaf root q (slot a) 0 m (m.setPte (u, PX 0 a) 0) :=
        C.space.leaf_setLeaf (k := slot a) hu 0
      have F : Frame q m own (m.setPte (u, PX 0 a) 0) own := by
        refine ⟨fun _ => .inl rfl, fun t ht => Phys.setPte_page_ne _ _ ?_, fun _ _ _ => rfl⟩
        rintro rfl
        exact ht q _ hu
      refine ⟨C.setSysLeaf (C.space.setLeaf hu _ _) F P ?_, C.keeps_frame F fun x hx => P.ne hx,
        by rw [P.self]; decide⟩
      rw [slot_va_of_aligned hmax hal]
      exact ha

theorem freewalk_keeps (hnone : ∀ k, has (m.leaf (root q) k) PTE_V = false)
    (h : freewalk 3 (root q) m = .ok ((), m')) :
    Counted m' (update root q 0) (fun u => (own u).drop q) ∧
      Keeps root (fun x => x.1 = q) m m' := by
  obtain ⟨m1, h1, C1, hl, hpage⟩ := freewalk_counted C hq hnone
  rw [h] at h1
  cases h1
  refine ⟨C1, fun x hx => ⟨hl x.1 hx x.2, fun t ht => hpage t fun path hp => ?_⟩⟩
  rw [(C.user x t ht).2] at hp
  cases hp

end

omit [Layout] in
theorem eq_slot_of_high {k : Slot} (h : TRAPFRAME ≤ k.va) (hva : k.va < MAXVA) :
    k = slot TRAPFRAME ∨ k = slot TRAMPOLINE := by
  have := slot_of_high h hva
  rwa [slot_of_va] at this

/-- `uvmfree` takes all pages away once the kernel's entries are gone. -/
theorem uvmfree_unmaps (C : Counted m root own) (hq : root q ≠ 0) (hsz : sz ≤ TRAPFRAME)
    (hnone : ∀ k : Slot, PGROUNDUP sz ≤ k.va → has (m.leaf (root q) k) PTE_V = false)
    (h : Kern.when (sz > 0) (uvmunmap (root q) 0 (PGROUNDUP sz / PGSIZE) true) m = .ok ((), m')) :
    Counted m' root own ∧ Keeps root (fun x => x.1 = q) m m' ∧
      ∀ k, has (m'.leaf (root q) k) PTE_V = false := by
  have hup := PGROUNDUP_of_le hsz
  by_cases hpos : sz > 0
  · have hsum : 0 + PGROUNDUP sz / PGSIZE * PGSIZE = PGROUNDUP sz := by
      simp only [PGSIZE] at *
      omega
    rw [when_pos hpos] at h
    obtain ⟨C1, K1, U1⟩ := uvmunmap_spec C hq (by rw [hsum]; exact hup.2.2.2) h
    rw [hsum] at K1 U1
    refine ⟨C1, K1.mono fun _ h => h.1, fun k => ?_⟩
    by_cases hk : k.va < PGROUNDUP sz
    · exact U1 k (Nat.zero_le _) hk
    · rw [(K1 (q, k) fun h => hk h.2.2).1]
      exact hnone k (Nat.not_lt.mp hk)
  · obtain rfl : sz = 0 := by omega
    cases h
    exact ⟨C, .refl _ _ _, fun k => hnone k (Nat.zero_le _)⟩

theorem uvmfree_spec (C : Counted m root own) (hq : root q ≠ 0) (hsz : sz ≤ TRAPFRAME)
    (hnone : ∀ k : Slot, PGROUNDUP sz ≤ k.va → has (m.leaf (root q) k) PTE_V = false)
    (h : uvmfree (root q) sz m = .ok ((), m')) :
    Counted m' (update root q 0) (fun u => (own u).drop q) ∧
      Keeps root (fun x => x.1 = q) m m' := by
  obtain ⟨_, m1, h1, h2⟩ := bind_ok h
  obtain ⟨C1, K1, hnone1⟩ := uvmfree_unmaps C hq hsz hnone h1
  obtain ⟨C2, K2⟩ := freewalk_keeps C1 hq hnone1 h2
  exact ⟨C2, K1.trans K2⟩

/-- Without the kernel's entries nothing is left above the size. -/
theorem AddrSpace.none_above {m1 m2 : Phys} (A : AddrSpace m root q tf sz)
    (K1 : Keeps root (· = (q, slot TRAMPOLINE)) m m1)
    (hv1 : has (m1.leaf (root q) (slot TRAMPOLINE)) PTE_V = false)
    (K2 : Keeps root (· = (q, slot TRAPFRAME)) m1 m2)
    (hv2 : has (m2.leaf (root q) (slot TRAPFRAME)) PTE_V = false) (k : Slot)
    (hk : PGROUNDUP sz ≤ k.va) : has (m2.leaf (root q) k) PTE_V = false := by
  by_cases ht : k = slot TRAPFRAME
  · rw [ht]
    exact hv2
  have hsame2 : m2.leaf (root q) k = m1.leaf (root q) k :=
    (K2 (q, k) fun h => ht (Prod.ext_iff.mp h).2).1
  by_cases hT : k = slot TRAMPOLINE
  · rw [hsame2, hT]
    exact hv1
  have hsame1 : m1.leaf (root q) k = m.leaf (root q) k :=
    (K1 (q, k) fun h => hT (Prod.ext_iff.mp h).2).1
  rw [hsame2, hsame1]
  by_cases hlt : k.va < TRAPFRAME
  · exact A.empty k hk hlt
  by_cases hmax : k.va < MAXVA
  · exact absurd (eq_slot_of_high (Nat.not_lt.mp hlt) hmax) (by simp [ht, hT])
  · rw [A.beyond k (Nat.not_lt.mp hmax)]
    decide

theorem proc_freepagetable_spec (C : Counted m root own) (hq : root q ≠ 0)
    (A : AddrSpace m root q tf sz) (h : proc_freepagetable (root q) sz m = .ok ((), m')) :
    Counted m' (update root q 0) (fun u => (own u).drop q) ∧
      Keeps root (fun x => x.1 = q) m m' := by
  obtain ⟨_, m1, h1, h⟩ := bind_ok h
  obtain ⟨_, m2, h2, h⟩ := bind_ok h
  obtain ⟨C1, K1, hv1⟩ := uvmunmap_sys C hq (by decide) (by decide) (by decide) h1
  obtain ⟨C2, K2, hv2⟩ := uvmunmap_sys C1 hq (Nat.le_refl _) TRAPFRAME_lt_MAXVA TRAPFRAME_aligned h2
  obtain ⟨C3, K3⟩ := uvmfree_spec C2 hq A.size (A.none_above K1 hv1 K2 hv2) h
  refine ⟨C3, ((K1.mono ?_).trans (K2.mono ?_)).trans K3⟩
  · rintro x rfl
    rfl
  · rintro x rfl
    rfl

/-- A process gets a page table `pt` with the kernel's entries only, or there is no memory. -/
def NewTable (root : TableId → Nat) (c : TableId) (tf pt : Nat) (m : Phys) (own : Nat → Owner)
    (m' : Phys) (own' : Nat → Owner) : Prop :=
  Grows c own own' ∧ Keeps root (fun _ => False) m m' ∧
    ((pt = 0 ∧ Counted m' root own') ∨
      (pt ≠ 0 ∧ Counted m' (update root c pt) own' ∧
        AddrSpace m' (update root c pt) c tf 0))

theorem NewTable.failed {m1 : Phys} {own1 : Nat → Owner} {r : Nat} (S : Space m root own)
    (hc : root c = 0) (hr : r ≠ 0) (C : Counted m1 (update root c r) own1)
    (G : Grows c own own1) (K : Keeps root (fun x => x.1 = c) m m1)
    (hnone : ∀ k : Slot, has (m1.leaf r k) PTE_V = false) (h : uvmfree r 0 m1 = .ok ((), m')) :
    ∃ own', NewTable root c tf 0 m own m' own' := by
  have hself : update root c r c = r := update_self _ _ _
  obtain ⟨C', K'⟩ := uvmfree_spec C (by rwa [hself]) (Nat.zero_le _)
    (fun k _ => by rw [hself]; exact hnone k) (by rwa [hself])
  have hback : update (update root c r) c 0 = root := by
    rw [update_idem, ← hc, update_eq_self]
  rw [hback] at C'
  have K'' : Keeps root (fun x => x.1 = c) m1 m' :=
    K'.congr_root fun x hx => (update_of_ne hx _ _).symm
  exact ⟨_, G.dropped (S.no_table hc), (K.trans K'').of_no_table hc, .inl ⟨rfl, C'⟩⟩

theorem uvmcreate_spec {r : Nat} (tf : Nat) (C : Counted m root own) (hc : root c = 0)
    (h : uvmcreate m = .ok (r, m')) :
    (r = 0 ∧ NewTable root c tf 0 m own m' own) ∨
    (r ≠ 0 ∧ ∃ own', Counted m' (update root c r) own' ∧ Grows c own own' ∧
      Keeps root (fun _ => False) m m' ∧ ∀ k, m'.leaf r k = 0) := by
  obtain ⟨r', m0, hk, h⟩ := bind_ok h
  obtain ⟨r'', m0', hk', hcase⟩ := C.kalloc_fill
  rw [hk] at hk'
  cases hk'
  rcases hcase with ⟨hr, C0, K0⟩ | ⟨hr, ho, hfill⟩
  · rw [if_pos hr] at h
    cases h
    exact .inl ⟨rfl, .refl _ _, K0, .inl ⟨rfl, C0⟩⟩
  rw [if_neg hr] at h
  cases h
  obtain ⟨C0, K0⟩ := hfill fun _ => 0
  have hheld : update own r Owner.held r = .held := update_self _ _ _
  have C1 := C0.addRoot hc hheld
  have hl := C0.space.leaf_addRoot hc hheld c
  have hidem : (m0.setPage r fun _ => 0).setPage r (fun _ => 0) = m0.setPage r fun _ => 0 := by
    simp only [Phys.setPage, update_idem]
  rw [hidem, update_idem] at C1
  rw [hidem, update_self] at hl
  refine .inr ⟨hr, _, C1, ⟨?_, ?_, ?_⟩, K0, fun k => ?_⟩
  · intro t
    by_cases htr : t = r
    · subst htr
      simp [ho]
    · rw [update_of_ne htr]
  · intro q hq t path
    by_cases htr : t = r
    · subst htr
      simp only [update_self, ho, Owner.table.injEq, reduceCtorEq, iff_false, not_and]
      exact fun h => absurd h.symm hq
    · rw [update_of_ne htr]
  · intro t path ht
    exact absurd ht (C.space.no_table hc t path)
  · rw [hl k, hc]
    rfl

theorem proc_pagetable_spec {pt : Nat} (C : Counted m root own) (hc : root c = 0)
    (h : proc_pagetable tf m = .ok (pt, m')) : ∃ own', NewTable root c tf pt m own m' own' := by
  have hTm : TRAMPOLINE < MAXVA := by decide
  have hTa : TRAMPOLINE % PGSIZE = 0 := by decide
  have hTt : TRAPFRAME ≤ TRAMPOLINE := by decide
  obtain ⟨r, m1, hcr, h⟩ := bind_ok h
  rcases uvmcreate_spec tf C hc hcr with ⟨rfl, N⟩ | ⟨hr, own1, C1, G1, K1, hz⟩
  · cases h
    exact ⟨own, N⟩
  rw [if_neg hr] at h
  have hself : update root c r c = r := update_self _ _ _
  have hne : update root c r c ≠ 0 := by rwa [hself]
  have hroot : ∀ {n n' : Phys} {k : Slot}, Keeps (update root c r) (· = (c, k)) n n' →
      Keeps root (fun x => x.1 = c) n n' := by
    intro n n' k K
    refine (K.mono ?_).congr_root fun x hx => (update_of_ne hx _ _).symm
    rintro x rfl
    rfl
  have K1' : Keeps root (fun x => x.1 = c) m m1 := K1.mono fun _ h => h.elim
  obtain ⟨e2, m2, h2, h⟩ := bind_ok h
  obtain ⟨own2, C2, G2, K2, hcase⟩ := mappages_sys C1 hne hTt hTm hTa
    (by rw [hself]; exact h2)
  rcases hcase with ⟨rfl, hl2⟩ | ⟨rfl, hl2⟩
  · obtain ⟨_, m3, h3, h⟩ := bind_ok h
    cases h
    refine NewTable.failed C.space hc hr C2 (G1.trans G2) (K1'.trans (hroot K2)) (fun k => ?_) h3
    have := hl2 c k
    rw [hself] at this
    rw [this, hz]
    decide
  obtain ⟨e3, m3, h3, h⟩ := bind_ok h
  obtain ⟨own3, C3, G3, K3, hcase⟩ := mappages_sys C2 hne (Nat.le_refl _)
    TRAPFRAME_lt_MAXVA TRAPFRAME_aligned (by rw [hself]; exact h3)
  have hother : ∀ {k : Slot}, k ≠ slot TRAPFRAME → k ≠ slot TRAMPOLINE → m3.leaf r k = 0 := by
    intro k hk hk'
    have h2 := (K2 (c, k) fun h => hk' (Prod.ext_iff.mp h).2).1
    have h3 := (K3 (c, k) fun h => hk (Prod.ext_iff.mp h).2).1
    rw [hself] at h2 h3
    rw [h3, h2, hz]
  have hT : m3.leaf r (slot TRAMPOLINE) = trampolinePte := by
    have h3 := (K3 (c, slot TRAMPOLINE) fun h =>
      absurd (Prod.ext_iff.mp h).2 (by dsimp only; decide)).1
    rw [hself] at h3 hl2
    rw [h3, hl2, trampolinePte]
  rcases hcase with ⟨rfl, hl3⟩ | ⟨rfl, hl3⟩
  · obtain ⟨_, m4, h4, h⟩ := bind_ok h
    obtain ⟨_, m5, h5, h⟩ := bind_ok h
    cases h
    obtain ⟨C4, K4, hv4⟩ := uvmunmap_sys C3 hne hTt hTm hTa (by rw [hself]; exact h4)
    refine NewTable.failed C.space hc hr C4 ((G1.trans G2).trans G3)
      (((K1'.trans (hroot K2)).trans (hroot K3)).trans (hroot K4)) (fun k => ?_) h5
    by_cases hkT : k = slot TRAMPOLINE
    · rw [hkT]
      rwa [hself] at hv4
    have h4 := (K4 (c, k) fun h => hkT (Prod.ext_iff.mp h).2).1
    have h3 := hl3 c k
    have h2 := (K2 (c, k) fun h => hkT (Prod.ext_iff.mp h).2).1
    rw [hself] at h2 h3 h4
    rw [h4, h3, h2, hz]
    decide
  · cases h
    refine ⟨own3, (G1.trans G2).trans G3, ((K1'.trans (hroot K2)).trans (hroot K3)).of_no_table hc,
      .inr ⟨hr, C3, ?_⟩⟩
    refine ⟨by rw [hself, hT], by rw [hl3, trapframePte], Nat.zero_le _, ?_, ?_⟩
    · intro k _ hlt
      rw [hself, hother]
      · decide
      · rintro rfl
        exact absurd hlt (by rw [slot_TRAPFRAME_va]; decide)
      · rintro rfl
        exact absurd hlt (by rw [slot_TRAMPOLINE_va]; decide)
    · intro k hk
      rw [hself]
      refine hother ?_ ?_
      · rintro rfl
        exact absurd hk (by rw [slot_TRAPFRAME_va]; decide)
      · rintro rfl
        exact absurd hk (by rw [slot_TRAMPOLINE_va]; decide)

end Yyds.Kernel
