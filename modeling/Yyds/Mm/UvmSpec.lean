import Yyds.Mm.View

/-! Growing an address space, copying it for a fork, and taking it down. -/
namespace Yyds.Mm

open Lib Kern Layout Function

variable [Layout] {s s' s1 : Phys} {root : TableId → Nat} {own own' : Nat → Owner}
  {p q c : TableId} {va a r : Nat} {perm : Word} {e : Int}

/-- Mapping a page that the kernel got from `kalloc`: the entry is written, or nothing has
changed and the page is free again. -/
theorem mapOrFree_spec (C : Counted s root (update own r .held)) (ho : own r = .user)
    (hp : root p ≠ 0) (hva : va < TRAPFRAME) (hal : va % PGSIZE = 0) (hperm : IsFlags perm)
    (h : mapOrFree (root p) va r perm s = .ok (e, s')) :
    ∃ own', Counted s' root own' ∧ Grows p own own' ∧
      ((e ≠ 0 ∧ Keeps root (fun _ => False) s s') ∨
        (e = 0 ∧ has (s.leaf (root p) (slot va)) PTE_V = false ∧ s'.page r = s.page r ∧
          Space.PutLeaf root p (slot va) (PA2PTE r ||| perm ||| PTE_V) s s' ∧
          Keeps root (· = (p, slot va)) s s')) := by
  have hmax : va < MAXVA := lt_MAXVA hva
  have hr : update own r Owner.held r = .held := update_self _ _ _
  obtain ⟨e', s1, hmap, hrest⟩ := bind_ok h
  rcases C.space.mappages_spec hp hmax hal r perm with
    ⟨s2, own2, h2, S2, F, hl⟩ | ⟨h2, _⟩ | ⟨hnv, s2, own2, h2, S2, F, P⟩
  · rw [h2] at hmap
    cases hmap
    have C2 := C.frame S2 F hl
    obtain ⟨s3, hk, hpage, _, hl3, C3⟩ := C2.kfree_held (F.held_kept hr)
    rw [when_pos (by decide), bind_of_ok hk] at hrest
    cases hrest
    refine ⟨_, C3, .of_held ho (.of_frame F), .inl ⟨by decide, ?_⟩⟩
    refine (C.keeps_frame F fun x _ => hl x.1 x.2).trans (C2.keeps_none hl3 ?_ _)
    intro t ht _
    refine hpage t ?_
    rintro rfl
    rw [F.held_kept hr] at ht
    cases ht
  · rw [h2] at hmap
    cases hmap
  · rw [h2] at hmap
    cases hmap
    cases hrest
    obtain ⟨hm, _⟩ := C.space.held r hr
    have hk : (slot va).va < TRAPFRAME := by
      rw [slot_va_of_aligned hmax hal]
      exact hva
    have C2 := C.map_held hr S2 F P hk hnv (has_mk_V _) (PTE2PA_mk_V hm.1 hm.lt hperm)
    refine ⟨_, C2, .of_held ho (.of_frame F), .inr ⟨rfl, hnv, ?_, P, ?_⟩⟩
    · exact F.page r (Owner.held_ne_table (F.held_kept hr))
    · exact C.keeps_frame F fun x hx => P.ne hx

/-- A page from `kalloc`, filled with whatever the caller wants. -/
theorem Counted.kalloc_fill (C : Counted s root own) : ∃ r s1, Mm.kalloc s = .ok (r, s1) ∧
    ((r = 0 ∧ Counted s1 root own ∧ Keeps root (fun _ => False) s s1) ∨
      (r ≠ 0 ∧ own r = .user ∧ ∀ pg, Counted (s1.setPage r pg) root (update own r .held) ∧
        Keeps root (fun _ => False) s (s1.setPage r pg))) := by
  obtain ⟨r, s1, hk, hl, hcase⟩ := C.kalloc
  refine ⟨r, s1, hk, ?_⟩
  rcases hcase with ⟨rfl, _, hp, _, C1⟩ | ⟨hm, hz, ho, hp, hc, C1⟩
  · exact .inl ⟨rfl, C1, C.keeps_none hl (fun _ _ _ => by rw [hp]) _⟩
  refine .inr ⟨hm.pos, ho, fun pg => ?_⟩
  have hr : update own r Owner.held r = .held := update_self _ _ _
  obtain ⟨C2, hl2⟩ := C1.setPage pg (Owner.held_ne_table hr) fun _ => by
    rw [(C1.space.held r hr).2]
    decide
  refine ⟨C2, C.keeps_none (fun q k => (hl2 q k).trans (hl q k)) ?_ _⟩
  intro t _ ht
  have htr : t ≠ r := by
    rintro rfl
    exact ht hz
  exact (update_of_ne htr _ _).trans (hp t htr)

/-! ### `uvmalloc` -/

/-- `uvmalloc` has failed: what it mapped it has taken back. -/
def GrowFailed (root : TableId → Nat) (p : TableId) (base : Nat) (s s' : Phys) : Prop :=
  ∃ b ≤ TRAPFRAME, Keeps root (Pages p base b) s s' ∧ Unmapped s' root p base b

omit [Layout] in
theorem PGROUNDUP_of_aligned (h : a ≤ TRAPFRAME) (hal : a % PGSIZE = 0) : PGROUNDUP a = a := by
  simp only [PGROUNDUP, PGSIZE, TRAPFRAME_eq] at *
  omega

theorem uvmalloc_undo {base : Nat} (C : Counted s' root own) (hp : root p ≠ 0) (hba : base ≤ a)
    (ha : a ≤ TRAPFRAME) (hbal : base % PGSIZE = 0) (hal : a % PGSIZE = 0)
    (K : Keeps root (Pages p base a) s s') (h : uvmdealloc (root p) a base s' = .ok (r, s1)) :
    Counted s1 root own ∧ GrowFailed root p base s s1 := by
  obtain ⟨hr, C1, K1, U1⟩ := uvmdealloc_spec C hp ha h
  obtain rfl : r = base := by omega
  rw [PGROUNDUP_of_aligned ha hal, PGROUNDUP_of_aligned (by omega) hbal] at K1 U1
  exact ⟨C1, a, ha, K.trans K1, U1⟩

theorem uvmallocFrom_spec {base newsz n : Nat} (C : Counted s' root own) (hp : root p ≠ 0)
    (hba : base ≤ a) (ha : a ≤ TRAPFRAME) (hbal : base % PGSIZE = 0) (hal : a % PGSIZE = 0)
    (htf : has (s'.leaf (root p) (slot TRAPFRAME)) PTE_V) (K : Keeps root (Pages p base a) s s')
    (h : uvmallocFrom (root p) base newsz n a s' = .ok (r, s1)) :
    ∃ own', Counted s1 root own' ∧ Grows p own own' ∧
      ((r = 0 ∧ GrowFailed root p base s s1) ∨ (r = newsz ∧ a + n * PGSIZE ≤ TRAPFRAME ∧
        Keeps root (Pages p base (a + n * PGSIZE)) s s1)) := by
  induction n generalizing a s' own with
  | zero =>
    cases h
    exact ⟨own, C, .refl _ _, .inr ⟨rfl, by omega, by simpa using K⟩⟩
  | succ n ih =>
    rw [uvmallocFrom] at h
    obtain ⟨mem, s2, hk, hcase⟩ := C.kalloc_fill
    rw [bind_of_ok hk] at h
    rcases hcase with ⟨rfl, C2, K2⟩ | ⟨hmem, ho, hfill⟩
    · obtain ⟨_, s3, h3, h4⟩ := bind_ok h
      cases h4
      obtain ⟨C3, G⟩ := uvmalloc_undo C2 hp hba ha hbal hal (K.trans (K2.mono (by simp))) h3
      exact ⟨own, C3, .refl _ _, .inl ⟨rfl, G⟩⟩
    rw [if_neg hmem, memset, modify_bind_apply] at h
    obtain ⟨C2, K2⟩ := hfill fun _ => 0
    obtain ⟨e, s3, hmap, hrest⟩ := bind_ok h
    have htf2 : has ((s2.setPage mem fun _ => 0).leaf (root p) (slot TRAPFRAME)) PTE_V := by
      rw [(K2 (p, slot TRAPFRAME) fun h => h).1]
      exact htf
    have hlt : a < TRAPFRAME := by
      by_contra hge
      obtain rfl : a = TRAPFRAME := by omega
      obtain ⟨_, _, h1, _⟩ := bind_ok hmap
      rw [C2.space.mappages_remap TRAPFRAME_lt_MAXVA hal htf2] at h1
      cases h1
    obtain ⟨own3, C3, G3, hcase⟩ := mapOrFree_spec C2 ho hp hlt hal (by decide) hmap
    have K' := K.trans (K2.mono (by simp))
    rcases hcase with ⟨he, K3⟩ | ⟨rfl, hnv, _, P, K3⟩
    · rw [if_pos he] at hrest
      obtain ⟨_, s4, h4, h5⟩ := bind_ok hrest
      cases h5
      obtain ⟨C4, G⟩ := uvmalloc_undo C3 hp hba ha hbal hal (K'.trans (K3.mono (by simp))) h4
      exact ⟨own3, C4, G3, .inl ⟨rfl, G⟩⟩
    have hpg : PGSIZE = 4096 := rfl
    have hle : a + PGSIZE ≤ TRAPFRAME := aligned_le hal TRAPFRAME_aligned hlt
    have hself := slot_va_of_aligned (lt_MAXVA hlt) hal
    have hK : Keeps root (Pages p base (a + PGSIZE)) s s3 := by
      refine (K'.mono ?_).trans (K3.mono ?_)
      · rintro x ⟨h1, h2, h3⟩
        exact ⟨h1, h2, by omega⟩
      · rintro x rfl
        exact ⟨rfl, by rw [hself]; exact hba, by rw [hself]; omega⟩
    have htf3 : has (s3.leaf (root p) (slot TRAPFRAME)) PTE_V := by
      rw [(K3 (p, slot TRAPFRAME) ?_).1]
      · exact htf2
      · intro h
        have := congrArg (fun x => x.2.va) h
        simp only [hself, slot_va_of_aligned TRAPFRAME_lt_MAXVA TRAPFRAME_aligned] at this
        omega
    have hsum : a + PGSIZE + n * PGSIZE = a + (n + 1) * PGSIZE := by
      rw [Nat.succ_mul]
      omega
    obtain ⟨own4, C4, G4, hfin⟩ := ih C3 (by omega) hle (aligned_add hal) htf3 hK hrest
    rw [hsum] at hfin
    exact ⟨own4, C4, G3.trans G4, hfin⟩

theorem uvmalloc_spec {oldsz newsz : Nat} (C : Counted s root own) (hp : root p ≠ 0)
    (hold : oldsz ≤ TRAPFRAME) (htf : has (s.leaf (root p) (slot TRAPFRAME)) PTE_V)
    (h : uvmalloc (root p) oldsz newsz s = .ok (r, s')) :
    ∃ own', Counted s' root own' ∧ Grows p own own' ∧
      ((r = 0 ∧ GrowFailed root p (PGROUNDUP oldsz) s s') ∨ (r = max oldsz newsz ∧ r ≤ TRAPFRAME ∧
        Keeps root (Pages p (PGROUNDUP oldsz) (PGROUNDUP r)) s s')) := by
  have hup := PGROUNDUP_of_le hold
  rw [uvmalloc] at h
  by_cases hlt : newsz < oldsz
  · rw [if_pos hlt] at h
    cases h
    exact ⟨own, C, .refl _ _, .inr ⟨by omega, hold, .refl _ _ _⟩⟩
  rw [if_neg hlt] at h
  obtain ⟨own', C', G, hcase⟩ := uvmallocFrom_spec C hp (Nat.le_refl _) hup.2.2.2 hup.2.2.1
    hup.2.2.1 htf (.refl root _ s) h
  refine ⟨own', C', G, ?_⟩
  rcases hcase with hfail | ⟨rfl, hle, K⟩
  · exact .inl hfail
  have hle' : r ≤ TRAPFRAME := by
    simp only [PGSIZE] at *
    omega
  refine .inr ⟨by omega, hle', K.mono ?_⟩
  rintro x ⟨h1, h2, h3⟩
  have hup' := PGROUNDUP_of_le hle'
  refine ⟨h1, h2, ?_⟩
  simp only [PGSIZE] at hup hup' h3
  omega

end Yyds.Mm
