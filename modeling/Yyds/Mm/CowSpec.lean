import Yyds.Mm.VmSpec

/-! What `cowalloc` and `copyout` do to the leaf entries, the counts and the contents. -/
namespace Yyds.Mm

open Lib Kern Layout Function

/-- `w'` is `w` made writable: `PTE_W` set, `PTE_F` cleared, the other flags as they were. -/
def Privatized (w w' : Word) : Prop :=
  ∀ i < 10, w'.getLsbD i = ((w.getLsbD i || decide (2 = i)) && decide (8 ≠ i))

theorem privatized_regain (w : Word) : Privatized w ((w ||| PTE_W) &&& ~~~PTE_F) := by
  intro i hi
  rw [BitVec.getLsbD_and, BitVec.getLsbD_or, BitVec.getLsbD_not, getLsbD_PTE_W, getLsbD_PTE_F]
  simp [show i < 64 by omega]

theorem isFlags_cowFlags (w : Word) : IsFlags (cowFlags w) :=
  ((isFlags_PTE_FLAGS _).or (by decide)).and _

theorem privatized_cowFlags (w : Word) (r : Nat) (hv : has w PTE_V) :
    Privatized w (PA2PTE r ||| cowFlags w ||| PTE_V) := by
  intro i hi
  have h64 : i < 64 := by omega
  rw [BitVec.getLsbD_or, getLsbD_PA2PTE_or r _ hi, cowFlags, BitVec.getLsbD_and,
    BitVec.getLsbD_or, getLsbD_PTE_FLAGS _ hi, BitVec.getLsbD_and, BitVec.getLsbD_not,
    BitVec.getLsbD_not, getLsbD_PTE_V, getLsbD_PTE_W, getLsbD_PTE_F]
  by_cases h0 : 0 = i
  · subst h0
    rw [has_V] at hv
    simp [hv]
  · simp [h0, h64]

theorem PTE2PA_mk_V {pa : Nat} {f : Word} (h : pa % PGSIZE = 0) (hlt : pa < 2 ^ 64)
    (hf : IsFlags f) : PTE2PA (PA2PTE pa ||| f ||| PTE_V) = pa := by
  rw [PTE2PA_or (by decide), PTE2PA_mk h hlt hf]

theorem has_mk_V (w : Word) : has (w ||| PTE_V) PTE_V := by
  simp

variable {w w' : Word} {r u : Nat}

theorem Privatized.has_W (h : Privatized w w') : has w' PTE_W := by
  rw [Mm.has_W, h 2 (by decide)]
  simp

theorem Privatized.has_V (h : Privatized w w') : has w' PTE_V = has w PTE_V := by
  rw [Mm.has_V, h 0 (by decide)]
  simp

variable [Layout] {s s' : Phys} {root : TableId → Nat} {own own' : Nat → Owner} {p : TableId}
  {va t : Nat}

/-- How `cowalloc` ends: nothing done, for want of a user page there or of memory, or the entry for
`va` maps a page `r` of its own with the same contents. -/
def CowDone (root : TableId → Nat) (p : TableId) (va r : Nat) (s s' : Phys) : Prop :=
  (r = 0 ∧ Keeps root (fun _ => False) s s' ∧
    (¬ (has (s.leaf (root p) (slot va)) PTE_V ∧ has (s.leaf (root p) (slot va)) PTE_U) ∨
      Full s')) ∨
  (r ≠ 0 ∧ ∃ t, target s root (p, slot va) = some t ∧
    has (s.leaf (root p) (slot va)) PTE_U ∧ target s' root (p, slot va) = some r ∧
    s'.page r = s.page t ∧ Privatized (s.leaf (root p) (slot va)) (s'.leaf (root p) (slot va)))

/-- The start of `cowalloc` may be taken before a `kalloc`. -/
theorem CowDone.of_same {s1 : Phys} (D : CowDone root p va r s1 s') (hl : SameLeaf root s s1)
    (K : Keeps root (fun _ => False) s s1) : CowDone root p va r s s' := by
  rcases D with ⟨hr, K', hwhy⟩ | ⟨hr, t, ht, hU, ht', hpage, hw⟩
  · rw [hl p (slot va)] at hwhy
    exact .inl ⟨hr, K.trans K', hwhy⟩
  · have ht0 : target s root (p, slot va) = some t := (target_congr (hl p (slot va))).symm.trans ht
    rw [hl p (slot va)] at hU hw
    exact .inr ⟨hr, t, ht0, hU, ht', hpage.trans ((K _ (fun h => h)).2 t ht0), hw⟩

section
variable (C : Counted s root own)
include C

/-- The page is the caller's alone already. -/
theorem cowUnshare_regain (hx : target s root (p, slot va) = some t)
    (hu : own u = .table p [PX 1 va, PX 2 va]) (hone : s.count t = 1)
    (hU : has (s.leaf (root p) (slot va)) PTE_U) (w : Word) (hw : w = s.leaf (root p) (slot va)) :
    let s' := s.setPte (u, PX 0 va) ((w ||| PTE_W) &&& ~~~PTE_F)
    Counted s' root own ∧ Keeps root (· = (p, slot va)) s s' ∧ CowDone root p va t s s' := by
  intro s'
  have hV := (target_eq_some.mp hx).2.1
  have hpriv := privatized_regain w
  have hv : has ((w ||| PTE_W) &&& ~~~PTE_F) PTE_V := by
    rw [hpriv.has_V, hw]
    exact hV
  have hpa : PTE2PA ((w ||| PTE_W) &&& ~~~PTE_F) = t := by
    rw [PTE2PA_and_not (by decide), PTE2PA_or (by decide), hw]
    exact (target_eq_some.mp hx).2.2
  have hrefs := (C.count_eq_one hx).mp hone
  obtain ⟨C', P⟩ := C.setFlags hx hu hv hpa fun _ => hrefs
  have hpage : ∀ q, own q = .user → s'.page q = s.page q := by
    intro q hq
    refine Phys.setPte_page_ne _ _ ?_
    rintro rfl
    exact Owner.user_ne_table hq _ _ hu
  have hleaf : s'.leaf (root p) (slot va) = (w ||| PTE_W) &&& ~~~PTE_F := P.self
  obtain ⟨hm, ho⟩ := C.user _ t hx
  refine ⟨C', ?_, .inr ⟨hm.pos, t, hx, hU, ?_, hpage t ho, ?_⟩⟩
  · intro y hy
    exact ⟨P.ne hy, fun v hv' => hpage v (C.user y v hv').2⟩
  · exact target_eq_some.mpr ⟨(target_eq_some.mp hx).1, hleaf ▸ hv, hleaf ▸ hpa⟩
  · rw [hleaf, ← hw]
    exact hpriv

/-- The page is shared, and `kalloc` has found a page `r` for the copy. -/
theorem cowCopy_spec (hva : va < TRAPFRAME) (hal : va % PGSIZE = 0)
    (hx : target s root (p, slot va) = some t) (hu : own u = .table p [PX 1 va, PX 2 va])
    (hr : own r = .held) (hU : has (s.leaf (root p) (slot va)) PTE_U) :
    ∃ s', cowCopy (root p) va (u, PX 0 va) t r s = .ok (r, s') ∧
      Counted s' root (update own r .user) ∧ Keeps root (· = (p, slot va)) s s' ∧
      CowDone root p va r s s' := by
  have hmax : va < MAXVA := lt_MAXVA hva
  obtain ⟨hmr, hone⟩ := C.space.held r hr
  obtain ⟨hmt, ho⟩ := C.user _ t hx
  -- the copy
  obtain ⟨C1, hl1⟩ := C.setPage (s.page t) (Owner.held_ne_table hr)
    fun _ => by rw [hone]; decide
  let s1 := s.setPage r (s.page t)
  have hleaf1 : s1.leaf (root p) (slot va) = s.leaf (root p) (slot va) := hl1 p (slot va)
  have hx1 : target s1 root (p, slot va) = some t := (target_congr hleaf1).trans hx
  -- the entry
  let w := s.leaf (root p) (slot va)
  let w' := PA2PTE r ||| cowFlags w ||| PTE_V
  have hpte : s1.pte (u, PX 0 va) = w := by
    have := (C1.space.leaf_eq (k := slot va) hu).symm
    exact this.trans hleaf1
  have hv' : has w' PTE_V := has_mk_V _
  have hpa' : PTE2PA w' = r := PTE2PA_mk_V hmr.1 hmr.lt (isFlags_cowFlags w)
  obtain ⟨s', hk, C', P, K, hpr⟩ := C1.replace hx1 hu hr hv' hpa'
  have S2 := C1.space.setLeaf hu (PX 0 va) (w &&& ~~~PTE_V)
  have hnv : has ((s1.setPte (u, PX 0 va) (w &&& ~~~PTE_V)).pte (u, PX 0 va)) PTE_V = false := by
    rw [Phys.pte_setPte]
    simp
  have hmap := S2.mappages_hit hmax hal hu hnv r (cowFlags w)
  rw [Phys.setPte_setPte] at hmap
  have hleaf : s'.leaf (root p) (slot va) = w' := P.self
  have hpage1 : ∀ q ≠ r, s1.page q = s.page q := fun q hq => update_of_ne hq _ _
  refine ⟨s', ?_, C', ?_, .inr ⟨hmr.pos, t, hx, hU, ?_, ?_, ?_⟩⟩
  · rw [cowCopy, modify_bind_apply, get_bind_apply]
    rw [writePte_bind_apply, hpte, bind_of_ok hmap, PGROUNDDOWN_of_aligned hmt.1]
    exact bind_of_ok hk
  · refine Keeps.trans ?_ K
    intro y _
    refine ⟨hl1 y.1 y.2, fun v hv => hpage1 v ?_⟩
    rintro rfl
    have := (C.user y v hv).2
    rw [hr] at this
    cases this
  · exact target_eq_some.mpr ⟨(target_eq_some.mp hx).1, hleaf ▸ hv', hleaf ▸ hpa'⟩
  · rw [hpr]
    exact update_self _ _ _
  · rw [hleaf]
    exact privatized_cowFlags w r (target_eq_some.mp hx).2.1

theorem Counted.keeps_none (hl : SameLeaf root s s')
    (hp : ∀ q, own q = .user → s.count q ≠ 0 → s'.page q = s.page q) (K : TableId × Slot → Prop) :
    Keeps root K s s' := by
  intro x _
  exact ⟨hl x.1 x.2, fun t ht => hp t (C.user x t ht).2 (C.count_ne_zero ht)⟩

/-- The two ways of `cowalloc` past the lookup of the entry. -/
theorem cowUnshare_spec (hva : va < TRAPFRAME) (hal : va % PGSIZE = 0)
    (hx : target s root (p, slot va) = some t) (hu : own u = .table p [PX 1 va, PX 2 va])
    (hU : has (s.leaf (root p) (slot va)) PTE_U) :
    ∃ r s', cowUnshare (root p) va (u, PX 0 va) t s = .ok (r, s') ∧ Counted s' root own ∧
      Keeps root (· = (p, slot va)) s s' ∧ CowDone root p va r s s' := by
  have hpte : s.pte (u, PX 0 va) = s.leaf (root p) (slot va) :=
    (C.space.leaf_eq (k := slot va) hu).symm
  have hn : krefcnt t s = .ok (s.refcnt t, s) := rfl
  rw [cowUnshare, bind_of_ok hn]
  by_cases hone : s.refcnt t = 1
  · obtain ⟨C', K, D⟩ := cowUnshare_regain C hx hu (Phys.refcnt_eq_one.mp hone) hU _ hpte
    refine ⟨t, _, ?_, C', K, D⟩
    rw [if_pos hone, modify_bind_apply, modify_bind_apply, Phys.pte_setPte, if_pos rfl,
      Phys.setPte_setPte]
    rfl
  rw [if_neg hone]
  obtain ⟨r, s1, hk, hl, hcase⟩ := C.kalloc
  rw [bind_of_ok hk]
  have hx1 : target s1 root (p, slot va) = some t := (target_congr (hl p (slot va))).trans hx
  rcases hcase with ⟨rfl, hfull, hp, hc, C1⟩ | ⟨hm, hz, ho, hp, _, C1⟩
  · have K : ∀ K, Keeps root K s s1 := C.keeps_none hl fun q _ _ => by rw [hp]
    exact ⟨0, s1, rfl, C1, K _, .inl ⟨rfl, K _, .inr (hfull.congr hc)⟩⟩
  have K : ∀ K, Keeps root K s s1 := by
    refine C.keeps_none hl fun q _ hq => hp q ?_
    rintro rfl
    exact hq hz
  have hut : u ≠ r := by
    rintro rfl
    exact Owner.user_ne_table ho _ _ hu
  obtain ⟨s', hc, C', K', D⟩ := cowCopy_spec C1 hva hal hx1
    ((update_of_ne hut _ _).trans hu) (update_self _ _ _)
    ((hl p (slot va)).symm ▸ hU)
  rw [update_idem, ← ho, update_eq_self] at C'
  refine ⟨r, s', ?_, C', (K _).trans K', ?_⟩
  · rw [if_neg hm.pos]
    exact hc
  · exact D.of_same hl (K fun _ => False)

/-- `cowalloc` never panics on a user address, and ends in one of its two ways. -/
theorem cowalloc_spec (hp : root p ≠ 0) (hva : va < TRAPFRAME) (hal : va % PGSIZE = 0) :
    ∃ r s', cowalloc (root p) va s = .ok (r, s') ∧ Counted s' root own ∧
      Keeps root (· = (p, slot va)) s s' ∧ CowDone root p va r s s' := by
  have hmax : va < MAXVA := lt_MAXVA hva
  rw [cowalloc, if_neg (by simp [hal])]
  by_cases hVU : has (s.leaf (root p) (slot va)) PTE_V ∧ has (s.leaf (root p) (slot va)) PTE_U
  · have hx : target s root (p, slot va) = some (PTE2PA (s.leaf (root p) (slot va))) :=
      target_eq_some.mpr ⟨by rw [slot_va_of_aligned hmax hal]; exact hva, hVU.1, rfl⟩
    obtain ⟨hm, ho⟩ := C.user _ _ hx
    rw [bind_of_ok (walkaddr_user C.space hp hmax hVU.1 hVU.2), if_neg hm.pos]
    rcases C.space.walk_read hp hmax with ⟨_, h0⟩ | ⟨u, hw, hu, he⟩
    · rw [h0] at hVU
      exact absurd hVU.1 (by decide)
    · rw [bind_of_ok hw]
      exact cowUnshare_spec C hva hal hx hu hVU.2
  · rw [bind_of_ok (walkaddr_none C.space hp fun h => hVU h.2)]
    exact ⟨0, s, rfl, C, .refl _ _ _, .inl ⟨rfl, .refl _ _ _, .inl hVU⟩⟩

end

/-! ### `copyout` -/

/-- The entries of `p` at and above `TRAPFRAME` are the kernel's own. -/
def Reserved (s : Phys) (root : TableId → Nat) (p : TableId) : Prop :=
  ∀ k : Slot, TRAPFRAME ≤ k.va →
    has (s.leaf (root p) k) PTE_U = false ∧ has (s.leaf (root p) k) PTE_F = false

/-- The entry that `copyout` goes through: as it was, or a copy-on-write entry made private. -/
def Opened (w w' : Word) : Prop := (w' = w ∧ has w PTE_F = false) ∨ (has w PTE_F ∧ Privatized w w')

/-- What `copyout` finds for the page at `va`. -/
def PageFound (root : TableId → Nat) (p : TableId) (va r : Nat) (s s' : Phys) : Prop :=
  (r = 0 ∧ Keeps root (fun _ => False) s s' ∧ (Full s' ∨ ¬ (va < TRAPFRAME ∧
    has (s.leaf (root p) (slot va)) PTE_V ∧ has (s.leaf (root p) (slot va)) PTE_U))) ∨
  (r ≠ 0 ∧ va < TRAPFRAME ∧ ∃ t, target s root (p, slot va) = some t ∧
    has (s.leaf (root p) (slot va)) PTE_U ∧ target s' root (p, slot va) = some r ∧
    s'.page r = s.page t ∧ Opened (s.leaf (root p) (slot va)) (s'.leaf (root p) (slot va)))

theorem copyoutPage_spec (C : Counted s root own) (hp : root p ≠ 0) (R : Reserved s root p)
    (hal : va % PGSIZE = 0) :
    ∃ r s', copyoutPage (root p) va s = .ok (r, s') ∧ Counted s' root own ∧
      Keeps root (· = (p, slot va)) s s' ∧ PageFound root p va r s s' := by
  rw [copyoutPage, bind_of_ok (walkaddr_spec C.space hp va),
    bind_of_ok (cowpage_spec C.space hp va)]
  by_cases hcow : va < MAXVA ∧ has (s.leaf (root p) (slot va)) PTE_V ∧
      has (s.leaf (root p) (slot va)) PTE_F
  · obtain ⟨hmax, hV, hF⟩ := hcow
    have hva : va < TRAPFRAME := by
      by_contra hge
      have := (R (slot va) (by rw [slot_va_of_aligned hmax hal]; omega)).2
      rw [hF] at this
      cases this
    obtain ⟨r, s', h, C', K, D⟩ := cowalloc_spec C hp hva hal
    refine ⟨r, s', ?_, C', K, ?_⟩
    · rw [if_pos (by rw [if_pos ⟨hmax, hV, hF⟩])]
      exact h
    · rcases D with ⟨hr, hK, hwhy⟩ | ⟨hr, t, ht, hU, ht', hpage, hw⟩
      · refine .inl ⟨hr, hK, hwhy.symm.imp_right fun h h' => h h'.2⟩
      · exact .inr ⟨hr, hva, t, ht, hU, ht', hpage, .inr ⟨hF, hw⟩⟩
  · rw [if_neg (by rw [if_neg hcow]; decide)]
    refine ⟨_, s, rfl, C, .refl _ _ _, ?_⟩
    by_cases hVU : va < MAXVA ∧ has (s.leaf (root p) (slot va)) PTE_V ∧
        has (s.leaf (root p) (slot va)) PTE_U
    · obtain ⟨hmax, hV, hU⟩ := hVU
      have hva : va < TRAPFRAME := by
        by_contra hge
        have := (R (slot va) (by rw [slot_va_of_aligned hmax hal]; omega)).1
        rw [hU] at this
        cases this
      have hx : target s root (p, slot va) = some (PTE2PA (s.leaf (root p) (slot va))) :=
        target_eq_some.mpr ⟨by rw [slot_va_of_aligned hmax hal]; exact hva, hV, rfl⟩
      have hF : has (s.leaf (root p) (slot va)) PTE_F = false := by
        by_contra hF
        exact hcow ⟨hmax, hV, by simpa using hF⟩
      rw [if_pos ⟨hmax, hV, hU⟩]
      exact .inr ⟨(C.user _ _ hx).1.pos, hva, _, hx, hU, hx, rfl, .inl ⟨rfl, hF⟩⟩
    · rw [if_neg hVU]
      refine .inl ⟨rfl, .refl _ _ _, .inr ?_⟩
      rintro ⟨hva, h⟩
      exact hVU ⟨lt_MAXVA hva, h⟩

end Yyds.Mm
