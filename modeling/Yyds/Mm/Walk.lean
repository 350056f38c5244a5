import Yyds.Mm.PageTable

/-! What `walk` and `mappages` do to the page tables: they may turn free pages into tables,
and `mappages` writes one leaf entry. -/
namespace Yyds.Mm

open Lib Kern Layout Function

/-- The indices that `walk` uses from `level` down to 1, last first. -/
def indices (va level : Nat) : List (Fin 512) := (List.range level).map fun l => PX (l + 1) va

theorem indices_succ (va level : Nat) (path : List (Fin 512)) :
    indices va (level + 1) ++ path = indices va level ++ PX (level + 1) va :: path := by
  simp [indices, List.range_succ]

variable [Layout]

/-- From `s` to `s'` only free pages have become tables of `p`; all other pages are as they
were. -/
structure Frame (p : TableId) (s : Phys) (own : Nat → Owner) (s' : Phys) (own' : Nat → Owner) :
    Prop where
  keep : ∀ t, own' t = own t ∨
    (own t = .user ∧ s.count t = 0 ∧ ∃ path, own' t = .table p path)
  page : ∀ t, (∀ p path, own' t ≠ .table p path) → s'.page t = s.page t
  count : ∀ t, Managed t → (∀ p path, own' t ≠ .table p path) → s'.count t = s.count t

/-- No leaf entry of any page table has changed. -/
def SameLeaf (root : TableId → Nat) (s s' : Phys) : Prop :=
  ∀ p k, s'.leaf (root p) k = s.leaf (root p) k

namespace Frame

variable {p : TableId} {s s1 s2 : Phys} {own own1 own2 : Nat → Owner}

theorem refl (p : TableId) (s : Phys) (own : Nat → Owner) : Frame p s own s own :=
  ⟨fun _ => .inl rfl, fun _ _ => rfl, fun _ _ _ => rfl⟩

section
variable (h : Frame p s own s1 own1)
include h

theorem table_kept {t : Nat} {q : TableId} {path : List (Fin 512)} (ht : own t = .table q path) :
    own1 t = .table q path := by
  rcases h.keep t with he | ⟨hu, _⟩
  · rw [he, ht]
  · rw [ht] at hu
    cases hu

theorem user {t : Nat} (ht : own1 t = .user) : own t = .user := by
  rcases h.keep t with he | ⟨hu, _⟩
  · exact he.symm.trans ht
  · exact hu

theorem user_kept {t : Nat} (ht : own t = .user) (hc : s.count t ≠ 0) : own1 t = .user := by
  rcases h.keep t with he | ⟨_, hz, _⟩
  · exact he.trans ht
  · exact absurd hz hc

theorem held_kept {t : Nat} (ht : own t = .held) : own1 t = .held := by
  rcases h.keep t with he | ⟨hu, _⟩
  · exact he.trans ht
  · rw [ht] at hu
    cases hu

end

theorem trans (h1 : Frame p s own s1 own1) (h2 : Frame p s1 own1 s2 own2)
    (hm : ∀ t, own1 t = .user → s1.count t = 0 → (∃ path, own2 t = .table p path) → Managed t) :
    Frame p s own s2 own2 := by
  have hback : ∀ t, (∀ p path, own2 t ≠ .table p path) → ∀ p path, own1 t ≠ .table p path :=
    fun t hno p path ht => hno p path (h2.table_kept ht)
  refine ⟨fun t => ?_, fun t hno => ?_, fun t hmt hno => ?_⟩
  · rcases h2.keep t with he | ⟨hu, hz, hx⟩
    · rw [he]
      exact h1.keep t
    rcases h1.keep t with he | ⟨_, _, path, ht⟩
    · have hno : ∀ p path, own1 t ≠ .table p path := fun p path ht => by
        rw [hu] at ht
        cases ht
      refine .inr ⟨he ▸ hu, ?_, hx⟩
      rw [← h1.count t (hm t hu hz hx) hno, hz]
    · rw [hu] at ht
      cases ht
  · rw [h2.page t hno, h1.page t (hback t hno)]
  · rw [h2.count t hmt hno, h1.count t hmt (hback t hno)]

end Frame

namespace Space

variable {s s' : Phys} {root : TableId → Nat} {own own' : Nat → Owner} {p q : TableId}
  {path : List (Fin 512)} {t u : Nat} {k : Slot} {i : Fin 512} {va level : Nat}

section
variable (h : Space s root own)
include h

theorem exists_prefix (xs : List (Fin 512)) (hu : own u = .table p (xs ++ path)) :
    ∃ t, own t = .table p path := by
  induction xs generalizing u with
  | nil => exact ⟨u, hu⟩
  | cons i xs ih =>
    obtain ⟨t, ht⟩ := h.exists_parent hu
    exact ih ht

theorem walkFrom_hit (alloc : Bool) (ht : own t = .table p path)
    (hu : own u = .table p (indices va level ++ path)) :
    walkFrom va alloc level t s = .ok (some (u, PX 0 va), s) := by
  induction level generalizing t path with
  | zero =>
    rw [h.table_unique ht hu]
    rfl
  | succ level ih =>
    rw [indices_succ] at hu
    obtain ⟨t', ht'⟩ := h.exists_prefix _ hu
    have he := h.pte_of_child ht ht'
    rw [walkFrom, get_bind_apply, he, if_pos (has_pte_V t'), pte2pa (h.table _ _ _ ht').1]
    exact ih ht' hu

theorem walkFrom_miss (ht : own t = .table p path) (hlen : path.length + level = 2)
    (hno : ∀ u, own u ≠ .table p (indices va level ++ path)) :
    walkFrom va false level t s = .ok (none, s) := by
  induction level generalizing t path with
  | zero => exact absurd ht (hno t)
  | succ level ih =>
    rw [indices_succ] at hno
    rw [walkFrom, get_bind_apply]
    by_cases hv : has (s.pte (t, PX (level + 1) va)) PTE_V
    · obtain ⟨t', ht', he⟩ := h.entry t p path _ ht (by omega) hv
      rw [if_pos hv, he, pte2pa (h.table _ _ _ ht').1]
      exact ih ht' (by simp; omega) hno
    · rw [if_neg hv]
      rfl

/-- The tables that `walk` has to add come from free pages. -/
theorem walkFrom_alloc (ht : own t = .table p path) (hlen : path.length + level = 2) :
    ∃ r s' own', walkFrom va true level t s = .ok (r, s') ∧ Space s' root own' ∧
      Frame p s own s' own' ∧ SameLeaf root s s' ∧
      ∀ x, r = some x → x.2 = PX 0 va ∧ own' x.1 = .table p (indices va level ++ path) := by
  induction level generalizing t path s own with
  | zero =>
    refine ⟨some (t, PX 0 va), s, own, rfl, h, .refl p s own, fun _ _ => rfl, ?_⟩
    rintro x hx
    cases hx
    exact ⟨rfl, ht⟩
  | succ level ih =>
    rw [indices_succ]
    rw [walkFrom, get_bind_apply]
    by_cases hv : has (s.pte (t, PX (level + 1) va)) PTE_V
    · obtain ⟨t', ht', he⟩ := h.entry t p path _ ht (by omega) hv
      rw [if_pos hv, he, pte2pa (h.table _ _ _ ht').1]
      exact ih h ht' (by simp; omega)
    rw [if_neg hv, if_neg (by decide)]
    have hv' : has (s.pte (t, PX (level + 1) va)) PTE_V = false := by simpa using hv
    obtain ⟨r, s1, hk, hcase⟩ := h.kalloc
    rw [bind_of_ok hk]
    rcases hcase with ⟨rfl, _, hp, hc, h1⟩ | ⟨hm, hz, hu, hp, hc, h1⟩
    · refine ⟨none, s1, own, rfl, h1, ⟨fun _ => .inl rfl, fun _ _ => by rw [hp], ?_⟩, ?_, ?_⟩
      · intro q _ _
        rw [Phys.count, Phys.count, hc]
      · intro q k
        exact h.leaf_congr h1 (fun _ _ _ => Iff.rfl) (fun _ _ _ _ => by rw [hp]) q k
      · intro x hx
        cases hx
    have htr : t ≠ r := by
      rintro rfl
      rw [ht] at hu
      cases hu
    have ht1 : update own r .held t = .table p path := by
      rw [update_of_ne htr, ht]
    have hv1 : has (s1.pte (t, PX (level + 1) va)) PTE_V = false := by
      rw [Phys.pte_congr (hp t htr), hv']
    have hr1 : update own r Owner.held r = .held := update_self _ _ _
    have h2 := h1.addTable ht1 (by omega) hv1 hr1
    have hl2 := h1.leaf_addTable ht1 (by omega) hv1 hr1
    rw [update_idem] at h2
    obtain ⟨x, s', own', hw, h', hf, hsame, hx⟩ := ih h2
      (update_self r (.table p (PX (level + 1) va :: path)) own) (by simp; omega)
    refine ⟨x, s', own', ?_, h', ?_, ?_, hx⟩
    · rw [if_neg hm.pos]
      exact hw
    · refine Frame.trans ⟨?_, ?_, ?_⟩ hf ?_
      · intro q
        by_cases hqr : q = r
        · subst hqr
          exact .inr ⟨hu, hz, _, update_self _ _ _⟩
        · exact .inl (update_of_ne hqr _ _)
      · intro q hno
        have hqr : q ≠ r := by
          rintro rfl
          exact hno p _ (update_self _ _ _)
        have hqt : q ≠ t := by
          rintro rfl
          exact hno p path (by rw [update_of_ne hqr, ht])
        rw [Phys.setPte_page_ne _ _ hqt]
        exact (update_of_ne hqr _ _).trans (hp q hqr)
      · intro q hmq hno
        have hqr : q ≠ r := by
          rintro rfl
          exact hno p _ (update_self _ _ _)
        exact count_kept hm hc hmq hqr
      · rintro q _ _ ⟨path', hq⟩
        exact (h'.table q p path' hq).1
    · intro q k
      rw [hsame q k, hl2 q k]
      refine h.leaf_congr h1 (Owner.table_update (Owner.user_ne_table hu) (by simp)) ?_ q k
      intro v q' path' hv'
      refine hp v ?_
      rintro rfl
      exact Owner.user_ne_table hu q' path' hv'

end

omit [Layout] in
theorem walk_eq (hva : va < MAXVA) (pt : Nat) (alloc : Bool) :
    walk pt va alloc = walkFrom va alloc 2 pt := by
  rw [walk, when_neg (by omega)]
  rfl

theorem walk_hit (h : Space s root own) (hva : va < MAXVA) (alloc : Bool)
    (ht : own t = .table p [PX 1 va, PX 2 va]) :
    walk (root p) va alloc s = .ok (some (t, PX 0 va), s) := by
  rw [walk_eq hva]
  exact h.walkFrom_hit alloc (h.root_own p (h.root_ne ht)) ht

/-- `walk` without `alloc` finds the leaf entry, or there is no table for it. -/
theorem walk_read (h : Space s root own) (hp : root p ≠ 0) (hva : va < MAXVA) :
    (walk (root p) va false s = .ok (none, s) ∧ s.leaf (root p) (slot va) = 0) ∨
    ∃ t, walk (root p) va false s = .ok (some (t, PX 0 va), s) ∧
      own t = .table p [PX 1 va, PX 2 va] ∧ s.pte (t, PX 0 va) = s.leaf (root p) (slot va) := by
  rcases h.leaf_cases p (slot va) with ⟨t, ht, he⟩ | ⟨hno, he⟩
  · exact .inr ⟨t, h.walk_hit hva false ht, ht, he.symm⟩
  · rw [walk_eq hva]
    exact .inl ⟨h.walkFrom_miss (h.root_own p hp) rfl hno, he⟩

theorem walk_alloc (h : Space s root own) (hp : root p ≠ 0) (hva : va < MAXVA) :
    ∃ r s' own', walk (root p) va true s = .ok (r, s') ∧ Space s' root own' ∧
      Frame p s own s' own' ∧ SameLeaf root s s' ∧
      ∀ x, r = some x → x.2 = PX 0 va ∧ own' x.1 = .table p [PX 1 va, PX 2 va] := by
  rw [walk_eq hva]
  exact h.walkFrom_alloc (h.root_own p hp) rfl

omit [Layout] in
theorem mappages_eq (hva : va < MAXVA) (hal : va % PGSIZE = 0) (pt pa : Nat) (perm : Word) :
    mappages pt va PGSIZE pa perm = mappagesFrom pt perm 0 va pa := by
  have hdown := PGROUNDDOWN_of_aligned hal
  have hrounds : (2 ^ 64 - va + PGROUNDDOWN ((2 ^ 64 - 1 + PGSIZE + va) % 2 ^ 64)) % 2 ^ 64 /
      PGSIZE = 0 := by
    simp only [PGROUNDDOWN, PGSIZE, MAXVA_eq] at *
    omega
  simp only [mappages, hdown, hrounds]

/-- The leaf entries after `*pte = w` for the entry at `k` of `p`. -/
def PutLeaf (root : TableId → Nat) (p : TableId) (k : Slot) (w : Word) (s s' : Phys) : Prop :=
  ∀ q j, s'.leaf (root q) j = if q = p ∧ j = k then w else s.leaf (root q) j

/-- Mapping one page: no memory for a table, an entry that is already valid, or the entry
is written. -/
theorem mappages_spec (h : Space s root own) (hp : root p ≠ 0) (hva : va < MAXVA)
    (hal : va % PGSIZE = 0) (pa : Nat) (perm : Word) :
    (∃ s' own', mappages (root p) va PGSIZE pa perm s = .ok (-1, s') ∧ Space s' root own' ∧
      Frame p s own s' own' ∧ SameLeaf root s s') ∨
    (mappages (root p) va PGSIZE pa perm s = .error "remap" ∧
      has (s.leaf (root p) (slot va)) PTE_V) ∨
    (has (s.leaf (root p) (slot va)) PTE_V = false ∧
      ∃ s' own', mappages (root p) va PGSIZE pa perm s = .ok (0, s') ∧ Space s' root own' ∧
        Frame p s own s' own' ∧ PutLeaf root p (slot va) (PA2PTE pa ||| perm ||| PTE_V) s s') := by
  obtain ⟨r, s1, own', hw, h1, hf, hsame, hx⟩ := h.walk_alloc hp hva
  rw [mappages_eq hva hal, mappagesFrom, bind_of_ok hw]
  cases r with
  | none => exact .inl ⟨s1, own', rfl, h1, hf, hsame⟩
  | some x =>
    obtain ⟨t, i⟩ := x
    obtain ⟨hi, ht⟩ := hx _ rfl
    subst hi
    have hpte : s1.pte (t, PX 0 va) = s.leaf (root p) (slot va) := by
      rw [← hsame, h1.leaf_eq ht]
      rfl
    simp only [get_bind_apply]
    rw [← hpte]
    by_cases hv : has (s1.pte (t, PX 0 va)) PTE_V
    · refine .inr (.inl ⟨?_, hv⟩)
      rw [when_pos hv]
      rfl
    refine .inr (.inr ⟨by simpa using hv,
      s1.setPte (t, PX 0 va) (PA2PTE pa ||| perm ||| PTE_V), own', ?_,
      h1.setLeaf ht (PX 0 va) _, ?_, ?_⟩)
    · rw [when_neg hv]
      rfl
    · refine ⟨hf.keep, fun q hno => ?_, hf.count⟩
      have hne : q ≠ t := by
        rintro rfl
        exact hno p _ ht
      exact (Phys.setPte_page_ne _ _ hne).trans (hf.page q hno)
    · intro q j
      rw [← hsame]
      exact h1.leaf_setLeaf (k := slot va) ht _ q j

theorem mappages_remap (h : Space s root own) (hva : va < MAXVA) (hal : va % PGSIZE = 0)
    (hv : has (s.leaf (root p) (slot va)) PTE_V) (pa : Nat) (perm : Word) :
    mappages (root p) va PGSIZE pa perm s = .error "remap" := by
  rcases h.leaf_cases p (slot va) with ⟨t, ht, he⟩ | ⟨_, h0⟩
  · rw [mappages_eq hva hal, mappagesFrom, bind_of_ok (h.walk_hit hva true ht)]
    have hv' : has (s.pte (t, PX 0 va)) PTE_V := by
      rw [he] at hv
      exact hv
    simp only [get_bind_apply]
    rw [when_pos hv']
    rfl
  · rw [h0] at hv
    exact absurd hv (by decide)

theorem mappages_hit (h : Space s root own) (hva : va < MAXVA) (hal : va % PGSIZE = 0)
    (ht : own t = .table p [PX 1 va, PX 2 va]) (hnv : has (s.pte (t, PX 0 va)) PTE_V = false)
    (pa : Nat) (perm : Word) : mappages (root p) va PGSIZE pa perm s =
      .ok (0, s.setPte (t, PX 0 va) (PA2PTE pa ||| perm ||| PTE_V)) := by
  rw [mappages_eq hva hal, mappagesFrom, bind_of_ok (h.walk_hit hva true ht)]
  simp only [get_bind_apply]
  rw [when_neg (by simp [hnv])]
  rfl

end Space

end Yyds.Mm
