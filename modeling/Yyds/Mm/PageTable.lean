import Yyds.Mm.KallocInv
import Yyds.Mm.Vm

/-! Page tables as they lie in physical memory. `own` says for each page which table of
which process it holds, so two tables are never one page; `leaf` is the map from virtual
pages to leaf entries that a page table stands for. -/
namespace Yyds.Mm

open Lib Layout Function Phys

abbrev ProcId := Fin NPROC

/-- The page tables there can be: one for each process, and `none` for the one that `exec`
builds before it replaces the old one. -/
abbrev TableId := Option ProcId

/-- The indices of a leaf entry, top level first. -/
abbrev Slot := Fin 512 × Fin 512 × Fin 512

def slot (va : Nat) : Slot := (PX 2 va, PX 1 va, PX 0 va)

/-- The virtual address of the page that a leaf entry maps. -/
def Slot.va (k : Slot) : Nat := ((k.1.val * 512 + k.2.1.val) * 512 + k.2.2.val) * PGSIZE

theorem slot_va {va : Nat} (h : va < MAXVA) : (slot va).va = PGROUNDDOWN va := by
  simp only [slot, Slot.va, PX, PGROUNDDOWN, PGSIZE, MAXVA_eq, Fin.val_ofNat] at *
  omega

theorem slot_of_va (k : Slot) : slot k.va = k := by
  obtain ⟨a, b, c⟩ := k
  simp only [slot, Slot.va, PX, PGSIZE, Prod.mk.injEq, Fin.ext_iff, Fin.val_ofNat]
  omega

/-- What a physical page is used for. A page for `user` is free or mapped by leaf entries;
`table p path` is the page-table page of `p` under the indices `path`, last index first;
`held` is a page that the kernel itself has one reference to. -/
inductive Owner
  | user
  | table (p : TableId) (path : List (Fin 512))
  | held
  deriving DecidableEq

variable {r : Nat}

/-- Which pages are tables does not change when another page changes hands. -/
theorem Owner.table_update {own : Nat → Owner} {o : Owner} (hr : ∀ p path, own r ≠ .table p path)
    (ho : ∀ p path, o ≠ .table p path) (t : Nat) (p : TableId) (path : List (Fin 512)) :
    update own r o t = .table p path ↔ own t = .table p path := by
  by_cases htr : t = r
  · subst htr
    rw [update_self]
    exact ⟨fun h => absurd h (ho p path), fun h => absurd h (hr p path)⟩
  · rw [update_of_ne htr]

theorem Owner.user_ne_table {own : Nat → Owner} {t : Nat} (h : own t = .user) (p : TableId)
    (path : List (Fin 512)) : own t ≠ .table p path := by
  rw [h]
  simp

theorem Owner.held_ne_table {own : Nat → Owner} {t : Nat} (h : own t = .held) (p : TableId)
    (path : List (Fin 512)) : own t ≠ .table p path := by
  rw [h]
  simp

/-- The leaf entry at `k` in the page table `pt`, 0 if there is none. -/
def Phys.leaf (s : Phys) (pt : Nat) (k : Slot) : Word :=
  if pt = 0 then 0
  else
    let w₂ := s.pte (pt, k.1)
    if has w₂ PTE_V then
      let w₁ := s.pte (PTE2PA w₂, k.2.1)
      if has w₁ PTE_V then s.pte (PTE2PA w₁, k.2.2) else 0
    else 0

theorem has_pte_V (u : Nat) : has (PA2PTE u ||| PTE_V) PTE_V := by
  rw [has_V, getLsbD_PA2PTE_or u PTE_V (by decide)]
  decide

theorem Phys.setPte_page_ne (s : Phys) {x : PtePtr} (w : Word) {t : Nat} (h : t ≠ x.1) :
    (s.setPte x w).page t = s.page t := update_of_ne h _ _

theorem Phys.pte_setPte (s : Phys) (x y : PtePtr) (w : Word) :
    (s.setPte x w).pte y = if y = x then w else s.pte y := by
  obtain ⟨t, i⟩ := x
  obtain ⟨u, j⟩ := y
  by_cases ht : u = t
  · subst ht
    by_cases hi : j = i
    · simp [pte, setPte, hi]
    · simp [pte, setPte, hi]
  · simp [pte, setPte, ht]

theorem Phys.setPte_setPte (s : Phys) (x : PtePtr) (w w' : Word) :
    (s.setPte x w).setPte x w' = s.setPte x w' := by
  simp [setPte, setPage]

theorem Phys.pte_congr {s s' : Phys} {t : Nat} (h : s'.page t = s.page t) (i : Fin 512) :
    s'.pte (t, i) = s.pte (t, i) := by
  rw [pte, pte, h]

variable [Layout]

/-- The page tables of the processes, with root pages `root`, lie in memory as `own` says,
and the allocator is in order. -/
structure Space (s : Phys) (root : TableId → Nat) (own : Nat → Owner) : Prop where
  alloc : AllocInv s
  root_own : ∀ p, root p ≠ 0 → own (root p) = .table p []
  own_root : ∀ p t, own t = .table p [] → root p = t
  entry : ∀ t p path i, own t = .table p path → path.length < 2 → has (s.pte (t, i)) PTE_V →
    ∃ u, own u = .table p (i :: path) ∧ s.pte (t, i) = PA2PTE u ||| PTE_V
  parent : ∀ u p i path, own u = .table p (i :: path) →
    path.length < 2 ∧ ∃ t, own t = .table p path ∧ s.pte (t, i) = PA2PTE u ||| PTE_V
  table : ∀ t p path, own t = .table p path → Managed t ∧ s.count t = 1
  held : ∀ t, own t = .held → Managed t ∧ s.count t = 1

namespace Space

variable {s s' : Phys} {root : TableId → Nat} {own own' : Nat → Owner} {p q : TableId}
  {path : List (Fin 512)} {t u : Nat} {k : Slot} {i : Fin 512} {va : Nat}

theorem pte2pa (hm : Managed u) : PTE2PA (PA2PTE u ||| PTE_V) = u :=
  PTE2PA_mk hm.1 hm.lt (by decide)

section
variable (h : Space s root own)
include h

theorem table_unique (ht : own t = .table p path) (hu : own u = .table p path) : t = u := by
  induction path generalizing t u with
  | nil => rw [← h.own_root p t ht, h.own_root p u hu]
  | cons i path ih =>
    obtain ⟨_, t', ht', hte⟩ := h.parent t p i path ht
    obtain ⟨_, u', hu', hue⟩ := h.parent u p i path hu
    obtain rfl := ih ht' hu'
    rw [hte] at hue
    have := congrArg PTE2PA hue
    rwa [pte2pa (h.table t p _ ht).1, pte2pa (h.table u p _ hu).1] at this

theorem root_ne (ht : own t = .table p path) : root p ≠ 0 := by
  induction path generalizing t with
  | nil =>
    rw [h.own_root p t ht]
    exact (h.table t p [] ht).1.pos
  | cons i path ih =>
    obtain ⟨_, t', ht', _⟩ := h.parent t p i path ht
    exact ih ht'

theorem pte_of_child (ht : own t = .table p path) (hu : own u = .table p (i :: path)) :
    s.pte (t, i) = PA2PTE u ||| PTE_V := by
  obtain ⟨_, t', ht', he⟩ := h.parent u p i path hu
  rw [h.table_unique ht ht']
  exact he

theorem exists_parent (hu : own u = .table p (i :: path)) : ∃ t, own t = .table p path :=
  let ⟨_, t, ht, _⟩ := h.parent u p i path hu
  ⟨t, ht⟩

theorem leaf_eq (ht : own t = .table p [k.2.1, k.1]) : s.leaf (root p) k = s.pte (t, k.2.2) := by
  obtain ⟨t1, ht1⟩ := h.exists_parent ht
  obtain ⟨t2, ht2⟩ := h.exists_parent ht1
  have hroot := h.own_root p t2 ht2
  have hne := h.root_ne ht
  subst hroot
  have e1 := h.pte_of_child ht2 ht1
  have e0 := h.pte_of_child ht1 ht
  rw [Phys.leaf, if_neg hne]
  simp only [e1, has_pte_V, if_true, pte2pa (h.table _ _ _ ht1).1, e0, pte2pa (h.table _ _ _ ht).1]

theorem leaf_eq_zero (hno : ∀ t, own t ≠ .table p [k.2.1, k.1]) : s.leaf (root p) k = 0 := by
  rw [Phys.leaf]
  by_cases hne : root p = 0
  · rw [if_pos hne]
  rw [if_neg hne]
  have ht2 := h.root_own p hne
  by_cases h2 : has (s.pte (root p, k.1)) PTE_V
  · obtain ⟨t1, ht1, e1⟩ := h.entry _ p [] k.1 ht2 (by decide) h2
    have hpa := pte2pa (h.table _ _ _ ht1).1
    simp only [e1, has_pte_V, if_true, hpa]
    by_cases h1 : has (s.pte (t1, k.2.1)) PTE_V
    · obtain ⟨t, ht, _⟩ := h.entry _ p [k.1] k.2.1 ht1 (by simp) h1
      exact absurd ht (hno t)
    · rw [if_neg h1]
  · simp only [h2, Bool.false_eq_true, if_false]

/-- A leaf entry is read from the table that `own` names, or there is no such table. -/
theorem leaf_cases (p : TableId) (k : Slot) :
    (∃ t, own t = .table p [k.2.1, k.1] ∧ s.leaf (root p) k = s.pte (t, k.2.2)) ∨
    ((∀ t, own t ≠ .table p [k.2.1, k.1]) ∧ s.leaf (root p) k = 0) := by
  by_cases hex : ∃ t, own t = .table p [k.2.1, k.1]
  · obtain ⟨t, ht⟩ := hex
    exact .inl ⟨t, ht, h.leaf_eq ht⟩
  · have hno : ∀ t, own t ≠ .table p [k.2.1, k.1] := fun t ht => hex ⟨t, ht⟩
    exact .inr ⟨hno, h.leaf_eq_zero hno⟩

/-! ### Changes that leave the tables alone -/

/-- The table pages and their counts are as before; the other pages may have changed. -/
theorem congr (ha : AllocInv s')
    (hpage : ∀ t p path, own t = .table p path → s'.page t = s.page t ∧ s'.count t = s.count t)
    (hheld : ∀ t, own' t = .held → Managed t ∧ s'.count t = 1)
    (htab : ∀ t p path, own' t = .table p path ↔ own t = .table p path
      := by exact fun _ _ _ => Iff.rfl) : Space s' root own' := by
  refine ⟨ha, ?_, ?_, ?_, ?_, ?_, hheld⟩
  · intro p hp
    exact (htab _ _ _).mpr (h.root_own p hp)
  · intro p t ht
    exact h.own_root p t ((htab _ _ _).mp ht)
  · intro t p path i ht hlen hv
    have ht' := (htab _ _ _).mp ht
    rw [pte_congr (hpage t p path ht').1] at hv ⊢
    obtain ⟨u, hu, he⟩ := h.entry t p path i ht' hlen hv
    exact ⟨u, (htab _ _ _).mpr hu, he⟩
  · intro u p i path hu
    obtain ⟨hlen, t, ht, he⟩ := h.parent u p i path ((htab _ _ _).mp hu)
    refine ⟨hlen, t, (htab _ _ _).mpr ht, ?_⟩
    rw [pte_congr (hpage t p path ht).1, he]
  · intro t p path ht
    have ht' := (htab _ _ _).mp ht
    rw [(hpage t p path ht').2]
    exact h.table t p path ht'

theorem leaf_congr (h' : Space s' root own')
    (htab : ∀ t p path, own' t = .table p path ↔ own t = .table p path)
    (hpage : ∀ t p path, own t = .table p path → s'.page t = s.page t) (p : TableId) (k : Slot) :
    s'.leaf (root p) k = s.leaf (root p) k := by
  rcases h.leaf_cases p k with ⟨t, ht, he⟩ | ⟨hno, he⟩
  · rw [he, h'.leaf_eq ((htab _ _ _).mpr ht), pte_congr (hpage t _ _ ht)]
  · rw [he, h'.leaf_eq_zero fun t ht => hno t ((htab _ _ _).mp ht)]

/-! ### Writing a leaf entry -/

theorem setLeaf {i1 i2 : Fin 512} (ht : own t = .table p [i1, i2]) (i : Fin 512) (w : Word) :
    Space (s.setPte (t, i) w) root own := by
  have hm := h.table t p _ ht
  have hpte : ∀ u q path, own u = .table q path → path.length < 2 → ∀ j,
      (s.setPte (t, i) w).pte (u, j) = s.pte (u, j) := by
    intro u q path hu hlen j
    have hne : u ≠ t := by
      rintro rfl
      rw [ht] at hu
      cases hu
      simp at hlen
    exact pte_congr (setPte_page_ne s w hne) j
  refine { h with alloc := h.alloc.setPage fun _ => by rw [hm.2]; decide, entry := ?_, parent := ?_ }
  · intro u q path j hu hlen hv
    rw [hpte u q path hu hlen] at hv ⊢
    exact h.entry u q path j hu hlen hv
  · intro u q j path hu
    obtain ⟨hlen, t', ht', he⟩ := h.parent u q j path hu
    refine ⟨hlen, t', ht', ?_⟩
    rw [hpte t' q path ht' hlen, he]

theorem leaf_setLeaf (ht : own t = .table p [k.2.1, k.1]) (w : Word) (q : TableId) (j : Slot) :
    (s.setPte (t, k.2.2) w).leaf (root q) j =
      if q = p ∧ j = k then w else s.leaf (root q) j := by
  have h' := h.setLeaf ht k.2.2 w
  rcases h.leaf_cases q j with ⟨u, hu, he⟩ | ⟨hno, he⟩
  · rw [h'.leaf_eq hu, he, pte_setPte]
    by_cases hqj : q = p ∧ j = k
    · obtain ⟨rfl, rfl⟩ := hqj
      rw [h.table_unique hu ht]
      simp
    rw [if_neg hqj, if_neg]
    intro heq
    simp only [Prod.mk.injEq] at heq
    obtain ⟨rfl, hidx⟩ := heq
    rw [hu] at ht
    simp only [Owner.table.injEq, List.cons.injEq, and_true] at ht
    exact hqj ⟨ht.1, Prod.ext ht.2.2 (Prod.ext ht.2.1 hidx)⟩
  · rw [h'.leaf_eq_zero hno, he, if_neg]
    rintro ⟨rfl, rfl⟩
    exact hno t ht

/-! ### Allocation -/

theorem own_of_free (hz : s.count t = 0) : own t = .user := by
  cases hown : own t with
  | user => rfl
  | table p path =>
    have := (h.table t p path hown).2
    rw [hz] at this
    cases this
  | held =>
    have := (h.held t hown).2
    rw [hz] at this
    cases this

end

theorem count_kept (hm : Managed r) (hc : s'.cnt = update s.cnt (r / PGSIZE) 1) {q : Nat}
    (hq : Managed q) (hne : q ≠ r) : s'.count q = s.count q := by
  rw [count_update hc hm.1 hq.1, if_neg hne]

theorem kalloc (h : Space s root own) : ∃ r s', Mm.kalloc s = .ok (r, s') ∧
    ((r = 0 ∧ Full s ∧ s'.page = s.page ∧ s'.cnt = s.cnt ∧ Space s' root own) ∨
      (Managed r ∧ s.count r = 0 ∧ own r = .user ∧ (∀ q ≠ r, s'.page q = s.page q) ∧
        s'.cnt = update s.cnt (r / PGSIZE) 1 ∧
        Space s' root (update own r .held))) := by
  obtain ⟨r, s', hk, ha, hcase⟩ := kalloc_spec h.alloc
  refine ⟨r, s', hk, ?_⟩
  rcases hcase with ⟨rfl, hp, hc, hfull⟩ | ⟨hm, hz, hp, hc⟩
  · have hcount : ∀ t, s'.count t = s.count t := fun t => by rw [Phys.count, Phys.count, hc]
    refine .inl ⟨rfl, hfull, hp, hc, h.congr ha ?_ ?_⟩
    · intro t p path _
      exact ⟨by rw [hp], hcount t⟩
    · intro t ht
      rw [hcount]
      exact h.held t ht
  have hu := h.own_of_free hz
  refine .inr ⟨hm, hz, hu, hp, hc,
    h.congr ha ?_ ?_ (Owner.table_update (Owner.user_ne_table hu) (by simp))⟩
  · intro t p path ht
    have htr : t ≠ r := by
      rintro rfl
      exact Owner.user_ne_table hu p path ht
    exact ⟨hp t htr, count_kept hm hc (h.table t p path ht).1 htr⟩
  · intro t ht
    by_cases htr : t = r
    · subst htr
      exact ⟨hm, by rw [count_update hc hm.1 hm.1, if_pos rfl]⟩
    · rw [update_of_ne htr] at ht
      rw [count_kept hm hc (h.held t ht).1 htr]
      exact h.held t ht

theorem addTable (h : Space s root own) (ht : own t = .table p path) (hlen : path.length < 2)
    (hv : has (s.pte (t, i)) PTE_V = false) (hr : own r = .held) :
    Space ((s.setPage r fun _ => 0).setPte (t, i) (PA2PTE r ||| PTE_V)) root
      (update own r (.table p (i :: path))) := by
  have hm := h.held r hr
  have htr : t ≠ r := by
    rintro rfl
    rw [ht] at hr
    cases hr
  have hmt := h.table t p path ht
  let s1 := (s.setPage r fun _ => 0).setPte (t, i) (PA2PTE r ||| PTE_V)
  have hfresh : ∀ u, own u ≠ .table p (i :: path) := by
    intro u hu
    rw [h.pte_of_child ht hu, has_pte_V] at hv
    cases hv
  have hpte : ∀ u j, u ≠ r → s1.pte (u, j) =
      if (u, j) = (t, i) then PA2PTE r ||| PTE_V else s.pte (u, j) := by
    intro u j hu
    rw [pte_setPte]
    congr 1
    exact pte_congr (update_of_ne hu _ _) j
  have hpter : ∀ j, s1.pte (r, j) = 0 := by
    intro j
    rw [pte_setPte, if_neg (by simp [htr.symm])]
    simp [pte]
  have hold : ∀ u q path', own u = .table q path' → u ≠ r := by
    rintro u q path' hu rfl
    rw [hr] at hu
    cases hu
  have hown : ∀ u q path', own u = .table q path' →
      update own r (.table p (i :: path)) u = .table q path' := by
    intro u q path' hu
    rw [update_of_ne (hold u q path' hu), hu]
  refine ⟨(h.alloc.setPage fun _ => by rw [hm.2]; decide).setPage
    fun _ => by change s.count t ≠ 0; rw [hmt.2]; decide, ?_, ?_, ?_, ?_, ?_, ?_⟩
  · intro q hq
    exact hown _ q [] (h.root_own q hq)
  · intro q u hu
    by_cases hur : u = r
    · subst hur
      simp at hu
    · rw [update_of_ne hur] at hu
      exact h.own_root q u hu
  · intro u q path' j hu hlen' hval
    by_cases hur : u = r
    · subst hur
      rw [hpter j] at hval
      cases hval
    rw [update_of_ne hur] at hu
    rw [hpte u j hur] at hval ⊢
    by_cases huj : (u, j) = (t, i)
    · cases huj
      rw [ht] at hu
      cases hu
      exact ⟨r, by simp, if_pos rfl⟩
    · rw [if_neg huj] at hval ⊢
      obtain ⟨v, hv', he⟩ := h.entry u q path' j hu hlen' hval
      exact ⟨v, hown v q _ hv', he⟩
  · intro u q j path' hu
    by_cases hur : u = r
    · subst hur
      rw [update_self] at hu
      cases hu
      exact ⟨hlen, t, hown t p path ht, by rw [hpte t i htr, if_pos rfl]⟩
    rw [update_of_ne hur] at hu
    obtain ⟨hlen', t', ht', he⟩ := h.parent u q j path' hu
    refine ⟨hlen', t', hown t' q path' ht', ?_⟩
    rw [hpte t' j (hold t' q path' ht'), he, if_neg]
    intro hti
    cases hti
    rw [ht] at ht'
    cases ht'
    exact hfresh u hu
  · intro u q path' hu
    by_cases hur : u = r
    · subst hur
      exact hm
    · rw [update_of_ne hur] at hu
      exact h.table u q path' hu
  · intro u hu
    by_cases hur : u = r
    · subst hur
      simp at hu
    · rw [update_of_ne hur] at hu
      exact h.held u hu

/-- A new table has no entries yet, so it changes no leaf entry. -/
theorem leaf_addTable (h : Space s root own) (ht : own t = .table p path) (hlen : path.length < 2)
    (hv : has (s.pte (t, i)) PTE_V = false) (hr : own r = .held) (q : TableId) (k : Slot) :
    ((s.setPage r fun _ => 0).setPte (t, i) (PA2PTE r ||| PTE_V)).leaf (root q) k =
      s.leaf (root q) k := by
  have h' := h.addTable ht hlen hv hr
  have htr : t ≠ r := by
    rintro rfl
    rw [ht] at hr
    cases hr
  rcases h.leaf_cases q k with ⟨u, hu, he⟩ | ⟨hno, he⟩
  · have hur : u ≠ r := by
      rintro rfl
      rw [hr] at hu
      cases hu
    have hut : (u, k.2.2) ≠ (t, i) := by
      intro hti
      cases hti
      rw [ht] at hu
      cases hu
      simp at hlen
    rw [he, h'.leaf_eq (by rw [update_of_ne hur, hu]), pte_setPte, if_neg hut]
    exact pte_congr (update_of_ne hur _ _) _
  · rw [he]
    rcases h'.leaf_cases q k with ⟨u, hu, he'⟩ | ⟨_, he'⟩
    · by_cases hur : u = r
      · subst hur
        rw [he', pte_setPte, if_neg (by simp [htr.symm])]
        simp [pte]
      · rw [update_of_ne hur] at hu
        exact absurd hu (hno u)
    · exact he'

end Space

end Yyds.Mm
