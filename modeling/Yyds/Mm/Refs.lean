import Yyds.Lib.RefCount
import Yyds.Mm.Walk

/-! Reference counts against the leaf entries of all page tables. -/
namespace Yyds.Mm

open Lib Layout Function

/-- The page that a user entry maps, if it is valid. -/
def target (s : Phys) (root : TableId → Nat) (x : TableId × Slot) : Option Nat :=
  if x.2.va < TRAPFRAME ∧ has (s.leaf (root x.1) x.2) PTE_V then
    some (PTE2PA (s.leaf (root x.1) x.2))
  else none

variable {s s' s1 : Phys} {root : TableId → Nat} {own own' own1 : Nat → Owner} {p q : TableId}
  {t u r : Nat} {k : Slot} {w : Word} {x y : TableId × Slot} {v : Option Nat}

theorem target_eq_some : target s root x = some t ↔ x.2.va < TRAPFRAME ∧
    has (s.leaf (root x.1) x.2) PTE_V ∧ PTE2PA (s.leaf (root x.1) x.2) = t := by
  rw [target]
  split
  case isTrue h => simp [h.1, h.2]
  case isFalse h =>
    simp only [reduceCtorEq, false_iff]
    rintro ⟨h1, h2, _⟩
    exact h ⟨h1, h2⟩

theorem target_congr {root' : TableId → Nat} (h : s'.leaf (root' x.1) x.2 = s.leaf (root x.1) x.2) :
    target s' root' x = target s root x := by
  rw [target, target, h]

theorem target_root {root' : TableId → Nat}
    (h : ∀ q k, s'.leaf (root' q) k = s.leaf (root q) k) : target s' root' = target s root :=
  funext fun x => target_congr (h x.1 x.2)

/-- The page that the entry `w` at `k` maps. -/
def entryTarget (k : Slot) (w : Word) : Option Nat :=
  if k.va < TRAPFRAME ∧ has w PTE_V then some (PTE2PA w) else none

theorem target_put [Layout] (h : Space.PutLeaf root p k w s s') :
    target s' root = update (target s root) (p, k) (entryTarget k w) := by
  funext y
  by_cases hy : y = (p, k)
  · subst hy
    rw [target, entryTarget, h p k]
    simp
  · rw [update_of_ne hy]
    refine target_congr ?_
    rw [h y.1 y.2, if_neg]
    rintro ⟨h1, h2⟩
    exact hy (Prod.ext h1 h2)

theorem ofNat_inj {m n : Nat} (hm : m < 2 ^ 25) (hn : n < 2 ^ 25) :
    BitVec.ofNat 32 m = BitVec.ofNat 32 n ↔ m = n := by
  rw [← BitVec.toNat_inj, BitVec.toNat_ofNat, BitVec.toNat_ofNat]
  omega

variable [Layout]

/-- The page tables are in order, and for each user page `ref.cnt` is the number of user
entries that map it; a writable entry is the only one. -/
structure Counted (s : Phys) (root : TableId → Nat) (own : Nat → Owner) : Prop where
  space : Space s root own
  count : ∀ t, Managed t → own t = .user →
    s.count t = BitVec.ofNat 32 (refs (target s root) t)
  user : ∀ x t, target s root x = some t → Managed t ∧ own t = .user
  writable : ∀ x t, target s root x = some t → has (s.leaf (root x.1) x.2) PTE_W →
    refs (target s root) t = 1

/-- The entries that map one page lie in distinct words of page-table pages. -/
theorem Space.refs_le (h : Space s root own) (t : Nat) : refs (target s root) t ≤ 2 ^ 24 := by
  have hex : ∀ x, target s root x = some t → ∃ u, own u = .table x.1 [x.2.2.1, x.2.1] := by
    intro x hx
    rcases h.leaf_cases x.1 x.2 with ⟨u, hu, _⟩ | ⟨_, h0⟩
    · exact ⟨u, hu⟩
    · rw [target_eq_some, h0] at hx
      exact absurd hx.2.1 (by decide)
  let page : TableId × Slot → Nat := fun x =>
    if hx : target s root x = some t then (hex x hx).choose else 0
  have hpage : ∀ x, target s root x = some t → own (page x) = .table x.1 [x.2.2.1, x.2.1] := by
    intro x hx
    simp only [page, dif_pos hx]
    exact (hex x hx).choose_spec
  have hle := Lib.refs_le (f := target s root) (a := t)
    (fun x => (Fin.ofNat (2 ^ 15) (page x / PGSIZE), x.2.2.2)) ?_
  · rw [Fintype.card_prod, Fintype.card_fin, Fintype.card_fin] at hle
    omega
  · intro x y hx hy he
    have hx' := hpage x hx
    have hy' := hpage y hy
    have hmx := (h.table _ _ _ hx').1
    have hmy := (h.table _ _ _ hy').1
    simp only [Prod.mk.injEq, Fin.ext_iff, Fin.val_ofNat] at he
    have hsame : page x = page y := by
      have hb := kernbase_le
      have hc := trampoline_lt
      obtain ⟨a1, a2, a3⟩ := hmx
      obtain ⟨b1, b2, b3⟩ := hmy
      have h1 := he.1
      have hK : KERNBASE = 2147483648 := rfl
      rw [PHYSTOP_eq] at a3 b3
      simp only [PGSIZE] at a1 b1 h1
      omega
    rw [hsame, hy'] at hx'
    simp only [Owner.table.injEq, List.cons.injEq, and_true] at hx'
    exact (Prod.ext hx'.1 (Prod.ext hx'.2.2 (Prod.ext hx'.2.1 (Fin.ext he.2.symm)))).symm

namespace Counted

section
variable (C : Counted s root own)
include C

theorem own_of_refs (h : refs (target s root) t ≠ 0) : Managed t ∧ own t = .user := by
  by_contra hno
  refine h (refs_eq_zero.mpr ?_)
  intro x hx
  exact hno (C.user x t hx)

theorem count_eq_ofNat (hm : Managed t) (ho : own t = .user) {n : Nat} (hn : n < 2 ^ 25) :
    s.count t = BitVec.ofNat 32 n ↔ refs (target s root) t = n := by
  rw [C.count t hm ho, ofNat_inj (Nat.lt_of_le_of_lt (C.space.refs_le t) (by decide)) hn]

theorem count_eq_one (hx : target s root x = some t) :
    s.count t = 1 ↔ refs (target s root) t = 1 := by
  obtain ⟨hm, ho⟩ := C.user x t hx
  exact C.count_eq_ofNat hm ho (by decide)

theorem count_ne_zero (hx : target s root x = some t) : s.count t ≠ 0 := by
  obtain ⟨hm, ho⟩ := C.user x t hx
  intro h0
  have := (C.count_eq_ofNat hm ho (n := 0) (by decide)).mp h0
  have := refs_pos hx
  omega

theorem refs_of_free (hm : Managed t) (hz : s.count t = 0) : refs (target s root) t = 0 :=
  (C.count_eq_ofNat hm (C.space.own_of_free hz) (n := 0) (by decide)).mp hz

theorem refs_of_held (ho : own t ≠ .user) : refs (target s root) t = 0 := by
  by_contra h
  exact ho (C.own_of_refs h).2

/-- The leaf entries are as before, and so are the counts of the pages they map. -/
theorem of_same (S : Space s' root own') (hl : SameLeaf root s s')
    (hc : ∀ t, Managed t → own' t = .user → s'.count t = BitVec.ofNat 32 (refs (target s root) t))
    (ho : ∀ t, refs (target s root) t ≠ 0 → own' t = .user) : Counted s' root own' := by
  have ht := target_root hl
  refine ⟨S, ?_, ?_, ?_⟩
  · rw [ht]
    exact hc
  · rw [ht]
    intro x t hx
    exact ⟨(C.user x t hx).1, ho t (Nat.pos_iff_ne_zero.mp (refs_pos hx))⟩
  · rw [ht]
    intro x t hx hw
    rw [hl x.1 x.2] at hw
    exact C.writable x t hx hw

/-! ### Pages that come and go -/

theorem frame (S : Space s' root own') (hf : Frame p s own s' own') (hl : SameLeaf root s s') :
    Counted s' root own' := by
  refine C.of_same S hl ?_ ?_
  · intro t hm ht
    have hno : ∀ p path, own' t ≠ .table p path := by
      intro p path h
      rw [ht] at h
      cases h
    rw [hf.count t hm hno]
    exact C.count t hm (hf.user ht)
  · intro t hr
    obtain ⟨hm, ho⟩ := C.own_of_refs hr
    exact hf.user_kept ho fun hz => hr (C.refs_of_free hm hz)

theorem kalloc : ∃ r s', Mm.kalloc s = .ok (r, s') ∧
    SameLeaf root s s' ∧
    ((r = 0 ∧ Full s ∧ s'.page = s.page ∧ s'.cnt = s.cnt ∧ Counted s' root own) ∨
      (Managed r ∧ s.count r = 0 ∧ own r = .user ∧ (∀ q ≠ r, s'.page q = s.page q) ∧
        s'.cnt = update s.cnt (r / PGSIZE) 1 ∧
        Counted s' root (update own r .held))) := by
  obtain ⟨r, s', hk, hcase⟩ := C.space.kalloc
  refine ⟨r, s', hk, ?_⟩
  rcases hcase with ⟨rfl, hfull, hp, hc, S⟩ | ⟨hm, hz, hu, hp, hc, S⟩
  · have hl : SameLeaf root s s' :=
      C.space.leaf_congr S (fun _ _ _ => Iff.rfl) fun _ _ _ _ => by rw [hp]
    refine ⟨hl, .inl ⟨rfl, hfull, hp, hc, C.of_same S hl ?_ fun t ht => (C.own_of_refs ht).2⟩⟩
    intro t hm ht
    rw [Phys.count, hc]
    exact C.count t hm ht
  have hnt := Owner.user_ne_table hu
  have hl : SameLeaf root s s' := by
    refine C.space.leaf_congr S (Owner.table_update hnt (by simp)) ?_
    rintro t p path ht
    refine hp t ?_
    rintro rfl
    exact hnt p path ht
  refine ⟨hl, .inr ⟨hm, hz, hu, hp, hc, C.of_same S hl ?_ ?_⟩⟩
  · intro t hmt ht
    have htr : t ≠ r := by
      rintro rfl
      simp at ht
    rw [update_of_ne htr] at ht
    rw [Space.count_kept hm hc hmt htr]
    exact C.count t hmt ht
  · intro t ht
    have htr : t ≠ r := by
      rintro rfl
      exact ht (C.refs_of_free hm hz)
    rw [update_of_ne htr]
    exact (C.own_of_refs ht).2

theorem setPage (pg : Page) (ht : ∀ p path, own t ≠ .table p path)
    (hc : Managed t → s.count t ≠ 0) :
    Counted (s.setPage t pg) root own ∧ SameLeaf root s (s.setPage t pg) := by
  have hne : ∀ u p path, own u = .table p path → u ≠ t := by
    rintro u p path hu rfl
    exact ht p path hu
  have hpage : ∀ u p path, own u = .table p path → (s.setPage t pg).page u = s.page u :=
    fun u p path hu => update_of_ne (hne u p path hu) _ _
  have S : Space (s.setPage t pg) root own :=
    C.space.congr (C.space.alloc.setPage hc)
      (fun u p path hu => ⟨hpage u p path hu, rfl⟩) C.space.held
  have hl : SameLeaf root s (s.setPage t pg) := C.space.leaf_congr S (fun _ _ _ => Iff.rfl) hpage
  exact ⟨C.of_same S hl C.count fun u hu => (C.own_of_refs hu).2, hl⟩

theorem kfree_held (hr : own r = .held) :
    ∃ s', kfree r s = .ok ((), s') ∧ (∀ q ≠ r, s'.page q = s.page q) ∧
      s'.cnt = update s.cnt (r / PGSIZE) 0 ∧ SameLeaf root s s' ∧
      Counted s' root (update own r .user) := by
  obtain ⟨hm, hone⟩ := C.space.held r hr
  obtain ⟨s', hk, ha, hp, hc, _⟩ := kfree_spec C.space.alloc hm (by rw [hone]; decide)
  rw [hone] at hc
  have hc' : s'.cnt = update s.cnt (r / PGSIZE) 0 := hc
  have hcount : ∀ t, Managed t → t ≠ r → s'.count t = s.count t := by
    intro t hmt htr
    rw [Phys.count_update hc' hm.1 hmt.1, if_neg htr]
  have hnt := Owner.held_ne_table hr
  have htab := Owner.table_update (o := .user) hnt (by simp)
  have hne : ∀ t p path, own t = .table p path → t ≠ r := by
    rintro t p path ht rfl
    exact hnt p path ht
  have S : Space s' root (update own r .user) := by
    refine C.space.congr ha ?_ ?_ htab
    · intro t p path ht
      exact ⟨hp t (hne t p path ht), hcount t (C.space.table t p path ht).1 (hne t p path ht)⟩
    · intro t ht
      have htr : t ≠ r := by
        rintro rfl
        simp at ht
      rw [update_of_ne htr] at ht
      rw [hcount t (C.space.held t ht).1 htr]
      exact C.space.held t ht
  have hl : SameLeaf root s s' :=
    C.space.leaf_congr S htab fun t p path ht => hp t (hne t p path ht)
  refine ⟨s', hk, hp, hc', hl, C.of_same S hl ?_ ?_⟩
  · intro t hmt ht
    by_cases htr : t = r
    · subst htr
      rw [Phys.count_update hc' hm.1 hm.1, if_pos rfl, C.refs_of_held (by rw [hr]; simp)]
      rfl
    · rw [update_of_ne htr] at ht
      rw [hcount t hmt htr]
      exact C.count t hmt ht
  · intro t ht
    have htr : t ≠ r := by
      rintro rfl
      exact ht (C.refs_of_held (by rw [hr]; simp))
    rw [update_of_ne htr]
    exact (C.own_of_refs ht).2

end

end Counted

end Yyds.Mm
