import Yyds.Mm.Teardown

/-! Page tables that begin, and page tables that change hands. -/
namespace Yyds.Mm

open Lib Layout Function

variable [Layout] {s s' : Phys} {root : TableId → Nat} {own own' : Nat → Owner} {c p q : TableId}
  {r a : Nat} {e : Int} {k : Slot}

/-! ### A new root page -/

namespace Space

section
variable (h : Space s root own) (hc : root c = 0)
include h hc

theorem no_table (t : Nat) (path : List (Fin 512)) : own t ≠ .table c path :=
  fun ht => h.root_ne ht hc

/-- A held page becomes the root of a page table without entries. -/
theorem addRoot (hr : own r = .held) :
    Space (s.setPage r fun _ => 0) (update root c r)
      (update own r (.table c [])) := by
  have hne : ∀ t p path, own t = .table p path → t ≠ r := by
    rintro t p path ht rfl
    rw [hr] at ht
    cases ht
  have hupd : ∀ t p path, own t = .table p path → update own r (.table c []) t = .table p path := by
    intro t p path ht
    rw [update_of_ne (hne t p path ht), ht]
  have hpte : ∀ t i, t ≠ r → (s.setPage r fun _ => 0).pte (t, i) = s.pte (t, i) :=
    fun t i ht => Phys.pte_congr (update_of_ne ht _ _) i
  obtain ⟨hm, hone⟩ := h.held r hr
  refine ⟨h.alloc.setPage fun _ => by rw [hone]; decide, ?_, ?_, ?_, ?_, ?_, ?_⟩
  · intro p hp
    by_cases hpc : p = c
    · subst hpc
      rw [update_self, update_self]
    · rw [update_of_ne hpc] at hp ⊢
      exact hupd _ _ _ (h.root_own p hp)
  · intro p t ht
    by_cases htr : t = r
    · subst htr
      rw [update_self] at ht
      cases ht
      exact update_self _ _ _
    · rw [update_of_ne htr] at ht
      have hpc : p ≠ c := by
        rintro rfl
        exact h.no_table hc t [] ht
      rw [update_of_ne hpc]
      exact h.own_root p t ht
  · intro t p path i ht hlen hv
    by_cases htr : t = r
    · subst htr
      have hz : (s.setPage t fun _ => 0).pte (t, i) = 0 := by
        simp only [Phys.pte, Phys.setPage_page, update_self]
      rw [hz] at hv
      exact absurd hv (by decide)
    · rw [update_of_ne htr] at ht
      rw [hpte t i htr] at hv ⊢
      obtain ⟨u, hu, he⟩ := h.entry t p path i ht hlen hv
      exact ⟨u, hupd _ _ _ hu, he⟩
  · intro u p i path hu
    by_cases hur : u = r
    · subst hur
      rw [update_self] at hu
      cases hu
    · rw [update_of_ne hur] at hu
      obtain ⟨hlen, t, ht, he⟩ := h.parent u p i path hu
      refine ⟨hlen, t, hupd _ _ _ ht, ?_⟩
      rw [hpte t i (hne _ _ _ ht), he]
  · intro t p path ht
    by_cases htr : t = r
    · subst htr
      exact ⟨hm, hone⟩
    · rw [update_of_ne htr] at ht
      exact h.table t p path ht
  · intro t ht
    by_cases htr : t = r
    · subst htr
      rw [update_self] at ht
      cases ht
    · rw [update_of_ne htr] at ht
      exact h.held t ht

theorem leaf_addRoot (hr : own r = .held) (q : TableId) (k : Slot) :
    (s.setPage r fun _ => 0).leaf (update root c r q) k = s.leaf (root q) k := by
  have h' := h.addRoot hc hr
  by_cases hq : q = c
  · subst hq
    rw [h.leaf_eq_zero (h.no_table hc · _), h'.leaf_eq_zero]
    intro t ht
    by_cases htr : t = r
    · subst htr
      rw [update_self] at ht
      cases ht
    · rw [update_of_ne htr] at ht
      exact h.no_table hc t _ ht
  · have hown : ∀ t path, update own r (.table c []) t = .table q path ↔ own t = .table q path := by
      intro t path
      by_cases htr : t = r
      · subst htr
        rw [update_self, hr]
        simp only [Owner.table.injEq, reduceCtorEq, iff_false, not_and]
        exact fun h => absurd h.symm hq
      · rw [update_of_ne htr]
    rcases h.leaf_cases q k with ⟨t, ht, he⟩ | ⟨hno, he⟩
    · rw [he, h'.leaf_eq ((hown t _).mpr ht)]
      refine Phys.pte_congr (update_of_ne ?_ _ _) _
      rintro rfl
      rw [hr] at ht
      cases ht
    · rw [he]
      exact h'.leaf_eq_zero fun t ht => hno t ((hown t _).mp ht)

end

end Space

theorem Counted.addRoot (C : Counted s root own) (hc : root c = 0) (hr : own r = .held) :
    Counted (s.setPage r fun _ => 0) (update root c r)
      (update own r (.table c [])) := by
  have hl := C.space.leaf_addRoot hc hr
  have ht := target_root hl
  refine ⟨C.space.addRoot hc hr, ?_, ?_, ?_⟩
  · rw [ht]
    intro t hm ho
    by_cases htr : t = r
    · subst htr
      rw [update_self] at ho
      cases ho
    · rw [update_of_ne htr] at ho
      exact C.count t hm ho
  · rw [ht]
    intro x t hx
    obtain ⟨hm, ho⟩ := C.user x t hx
    refine ⟨hm, ?_⟩
    rw [update_of_ne, ho]
    rintro rfl
    rw [hr] at ho
    cases ho
  · rw [ht]
    intro x t hx hw
    rw [hl] at hw
    exact C.writable x t hx hw

/-! ### What a process without page table keeps -/

section
omit [Layout]

/-- Only the page tables of the entries at hand matter. -/
theorem Keeps.congr_root {K : TableId × Slot → Prop} {root' : TableId → Nat}
    (h : Keeps root K s s') (hr : ∀ x, ¬ K x → root' x.1 = root x.1) : Keeps root' K s s' := by
  intro x hx
  obtain ⟨hl, hp⟩ := h x hx
  refine ⟨by rw [hr x hx, hl], fun t ht => hp t ?_⟩
  rw [← ht]
  exact target_congr (by rw [hr x hx])

theorem Keeps.of_no_table (h : Keeps root (fun x => x.1 = c) s s') (hc : root c = 0) :
    Keeps root (fun _ => False) s s' := by
  intro x _
  by_cases hx : x.1 = c
  · have h0 : ∀ n : Phys, n.leaf (root x.1) x.2 = 0 := by
      intro n
      rw [hx, hc]
      rfl
    refine ⟨by rw [h0, h0], fun t ht => ?_⟩
    have hv := (target_eq_some.mp ht).2.1
    rw [h0] at hv
    exact absurd hv (by decide)
  · exact h x hx

theorem Grows.dropped (G : Grows c own own') (hno : ∀ t path, own t ≠ .table c path) :
    Grows c own (fun u => (own' u).drop c) where
  held t := Owner.drop_eq_held.trans (G.held t)
  other q hq t path := by
    rw [Owner.drop_eq_table, G.other q hq]
    exact ⟨fun h => h.2, fun h => ⟨hq, h⟩⟩
  mine t path ht := absurd ht (hno t path)

end

/-! ### Renaming -/

/-- The pages when the tables are numbered anew. -/
def Owner.rename (σ : TableId ≃ TableId) : Owner → Owner
  | .table p path => .table (σ p) path
  | o => o

namespace Owner

variable {σ : TableId ≃ TableId} {o : Owner} {path : List (Fin 512)}

section
omit [Layout]

theorem rename_eq_table : o.rename σ = .table p path ↔ o = .table (σ.symm p) path := by
  cases o with
  | user => simp [rename]
  | held => simp [rename]
  | table q path' => simp [rename, Equiv.eq_symm_apply]

theorem rename_eq_held : o.rename σ = .held ↔ o = .held := by
  cases o <;> simp [rename]

theorem rename_eq_user : o.rename σ = .user ↔ o = .user := by
  cases o <;> simp [rename]

end

end Owner

theorem Space.rename (h : Space s root own) (σ : TableId ≃ TableId) :
    Space s (fun q => root (σ.symm q)) (fun t => (own t).rename σ) := by
  refine ⟨h.alloc, ?_, ?_, ?_, ?_, ?_, ?_⟩
  · intro p hp
    rw [Owner.rename_eq_table]
    exact h.root_own _ hp
  · intro p t ht
    rw [Owner.rename_eq_table] at ht
    exact h.own_root _ t ht
  · intro t p path i ht hlen hv
    rw [Owner.rename_eq_table] at ht
    obtain ⟨u, hu, he⟩ := h.entry t _ path i ht hlen hv
    exact ⟨u, Owner.rename_eq_table.mpr hu, he⟩
  · intro u p i path hu
    rw [Owner.rename_eq_table] at hu
    obtain ⟨hlen, t, ht, he⟩ := h.parent u _ i path hu
    exact ⟨hlen, t, Owner.rename_eq_table.mpr ht, he⟩
  · intro t p path ht
    rw [Owner.rename_eq_table] at ht
    exact h.table t _ path ht
  · intro t ht
    rw [Owner.rename_eq_held] at ht
    exact h.held t ht

theorem Counted.rename (C : Counted s root own) (σ : TableId ≃ TableId) :
    Counted s (fun q => root (σ.symm q)) (fun t => (own t).rename σ) := by
  have hrefs : ∀ t, refs (target s fun q => root (σ.symm q)) t = refs (target s root) t := by
    intro t
    exact refs_comp (σ.symm.prodCongr (Equiv.refl Slot)) (target s root) t
  refine ⟨C.space.rename σ, ?_, ?_, ?_⟩
  · intro t hm ho
    rw [hrefs]
    exact C.count t hm (Owner.rename_eq_user.mp ho)
  · intro x t hx
    obtain ⟨hm, ho⟩ := C.user (σ.symm x.1, x.2) t hx
    exact ⟨hm, Owner.rename_eq_user.mpr ho⟩
  · intro x t hx hw
    rw [hrefs]
    exact C.writable (σ.symm x.1, x.2) t hx hw

end Yyds.Mm
