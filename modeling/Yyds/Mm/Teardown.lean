import Yyds.Mm.ForkSpec

/-! `freewalk`: the tables of a page table without leaf entries go back to the allocator. -/
namespace Yyds.Mm

open Lib Kern Layout Function Owner

variable {own : Nat → Owner} {p q : TableId} {path : List (Fin 512)} {t u : Nat} {i j : Fin 512}

/-- `u` is the table under `path` or one below it. -/
def Below (own : Nat → Owner) (p : TableId) (path : List (Fin 512)) (u : Nat) : Prop :=
  ∃ ext, own u = .table p (ext ++ path)

theorem Below.of_cons (h : Below own p (i :: path) u) : Below own p path u := by
  obtain ⟨ext, hu⟩ := h
  exact ⟨ext ++ [i], by rw [hu, List.append_assoc, List.singleton_append]⟩

theorem Below.index_unique (hi : Below own p (i :: path) u) (hj : Below own p (j :: path) u) :
    i = j := by
  obtain ⟨ext, hu⟩ := hi
  obtain ⟨ext', hu'⟩ := hj
  rw [hu, Owner.table.injEq] at hu'
  have := (List.append_inj' hu'.2 (by simp)).2
  exact (List.cons.inj this).1

theorem Below.ne (h : Below own p (i :: path) u) (ht : own t = .table p path) : u ≠ t := by
  rintro rfl
  obtain ⟨ext, hu⟩ := h
  rw [ht, Owner.table.injEq] at hu
  have := congrArg List.length hu.2
  simp at this
  omega

variable [Layout] {s s₀ s' : Phys} {root : TableId → Nat}

section
variable (S : Space s root own) (ht : own t = .table p path)
include S ht

theorem Space.below_iff : Below own p path u ↔ u = t ∨ ∃ j, Below own p (j :: path) u := by
  constructor
  · rintro ⟨ext, hu⟩
    rcases List.eq_nil_or_concat ext with rfl | ⟨ext', j, rfl⟩
    · exact .inl (S.table_unique hu ht)
    · refine .inr ⟨j, ext', ?_⟩
      rw [hu]
      simp
  · rintro (rfl | ⟨j, h⟩)
    · exact ⟨[], ht⟩
    · exact h.of_cons

theorem Space.length_le : path.length ≤ 2 := by
  cases path with
  | nil => simp
  | cons i path => exact (S.parent t p i path ht).1

theorem Space.not_below (hv : has (s.pte (t, i)) PTE_V = false) (u : Nat) :
    ¬ Below own p (i :: path) u := by
  rintro ⟨ext, hu⟩
  obtain ⟨v, hv'⟩ := S.exists_prefix ext hu
  rw [S.pte_of_child ht hv', has_pte_V] at hv
  cases hv

/-- A leaf entry of the last level is read through the table above it. -/
theorem Space.last_level (hlen : path.length = 2)
    (hnone : ∀ k, has (s.leaf (root p) k) PTE_V = false) (i : Fin 512) :
    has (s.pte (t, i)) PTE_V = false := by
  match path, hlen with
  | [i1, i2], _ =>
    rw [← S.leaf_eq (k := (i2, i1, i)) ht]
    exact hnone _

end

/-- Pages in `D` have been freed, and nothing else has changed. -/
structure Freed (D : Nat → Prop) (s s' : Phys) : Prop where
  alloc : AllocInv s'
  zero : ∀ u, D u → s'.count u = 0
  count : ∀ u, Managed u → ¬ D u → s'.count u = s.count u
  page : ∀ u, ¬ D u → s'.page u = s.page u

/-- What `freewalk` needs of the tables in `D`: they are as they were in `s₀`, and in use. -/
def Intact (D : Nat → Prop) (s₀ s : Phys) : Prop :=
  ∀ u, D u → s.page u = s₀.page u ∧ s.count u = 1

omit [Layout] in
theorem has_table_RWX (u : Nat) : has (PA2PTE u ||| PTE_V) (PTE_R ||| PTE_W ||| PTE_X) = false := by
  have hzero : (PA2PTE u ||| PTE_V) &&& (PTE_R ||| PTE_W ||| PTE_X) = 0 := by
    refine BitVec.eq_of_getLsbD_eq fun i _ => ?_
    rw [BitVec.getLsbD_and]
    by_cases hi : i < 10
    · rw [getLsbD_PA2PTE_or u _ hi, getLsbD_PTE_V]
      by_cases h0 : 0 = i
      · subst h0
        decide
      · simp [h0]
    · have hhigh := IsFlags.high (f := PTE_R ||| PTE_W ||| PTE_X) (by decide) (i := i) (by omega)
      rw [hhigh]
      simp
  simp [has, hzero]

section
variable (S : Space s₀ root own) (ht : own t = .table p path)
  (hnone : ∀ k, has (s₀.leaf (root p) k) PTE_V = false)
include S ht hnone

theorem freeEntry_spec {walk : Nat → Kern Phys Unit}
    (hwalk : ∀ u i s, own u = .table p (i :: path) → AllocInv s →
      Intact (Below own p (i :: path)) s₀ s →
      ∃ s', walk u s = .ok ((), s') ∧ Freed (Below own p (i :: path)) s s')
    (ha : AllocInv s) (hone : s.count t = 1) (hpte : s.pte (t, i) = s₀.pte (t, i))
    (hsub : Intact (Below own p (i :: path)) s₀ s) :
    ∃ s', freeEntry walk t i s = .ok ((), s') ∧ AllocInv s' ∧
      (∀ u, Below own p (i :: path) u → s'.count u = 0) ∧
      (∀ u, Managed u → ¬ Below own p (i :: path) u → s'.count u = s.count u) ∧
      (∀ u ≠ t, ¬ Below own p (i :: path) u → s'.page u = s.page u) ∧
      ∀ j ≠ i, s'.pte (t, j) = s.pte (t, j) := by
  rw [freeEntry, get_bind_apply, hpte]
  have hm := (S.table t p path ht).1
  by_cases hv : has (s₀.pte (t, i)) PTE_V
  · have hlen : path.length < 2 := by
      by_contra hge
      have := S.last_level ht (by have := S.length_le ht; omega) hnone i
      rw [hv] at this
      cases this
    obtain ⟨u, hu, he⟩ := S.entry t p path i ht hlen hv
    have hmu := (S.table u p _ hu).1
    obtain ⟨s1, h1, F⟩ := hwalk u i s hu ha hsub
    have htb : ¬ Below own p (i :: path) t := fun h => h.ne ht rfl
    have hone1 : s1.count t = 1 := (F.count t hm htb).trans hone
    refine ⟨s1.setPte (t, i) 0, ?_, ?_, F.zero, F.count, ?_, ?_⟩
    · rw [he, if_pos ⟨has_pte_V u, has_table_RWX u⟩, Space.pte2pa hmu, bind_of_ok h1]
      rfl
    · refine F.alloc.setPage fun _ => ?_
      rw [hone1]
      decide
    · intro v hv hb
      exact (Phys.setPte_page_ne _ _ hv).trans (F.page v hb)
    · intro j hj
      rw [Phys.pte_setPte, if_neg (fun h => hj (congrArg Prod.snd h)),
        Phys.pte_congr (F.page t htb)]
  · have hv' : has (s₀.pte (t, i)) PTE_V = false := by simpa using hv
    rw [if_neg fun h => hv h.1]
    exact ⟨s, rfl, ha, fun u hu => absurd hu (S.not_below ht hv' u), fun _ _ _ => rfl,
      fun _ _ _ => rfl, fun _ _ => rfl⟩

/-- The loop of `freewalk` over the entries `l` of the table `t`, when the recursive calls do
as they should. -/
theorem freeEntries_spec (walk : Nat → Kern Phys Unit)
    (hwalk : ∀ u i s, own u = .table p (i :: path) → AllocInv s →
      Intact (Below own p (i :: path)) s₀ s →
      ∃ s', walk u s = .ok ((), s') ∧ Freed (Below own p (i :: path)) s s')
    {l : List (Fin 512)} (hl : l.Nodup) (ha : AllocInv s) (hone : s.count t = 1)
    (hpte : ∀ j ∈ l, s.pte (t, j) = s₀.pte (t, j))
    (hsub : ∀ j ∈ l, Intact (Below own p (j :: path)) s₀ s) :
    ∃ s', Kern.forEach l (freeEntry walk t) s = .ok ((), s') ∧ AllocInv s' ∧
      (∀ u, (∃ j ∈ l, Below own p (j :: path) u) → s'.count u = 0) ∧
      (∀ u, Managed u → (∀ j ∈ l, ¬ Below own p (j :: path) u) → s'.count u = s.count u) ∧
      ∀ u ≠ t, (∀ j ∈ l, ¬ Below own p (j :: path) u) → s'.page u = s.page u := by
  induction l generalizing s with
  | nil => exact ⟨s, rfl, ha, by simp, fun _ _ _ => rfl, fun _ _ _ => rfl⟩
  | cons i l ih =>
    obtain ⟨hil, hl'⟩ := List.nodup_cons.mp hl
    have hm := (S.table t p path ht).1
    obtain ⟨s1, h1, ha1, hz1, hc1, hp1, he1⟩ := freeEntry_spec S ht hnone hwalk ha hone
      (hpte i List.mem_cons_self) (hsub i List.mem_cons_self)
    have hone1 : s1.count t = 1 := (hc1 t hm fun h => h.ne ht rfl).trans hone
    have hpte1 : ∀ j ∈ l, s1.pte (t, j) = s₀.pte (t, j) := by
      intro j hj
      have hji : j ≠ i := fun h => hil (h ▸ hj)
      rw [he1 j hji, hpte j (List.mem_cons_of_mem _ hj)]
    have hsub1 : ∀ j ∈ l, Intact (Below own p (j :: path)) s₀ s1 := by
      intro j hj u hu
      have hui : ¬ Below own p (i :: path) u := fun h => hil (h.index_unique hu ▸ hj)
      obtain ⟨hpage, hcount⟩ := hsub j (List.mem_cons_of_mem _ hj) u hu
      obtain ⟨ext, hu'⟩ := hu
      exact ⟨(hp1 u (Below.ne ⟨ext, hu'⟩ ht) hui).trans hpage,
        (hc1 u (S.table u p _ hu').1 hui).trans hcount⟩
    obtain ⟨s', h', ha', hz', hc', hp'⟩ := ih hl' ha1 hone1 hpte1 hsub1
    refine ⟨s', ?_, ha', ?_, ?_, ?_⟩
    · rw [Kern.forEach, bind_of_ok h1]
      exact h'
    · rintro u ⟨j, hj, hu⟩
      rcases List.mem_cons.mp hj with rfl | hj
      · obtain ⟨ext, hu'⟩ := hu
        rw [hc' u (S.table u p _ hu').1, hz1 u ⟨ext, hu'⟩]
        intro j' hj' h
        exact hil (h.index_unique ⟨ext, hu'⟩ ▸ hj')
      · exact hz' u ⟨j, hj, hu⟩
    · intro u hmu hno
      rw [hc' u hmu fun j hj => hno j (List.mem_cons_of_mem _ hj),
        hc1 u hmu (hno i List.mem_cons_self)]
    · intro u hut hno
      rw [hp' u hut fun j hj => hno j (List.mem_cons_of_mem _ hj),
        hp1 u hut (hno i List.mem_cons_self)]

end

omit [Layout] in
theorem nodup_tableIndices : tableIndices.Nodup := by
  unfold tableIndices
  exact List.nodup_finRange 512

omit [Layout] in
theorem mem_tableIndices (i : Fin 512) : i ∈ tableIndices := by
  unfold tableIndices
  exact List.mem_finRange i

theorem freewalk_spec (depth : Nat) (S : Space s₀ root own)
    (hnone : ∀ k, has (s₀.leaf (root p) k) PTE_V = false) (ht : own t = .table p path)
    (hd : path.length + depth = 3) (ha : AllocInv s) (hin : Intact (Below own p path) s₀ s) :
    ∃ s', freewalk depth t s = .ok ((), s') ∧ Freed (Below own p path) s s' := by
  induction depth generalizing t path s with
  | zero =>
    have := S.length_le ht
    omega
  | succ depth ih =>
    obtain ⟨hm, _⟩ := S.table t p path ht
    obtain ⟨hpage, hone⟩ := hin t ⟨[], ht⟩
    obtain ⟨s1, h1, ha1, hz1, hc1, hp1⟩ := freeEntries_spec S ht hnone (freewalk depth)
      (fun u i s hu ha hin => ih hu (by simp; omega) ha hin) nodup_tableIndices ha hone
      (fun j _ => Phys.pte_congr hpage j) (fun j _ u hu => hin u hu.of_cons)
    have hone1 : s1.count t = 1 := (hc1 t hm fun j _ h => h.ne ht rfl).trans hone
    obtain ⟨s', hk, ha', hp', hc', _⟩ := kfree_spec ha1 hm (by rw [hone1]; decide)
    have hcount : ∀ u, Managed u → s'.count u = if u = t then 0 else s1.count u := by
      intro u hu
      rw [Phys.count_update hc' hm.1 hu.1, hone1]
      rfl
    refine ⟨s', ?_, ha', ?_, ?_, ?_⟩
    · rw [freewalk, bind_of_ok h1]
      exact hk
    · intro u hu
      obtain ⟨ext, hu'⟩ := hu
      rw [hcount u (S.table u p _ hu').1]
      by_cases hut : u = t
      · rw [if_pos hut]
      · rw [if_neg hut]
        rcases (S.below_iff ht).mp ⟨ext, hu'⟩ with h | ⟨j, hj⟩
        · exact absurd h hut
        · exact hz1 u ⟨j, mem_tableIndices j, hj⟩
    · intro u hmu hno
      have hut : u ≠ t := fun h => hno ((S.below_iff ht).mpr (.inl h))
      rw [hcount u hmu, if_neg hut, hc1 u hmu fun j _ h => hno ((S.below_iff ht).mpr (.inr ⟨j, h⟩))]
    · intro u hno
      have hut : u ≠ t := fun h => hno ((S.below_iff ht).mpr (.inl h))
      rw [hp' u hut, hp1 u hut fun j _ h => hno ((S.below_iff ht).mpr (.inr ⟨j, h⟩))]

/-- The pages after the tables of `p` are gone. -/
def Owner.drop (p : TableId) : Owner → Owner
  | .table q path => if q = p then .user else .table q path
  | o => o

section
omit [Layout]

theorem Owner.drop_eq_table {o : Owner} : o.drop p = .table q path ↔ q ≠ p ∧ o = .table q path := by
  cases o with
  | table q' path' =>
    by_cases h : q' = p
    · simp only [drop, if_pos h, reduceCtorEq, false_iff, not_and, table.injEq]
      rintro hq rfl
      exact absurd h hq
    · simp only [drop, if_neg h, table.injEq]
      constructor
      · rintro ⟨rfl, rfl⟩
        exact ⟨h, rfl, rfl⟩
      · exact fun h => h.2
  | user => simp [drop]
  | held => simp [drop]

theorem Owner.drop_eq_held {o : Owner} : o.drop p = .held ↔ o = .held := by
  cases o with
  | table q path =>
    by_cases h : q = p
    · simp [drop, h]
    · simp [drop, h]
  | user => simp [drop]
  | held => simp [drop]

theorem Owner.drop_eq_user {o : Owner} : o.drop p = .user ↔ o = .user ∨ ∃ path, o = .table p path := by
  cases o with
  | table q path =>
    by_cases h : q = p
    · simp [drop, h]
    · simp [drop, h]
  | user => simp [drop]
  | held => simp [drop]

theorem below_root : Below own p [] u ↔ ∃ path, own u = .table p path := by
  constructor
  · rintro ⟨ext, hu⟩
    exact ⟨ext ++ [], hu⟩
  · rintro ⟨path, hu⟩
    exact ⟨path, by rw [hu, List.append_nil]⟩

end

theorem Freed.space (S : Space s root own) (F : Freed (Below own p []) s s') :
    Space s' (update root p 0) (fun u => (own u).drop p) := by
  have hkeep : ∀ u q path, q ≠ p → own u = .table q path → ¬ Below own p [] u := by
    intro u q path hq hu hb
    obtain ⟨path', hu'⟩ := below_root.mp hb
    rw [hu, Owner.table.injEq] at hu'
    exact hq hu'.1
  refine ⟨F.alloc, ?_, ?_, ?_, ?_, ?_, ?_⟩
  · intro q hq
    by_cases hqp : q = p
    · subst hqp
      simp at hq
    · rw [update_of_ne hqp] at hq ⊢
      exact drop_eq_table.mpr ⟨hqp, S.root_own q hq⟩
  · intro q u hu
    obtain ⟨hqp, hu'⟩ := drop_eq_table.mp hu
    rw [update_of_ne hqp]
    exact S.own_root q u hu'
  · intro u q path i hu hlen hv
    obtain ⟨hqp, hu'⟩ := drop_eq_table.mp hu
    rw [Phys.pte_congr (F.page u (hkeep u q path hqp hu'))] at hv ⊢
    obtain ⟨v, hv', he⟩ := S.entry u q path i hu' hlen hv
    exact ⟨v, drop_eq_table.mpr ⟨hqp, hv'⟩, he⟩
  · intro u q i path hu
    obtain ⟨hqp, hu'⟩ := drop_eq_table.mp hu
    obtain ⟨hlen, v, hv, he⟩ := S.parent u q i path hu'
    refine ⟨hlen, v, drop_eq_table.mpr ⟨hqp, hv⟩, ?_⟩
    rw [Phys.pte_congr (F.page v (hkeep v q path hqp hv)), he]
  · intro u q path hu
    obtain ⟨hqp, hu'⟩ := drop_eq_table.mp hu
    obtain ⟨hm, hc⟩ := S.table u q path hu'
    exact ⟨hm, (F.count u hm (hkeep u q path hqp hu')).trans hc⟩
  · intro u hu
    have hu' := drop_eq_held.mp hu
    obtain ⟨hm, hc⟩ := S.held u hu'
    refine ⟨hm, (F.count u hm ?_).trans hc⟩
    intro hb
    obtain ⟨path, ht⟩ := below_root.mp hb
    rw [hu'] at ht
    cases ht

theorem Freed.leaf (S : Space s root own) (F : Freed (Below own p []) s s') (hq : q ≠ p)
    (k : Slot) : s'.leaf (root q) k = s.leaf (root q) k := by
  have S' := F.space S
  have hroot : update root p 0 q = root q := update_of_ne hq _ _
  rcases S.leaf_cases q k with ⟨u, hu, he⟩ | ⟨hno, he⟩
  · have hb : ¬ Below own p [] u := by
      intro hb
      obtain ⟨path', hu'⟩ := below_root.mp hb
      rw [hu, Owner.table.injEq] at hu'
      exact hq hu'.1
    have := S'.leaf_eq (drop_eq_table.mpr ⟨hq, hu⟩)
    rw [hroot] at this
    rw [he, this, Phys.pte_congr (F.page u hb)]
  · have := S'.leaf_eq_zero fun u hu => hno u (drop_eq_table.mp hu).2
    rw [hroot] at this
    rw [he, this]

/-- What `freewalk` leaves of a page table without user pages. -/
theorem freewalk_counted (C : Counted s root own) (hp : root p ≠ 0)
    (hnone : ∀ k, has (s.leaf (root p) k) PTE_V = false) :
    ∃ s', freewalk 3 (root p) s = .ok ((), s') ∧
      Counted s' (update root p 0) (fun u => (own u).drop p) ∧
      (∀ q ≠ p, ∀ k, s'.leaf (root q) k = s.leaf (root q) k) ∧
      ∀ u, (∀ path, own u ≠ .table p path) → s'.page u = s.page u := by
  have S := C.space
  obtain ⟨s', h, F⟩ := freewalk_spec 3 S hnone (S.root_own p hp) rfl S.alloc fun u hu => by
    obtain ⟨path, hu'⟩ := below_root.mp hu
    exact ⟨rfl, (S.table u p path hu').2⟩
  have hl : ∀ q ≠ p, ∀ k, s'.leaf (root q) k = s.leaf (root q) k := fun q hq k => F.leaf S hq k
  have htarget : target s' (update root p 0) = target s root := by
    funext x
    by_cases hx : x.1 = p
    · have hold : target s root x = none := by
        obtain ⟨q, k⟩ := x
        obtain rfl : q = p := hx
        exact target_none (hnone k)
      have hnew : s'.leaf (update root p 0 x.1) x.2 = 0 := by
        rw [hx, update_self, Phys.leaf, if_pos rfl]
      rw [hold, target, hnew, if_neg fun h => absurd h.2 (by decide)]
    · refine target_congr ?_
      rw [update_of_ne hx]
      exact hl x.1 hx x.2
  have hbelow : ∀ u, own u = .user → ¬ Below own p [] u := by
    intro u hu hb
    obtain ⟨path, ht⟩ := below_root.mp hb
    exact user_ne_table hu _ _ ht
  refine ⟨s', h, ⟨F.space S, ?_, ?_, ?_⟩, hl, ?_⟩
  · rw [htarget]
    intro u hm hu
    rcases drop_eq_user.mp hu with hu' | ⟨path, hu'⟩
    · rw [F.count u hm (hbelow u hu')]
      exact C.count u hm hu'
    · rw [F.zero u (below_root.mpr ⟨path, hu'⟩), C.refs_of_held (by rw [hu']; simp)]
      rfl
  · rw [htarget]
    intro x t hx
    obtain ⟨hm, ho⟩ := C.user x t hx
    exact ⟨hm, drop_eq_user.mpr (.inl ho)⟩
  · rw [htarget]
    intro x t hx hw
    have hxp : x.1 ≠ p := by
      rintro rfl
      obtain ⟨_, hv, _⟩ := target_eq_some.mp hx
      rw [hnone] at hv
      cases hv
    rw [update_of_ne hxp, hl x.1 hxp x.2] at hw
    exact C.writable x t hx hw
  · intro u hu
    refine F.page u fun hb => ?_
    obtain ⟨path, ht⟩ := below_root.mp hb
    exact hu path ht

end Yyds.Mm
