import Yyds.Mm.Refs

/-! The single changes to leaf entries that fork, copy-on-write faults and unmapping are
made of, each with what it does to the counts. -/
namespace Yyds.Mm

open Lib Layout Function Owner

theorem ofNat_add_one (n : Nat) : BitVec.ofNat 32 n + 1 = BitVec.ofNat 32 (n + 1) := by
  apply BitVec.eq_of_toNat_eq
  simp

variable {s s' s1 s2 : Phys} {root : TableId → Nat} {own own' own1 : Nat → Owner} {p q : TableId}
  {t u r : Nat} {k : Slot} {w : Word} {x y : TableId × Slot} {K K' : TableId × Slot → Prop}

/-- Outside the entries `K` no leaf entry has changed, and no page that is mapped there. -/
def Keeps (root : TableId → Nat) (K : TableId × Slot → Prop) (s s' : Phys) : Prop :=
  ∀ x, ¬ K x → s'.leaf (root x.1) x.2 = s.leaf (root x.1) x.2 ∧
    ∀ t, target s root x = some t → s'.page t = s.page t

namespace Keeps

theorem refl (root : TableId → Nat) (K : TableId × Slot → Prop) (s : Phys) : Keeps root K s s :=
  fun _ _ => ⟨rfl, fun _ _ => rfl⟩

theorem target (h : Keeps root K s s') (hx : ¬ K x) :
    Mm.target s' root x = Mm.target s root x := target_congr (h x hx).1

theorem trans (h1 : Keeps root K s s1) (h2 : Keeps root K s1 s2) : Keeps root K s s2 := by
  intro x hx
  obtain ⟨hl1, hp1⟩ := h1 x hx
  obtain ⟨hl2, hp2⟩ := h2 x hx
  refine ⟨hl2.trans hl1, fun t ht => ?_⟩
  rw [hp2 t (by rw [h1.target hx, ht]), hp1 t ht]

theorem mono (h : Keeps root K s s') (hK : ∀ x, K x → K' x) : Keeps root K' s s' :=
  fun x hx => h x fun hk => hx (hK x hk)

end Keeps

variable [Layout]

section
variable (h : Space.PutLeaf root p k w s s')
include h

omit [Layout] in
theorem Space.PutLeaf.ne (hx : x ≠ (p, k)) : s'.leaf (root x.1) x.2 = s.leaf (root x.1) x.2 := by
  rw [h x.1 x.2, if_neg]
  rintro ⟨h1, h2⟩
  exact hx (Prod.ext h1 h2)

omit [Layout] in
theorem Space.PutLeaf.self : s'.leaf (root p) k = w := by
  rw [h p k, if_pos ⟨rfl, rfl⟩]

theorem refs_put (t : Nat) :
    refs (target s' root) t + (if target s root (p, k) = some t then 1 else 0) =
      refs (target s root) t + (if entryTarget k w = some t then 1 else 0) := by
  rw [target_put h]
  exact refs_update _ _ _ _

end

omit [Layout] in
theorem target_none (h : has (s.leaf (root p) k) PTE_V = false) : target s root (p, k) = none := by
  rw [target, if_neg]
  simp [h]

/-- The pages that are mapped survive when only free pages become tables. -/
theorem Counted.keeps_frame (C : Counted s root own) (F : Frame p s own s' own')
    (hl : ∀ x, ¬ K x → s'.leaf (root x.1) x.2 = s.leaf (root x.1) x.2) : Keeps root K s s' := by
  intro x hx
  refine ⟨hl x hx, fun t ht => F.page t ?_⟩
  exact user_ne_table (F.user_kept (C.user x t ht).2 (C.count_ne_zero ht))

/-- A page that the kernel held is not the page of a user entry any more or yet. -/
theorem Space.release (h : Space s root own) (hr : own r = .held) :
    Space s root (update own r .user) := by
  refine h.congr h.alloc (fun _ _ _ _ => ⟨rfl, rfl⟩) ?_ (table_update (held_ne_table hr) (by simp))
  intro t ht
  have htr : t ≠ r := by
    rintro rfl
    simp at ht
  rw [update_of_ne htr] at ht
  exact h.held t ht

theorem Space.kfree_user (h : Space s root own) (hm : Managed t) (ho : own t = .user)
    (hnz : s.count t ≠ 0) : ∃ s', kfree t s = .ok ((), s') ∧ Space s' root own ∧
      (∀ q ≠ t, s'.page q = s.page q) ∧ (s.count t ≠ 1 → s'.page = s.page) ∧
      (∀ q, Managed q → s'.count q = if q = t then s.count t - 1 else s.count q) ∧
      SameLeaf root s s' := by
  obtain ⟨s', hk, ha, hp, hc, hsame⟩ := kfree_spec h.alloc hm hnz
  have hcount : ∀ q, Managed q → s'.count q = if q = t then s.count t - 1 else s.count q :=
    fun q hq => Phys.count_update hc hm.1 hq.1
  have hne : ∀ v p path, own v = .table p path → v ≠ t := by
    rintro v p path hv rfl
    exact user_ne_table ho p path hv
  have S : Space s' root own := by
    refine h.congr ha ?_ ?_
    · intro v p path hv
      refine ⟨hp v (hne v p path hv), ?_⟩
      rw [hcount v (h.table v p path hv).1, if_neg (hne v p path hv)]
    · intro v hv
      have hvt : v ≠ t := by
        rintro rfl
        rw [ho] at hv
        cases hv
      rw [hcount v (h.held v hv).1, if_neg hvt]
      exact h.held v hv
  exact ⟨s', hk, S, hp, hsame, hcount,
    h.leaf_congr S (fun _ _ _ => Iff.rfl) fun v p path hv => hp v (hne v p path hv)⟩

namespace Counted

section
variable (C : Counted s root own)
include C

/-- One leaf entry is written, and the counts follow the references. -/
theorem of_put (P : Space.PutLeaf root p k w s s') (S : Space s' root own')
    (hc : ∀ t, Managed t → own' t = .user →
      s'.count t + (if target s root (p, k) = some t then 1#32 else 0#32) =
        BitVec.ofNat 32 (refs (target s root) t) + if entryTarget k w = some t then 1#32 else 0#32)
    (hv : ∀ t, entryTarget k w = some t → Managed t ∧ own' t = .user)
    (ho : ∀ y ≠ (p, k), ∀ t, target s root y = some t → own' t = .user)
    (hw : ∀ t, entryTarget k w = some t → (has w PTE_W → refs (target s root) t = 0) ∧
      ∀ y, target s root y = some t → has (s.leaf (root y.1) y.2) PTE_W = false) :
    Counted s' root own' := by
  have hself : target s' root (p, k) = entryTarget k w := by rw [target_put P, update_self]
  have hne : ∀ y ≠ (p, k), target s' root y = target s root y := by
    intro y hy
    rw [target_put P, update_of_ne hy]
  refine ⟨S, ?_, ?_, ?_⟩
  · intro t hm ht
    have hput := congrArg (BitVec.ofNat 32) (refs_put P t)
    rw [BitVec.ofNat_add, BitVec.ofNat_add, apply_ite (BitVec.ofNat 32),
      apply_ite (BitVec.ofNat 32)] at hput
    exact (BitVec.add_left_inj _).mp ((hc t hm ht).trans hput.symm)
  · intro y t hy
    by_cases hyx : y = (p, k)
    · subst hyx
      exact hv t (hself ▸ hy)
    · rw [hne y hyx] at hy
      exact ⟨(C.user y t hy).1, ho y hyx t hy⟩
  · intro y t hy hyw
    have hput := refs_put P t
    by_cases hyx : y = (p, k)
    · subst hyx
      rw [hself] at hy
      rw [P.self] at hyw
      have h0 := (hw t hy).1 hyw
      rw [if_neg fun h => (refs_pos h).ne' h0, if_pos hy, h0] at hput
      omega
    · rw [hne y hyx] at hy
      rw [P.ne hyx] at hyw
      have hone := C.writable y t hy hyw
      have hnew : entryTarget k w ≠ some t := by
        intro he
        rw [(hw t he).2 y hy] at hyw
        cases hyw
      rw [if_neg fun h => hyx (eq_of_refs_eq_one hone hy h), if_neg hnew, hone] at hput
      omega

/-- A held page becomes a user page: `mappages` has just mapped it. -/
theorem map_held (hr : own r = .held) (S : Space s' root own1) (F : Frame p s own s' own1)
    (P : Space.PutLeaf root p k w s s') (hk : k.va < TRAPFRAME)
    (hnv : has (s.leaf (root p) k) PTE_V = false) (hv : has w PTE_V) (hpa : PTE2PA w = r) :
    Counted s' root (update own1 r .user) := by
  obtain ⟨hm, hone⟩ := C.space.held r hr
  have hr1 := F.held_kept hr
  have hent : entryTarget k w = some r := by rw [entryTarget, if_pos ⟨hk, hv⟩, hpa]
  have h0 : refs (target s root) r = 0 := C.refs_of_held (by rw [hr]; simp)
  refine C.of_put P (S.release hr1) ?_ ?_ ?_ ?_
  · intro t hmt ht
    rw [target_none hnv, hent, if_neg (c := none = some t) (by simp), BitVec.add_zero]
    by_cases htr : t = r
    · subst htr
      rw [if_pos rfl, h0, F.count t hmt (held_ne_table hr1), hone]
      rfl
    · rw [update_of_ne htr] at ht
      rw [if_neg (by simpa using Ne.symm htr), BitVec.add_zero, F.count t hmt (user_ne_table ht)]
      exact C.count t hmt (F.user ht)
  · rw [hent]
    rintro t ⟨⟩
    exact ⟨hm, update_self _ _ _⟩
  · intro y _ t hy
    obtain ⟨hmt, ho⟩ := C.user y t hy
    by_cases htr : t = r
    · rw [htr, update_self]
    · rw [update_of_ne htr]
      exact F.user_kept ho (C.count_ne_zero hy)
  · rw [hent]
    rintro t ⟨⟩
    exact ⟨fun _ => h0, fun y hy => absurd h0 (refs_pos hy).ne'⟩

theorem setFlags (hx : target s root (p, k) = some t) (hu : own u = .table p [k.2.1, k.1])
    (hv : has w PTE_V) (hpa : PTE2PA w = t) (hw : has w PTE_W → refs (target s root) t = 1) :
    Counted (s.setPte (u, k.2.2) w) root own ∧
      Space.PutLeaf root p k w s (s.setPte (u, k.2.2) w) := by
  have S := C.space.setLeaf hu k.2.2 w
  have P : Space.PutLeaf root p k w s (s.setPte (u, k.2.2) w) := C.space.leaf_setLeaf hu w
  have hk := (target_eq_some.mp hx).1
  have hent : entryTarget k w = some t := by rw [entryTarget, if_pos ⟨hk, hv⟩, hpa]
  have hsame : target (s.setPte (u, k.2.2) w) root = target s root := by
    rw [target_put P, hent, ← hx, update_eq_self]
  refine ⟨⟨S, ?_, ?_, ?_⟩, P⟩
  · rw [hsame]
    exact C.count
  · rw [hsame]
    exact C.user
  · rw [hsame]
    intro y v hy hyw
    by_cases hyx : y = (p, k)
    · subst hyx
      rw [P.self] at hyw
      rw [hx] at hy
      cases hy
      exact hw hyw
    · rw [P.ne hyx] at hyw
      exact C.writable y v hy hyw

/-- One more entry maps a page that nothing can write to through an entry. -/
theorem share (hx : target s root x = some t) (hxw : has (s.leaf (root x.1) x.2) PTE_W = false)
    (S : Space s1 root own1) (F : Frame p s own s1 own1) (P : Space.PutLeaf root p k w s s1)
    (hk : k.va < TRAPFRAME) (hnv : has (s.leaf (root p) k) PTE_V = false) (hv : has w PTE_V)
    (hpa : PTE2PA w = t) (hww : has w PTE_W = false) :
    Counted (s1.setCnt t (s1.count t + 1)) root own1 := by
  obtain ⟨hm, ho⟩ := C.user x t hx
  have hent : entryTarget k w = some t := by rw [entryTarget, if_pos ⟨hk, hv⟩, hpa]
  have ho1 := F.user_kept ho (C.count_ne_zero hx)
  have hcount1 := F.count t hm (user_ne_table ho1)
  have hsucc : s1.count t + 1 = BitVec.ofNat 32 (refs (target s root) t + 1) := by
    rw [hcount1, C.count t hm ho, ofNat_add_one]
  have hlt := C.space.refs_le t
  have hnz : s1.count t + 1 ≠ 0 := by
    rw [hsucc]
    intro h0
    have := (ofNat_inj (n := 0) (by omega) (by decide)).mp h0
    omega
  have hc2 : ∀ v, Managed v → (s1.setCnt t (s1.count t + 1)).count v =
      if v = t then s1.count t + 1 else s1.count v :=
    fun v hmv => Phys.count_update (Phys.setCnt_cnt _ _ _) hm.1 hmv.1
  have hnt := user_ne_table ho1
  have S2 : Space (s1.setCnt t (s1.count t + 1)) root own1 := by
    refine S.congr (S.alloc.setCnt hm ?_ hnz) ?_ ?_
    · rw [hcount1]
      exact C.count_ne_zero hx
    · intro v p' path hv'
      have hvt : v ≠ t := by
        rintro rfl
        exact hnt p' path hv'
      exact ⟨rfl, by rw [hc2 v (S.table v p' path hv').1, if_neg hvt]⟩
    · intro v hv'
      have hvt : v ≠ t := by
        rintro rfl
        rw [ho1] at hv'
        cases hv'
      rw [hc2 v (S.held v hv').1, if_neg hvt]
      exact S.held v hv'
  have P2 : Space.PutLeaf root p k w s (s1.setCnt t (s1.count t + 1)) := P
  refine C.of_put P2 S2 ?_ ?_ ?_ ?_
  · intro v hmv hv'
    rw [hc2 v hmv, target_none hnv, hent, if_neg (c := none = some v) (by simp), BitVec.add_zero]
    by_cases hvt : v = t
    · subst hvt
      rw [if_pos rfl, if_pos rfl, hcount1, C.count v hmv ho]
      rfl
    · rw [if_neg hvt, if_neg (by simpa using Ne.symm hvt), BitVec.add_zero,
        F.count v hmv (user_ne_table hv')]
      exact C.count v hmv (F.user hv')
  · rw [hent]
    rintro v ⟨⟩
    exact ⟨hm, ho1⟩
  · intro y _ v hy
    exact F.user_kept (C.user y v hy).2 (C.count_ne_zero hy)
  · rw [hent]
    rintro v ⟨⟩
    refine ⟨fun h => absurd (hww.symm.trans h) (by simp), fun y hy => ?_⟩
    by_contra hyw
    have hone := C.writable y t hy (by simpa using hyw)
    rw [eq_of_refs_eq_one hone hy hx] at hyw
    exact hyw hxw

theorem unmap (hx : target s root (p, k) = some t) (hu : own u = .table p [k.2.1, k.1]) :
    ∃ s1, kfree t s = .ok ((), s1) ∧
      Counted (s1.setPte (u, k.2.2) 0) root own ∧
      Space.PutLeaf root p k 0 s (s1.setPte (u, k.2.2) 0) ∧
      Keeps root (· = (p, k)) s (s1.setPte (u, k.2.2) 0) := by
  obtain ⟨hm, ho⟩ := C.user _ t hx
  obtain ⟨s1, hk, S1, hp, hsame, hc, hl⟩ := C.space.kfree_user hm ho (C.count_ne_zero hx)
  have S := S1.setLeaf hu k.2.2 0
  have P : Space.PutLeaf root p k 0 s (s1.setPte (u, k.2.2) 0) := by
    intro q j
    rw [← hl]
    exact S1.leaf_setLeaf hu 0 q j
  have hent : entryTarget k 0 = none := by rw [entryTarget, if_neg (by simp)]
  refine ⟨s1, hk, ?_, P, ?_⟩
  · refine C.of_put P S ?_ (by rw [hent]; rintro _ ⟨⟩) (fun y _ v hy => (C.user y v hy).2)
      (by rw [hent]; rintro _ ⟨⟩)
    intro v hmv hv
    have hv' : (s1.setPte (u, k.2.2) 0).count v = s1.count v := rfl
    rw [hv', hc v hmv, hx, hent, if_neg (c := none = some v) (by simp), BitVec.add_zero]
    by_cases hvt : v = t
    · subst hvt
      rw [if_pos rfl, if_pos rfl]
      exact (BitVec.sub_add_cancel _ _).trans (C.count v hmv hv)
    · rw [if_neg hvt, if_neg (by simpa using Ne.symm hvt), BitVec.add_zero]
      exact C.count v hmv hv
  · intro y hy
    refine ⟨P.ne hy, fun v hv => ?_⟩
    have hvu : v ≠ u := by
      rintro rfl
      exact user_ne_table (C.user y v hv).2 _ _ hu
    rw [Phys.setPte_page_ne _ _ hvu]
    by_cases hvt : v = t
    · subst hvt
      rw [hsame]
      intro hone
      exact hy (eq_of_refs_eq_one ((C.count_eq_one hx).mp hone) hv hx)
    · exact hp v hvt

/-- An entry that maps `t` maps the held page `r` instead, and its reference to `t` is
dropped. -/
theorem replace (hx : target s root (p, k) = some t) (hu : own u = .table p [k.2.1, k.1])
    (hr : own r = .held) (hv : has w PTE_V) (hpa : PTE2PA w = r) :
    ∃ s1, kfree t (s.setPte (u, k.2.2) w) = .ok ((), s1) ∧
      Counted s1 root (update own r .user) ∧ Space.PutLeaf root p k w s s1 ∧
      Keeps root (· = (p, k)) s s1 ∧ s1.page r = s.page r := by
  obtain ⟨hm, ho⟩ := C.user _ t hx
  obtain ⟨hmr, hone⟩ := C.space.held r hr
  have hk := (target_eq_some.mp hx).1
  have hrt : r ≠ t := by
    rintro rfl
    rw [ho] at hr
    cases hr
  have hru : r ≠ u := by
    rintro rfl
    exact held_ne_table hr _ _ hu
  have S0 := C.space.setLeaf hu k.2.2 w
  obtain ⟨s1, hkf, S1, hp, hsame, hc, hl⟩ := S0.kfree_user hm ho (C.count_ne_zero hx)
  have P : Space.PutLeaf root p k w s s1 := by
    intro q j
    rw [hl]
    exact C.space.leaf_setLeaf hu w q j
  have hent : entryTarget k w = some r := by rw [entryTarget, if_pos ⟨hk, hv⟩, hpa]
  have h0 : refs (target s root) r = 0 := C.refs_of_held (by rw [hr]; simp)
  have hcount : ∀ v, Managed v → s1.count v = if v = t then s.count t - 1 else s.count v := hc
  refine ⟨s1, hkf, ?_, P, ?_, ?_⟩
  · refine C.of_put P (S1.release hr) ?_ ?_ ?_ ?_
    · intro v hmv hv'
      rw [hcount v hmv, hx, hent]
      by_cases hvr : v = r
      · subst hvr
        rw [if_neg hrt, if_neg (by simpa using Ne.symm hrt), if_pos rfl, h0, hone]
        rfl
      rw [update_of_ne hvr] at hv'
      rw [if_neg (c := some r = some v) (by simpa using Ne.symm hvr), BitVec.add_zero]
      by_cases hvt : v = t
      · subst hvt
        rw [if_pos rfl, if_pos rfl]
        exact (BitVec.sub_add_cancel _ _).trans (C.count v hmv hv')
      · rw [if_neg hvt, if_neg (by simpa using Ne.symm hvt), BitVec.add_zero]
        exact C.count v hmv hv'
    · rw [hent]
      rintro v ⟨⟩
      exact ⟨hmr, update_self _ _ _⟩
    · intro y _ v hy
      by_cases hvr : v = r
      · rw [hvr, update_self]
      · rw [update_of_ne hvr]
        exact (C.user y v hy).2
    · rw [hent]
      rintro v ⟨⟩
      exact ⟨fun _ => h0, fun y hy => absurd h0 (refs_pos hy).ne'⟩
  · intro y hy
    refine ⟨P.ne hy, fun v hv' => ?_⟩
    have hvu : v ≠ u := by
      rintro rfl
      exact user_ne_table (C.user y v hv').2 _ _ hu
    by_cases hvt : v = t
    · subst hvt
      rw [hsame]
      · exact Phys.setPte_page_ne _ _ hvu
      · intro h1
        exact hy (eq_of_refs_eq_one ((C.count_eq_one hx).mp h1) hv' hx)
    · rw [hp v hvt]
      exact Phys.setPte_page_ne _ _ hvu
  · rw [hp r hrt]
    exact Phys.setPte_page_ne _ _ hru

/-- An entry at or above `TRAPFRAME` maps no user page. -/
theorem setSysLeaf (S : Space s' root own') (F : Frame p s own s' own')
    (P : Space.PutLeaf root p k w s s') (hk : TRAPFRAME ≤ k.va) : Counted s' root own' := by
  have hent : entryTarget k w = none := if_neg fun h => absurd h.1 (Nat.not_lt.mpr hk)
  have hold : target s root (p, k) = none := if_neg fun h => absurd h.1 (Nat.not_lt.mpr hk)
  have hsame : target s' root = target s root := by
    rw [target_put P, hent, ← hold, update_eq_self]
  refine ⟨S, ?_, ?_, ?_⟩
  · rw [hsame]
    intro t hm ht
    rw [F.count t hm (user_ne_table ht)]
    exact C.count t hm (F.user ht)
  · rw [hsame]
    intro y t hy
    obtain ⟨hm, ho⟩ := C.user y t hy
    exact ⟨hm, F.user_kept ho (C.count_ne_zero hy)⟩
  · rw [hsame]
    intro y t hy hw
    have hyx : y ≠ (p, k) := by
      rintro rfl
      rw [hold] at hy
      cases hy
    rw [P.ne hyx] at hw
    exact C.writable y t hy hw

end

end Counted

/-! ### Who owns which page -/

/-- An operation of `p` leaves the pages that the kernel holds and the tables of the other
processes to their owners, and takes no table from `p`. -/
structure Grows (p : TableId) (own own' : Nat → Owner) : Prop where
  held : ∀ t, own' t = .held ↔ own t = .held
  other : ∀ q ≠ p, ∀ t path, own' t = .table q path ↔ own t = .table q path
  mine : ∀ t path, own t = .table p path → own' t = .table p path

namespace Grows

variable {own own1 own2 : Nat → Owner}

section
omit [Layout]

theorem refl (p : TableId) (own : Nat → Owner) : Grows p own own :=
  ⟨fun _ => Iff.rfl, fun _ _ _ _ => Iff.rfl, fun _ _ h => h⟩

theorem trans (h1 : Grows p own own1) (h2 : Grows p own1 own2) : Grows p own own2 :=
  ⟨fun t => (h2.held t).trans (h1.held t),
    fun q hq t path => (h2.other q hq t path).trans (h1.other q hq t path),
    fun t path h => h2.mine t path (h1.mine t path h)⟩

theorem hold (h : Grows p own own1) (t : Nat) (ht : own t = .held) : own1 t = .held :=
  (h.held t).mpr ht

end

theorem of_frame (F : Frame p s own s' own') : Grows p own own' := by
  refine ⟨fun t => ?_, fun q hq t path => ?_, fun t path h => F.table_kept h⟩
  · rcases F.keep t with he | ⟨hu, _, path, ht⟩
    · rw [he]
    · simp [hu, ht]
  · rcases F.keep t with he | ⟨hu, _, path', ht⟩
    · rw [he]
    · simp [hu, ht, Ne.symm hq]

omit [Layout] in
theorem of_held (ho : own r = .user) (h : Grows p (update own r .held) own1) :
    Grows p own (update own1 r .user) := by
  have hr1 : own1 r = .held := (h.held r).mpr (update_self _ _ _)
  refine ⟨fun t => ?_, fun q hq t path => ?_, fun t path ht => ?_⟩
  · by_cases htr : t = r
    · subst htr
      simp [ho]
    · rw [update_of_ne htr, h.held, update_of_ne htr]
  · by_cases htr : t = r
    · subst htr
      simp [ho]
    · rw [update_of_ne htr, h.other q hq, update_of_ne htr]
  · have htr : t ≠ r := by
      rintro rfl
      rw [ho] at ht
      cases ht
    rw [update_of_ne htr]
    refine h.mine t path ?_
    rw [update_of_ne htr, ht]

end Grows

end Yyds.Mm
