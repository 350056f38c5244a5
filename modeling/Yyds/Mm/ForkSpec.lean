import Yyds.Mm.UvmSpec

/-! `uvmcopy`: the child gets the pages of the parent, and neither can write to them any
more without a fault. -/
namespace Yyds.Mm

open Lib Kern Layout

theorem isFlags_shareFlags (w : Word) : IsFlags (shareFlags w) := by
  rw [shareFlags]
  split
  · exact ((isFlags_PTE_FLAGS w).or (by decide)).and _
  · exact isFlags_PTE_FLAGS w

theorem getLsbD_shareFlags (w : Word) {i : Nat} (hi : i < 10) : (shareFlags w).getLsbD i =
    ((w.getLsbD i || (has w PTE_W && decide (8 = i))) && !(has w PTE_W && decide (2 = i))) := by
  rw [shareFlags]
  split
  case isTrue h =>
    rw [BitVec.getLsbD_and, BitVec.getLsbD_or, BitVec.getLsbD_not, getLsbD_PTE_FLAGS _ hi,
      getLsbD_PTE_W, getLsbD_PTE_F, h]
    simp [show i < 64 by omega]
  case isFalse h =>
    rw [getLsbD_PTE_FLAGS _ hi]
    simp [h]

theorem shared_entry {w w' : Word} (hv : has w PTE_V)
    (h : ∀ i < 10, w'.getLsbD i = (shareFlags w).getLsbD i) :
    has w' PTE_V ∧ has w' PTE_W = false ∧ permissions w' = permissions w := by
  have hW : w.getLsbD 2 = has w PTE_W := (has_W w).symm
  refine ⟨?_, ?_, permissions_ext fun i hi => ?_⟩
  · rw [has_V, h 0 (by decide), getLsbD_shareFlags w (by decide), ← has_V, hv]
    simp
  · rw [has_W, h 2 (by decide), getLsbD_shareFlags w (by decide)]
    simp
  · have hF : has w' PTE_F = (has w PTE_F || has w PTE_W) := by
      rw [has_F, h 8 (by decide), getLsbD_shareFlags w (by decide)]
      simp
    rw [getLsbD_permissions w' hi, getLsbD_permissions w hi, h i hi, getLsbD_shareFlags w hi, hF]
    by_cases h2 : 2 = i
    · subst h2
      rw [hW]
      cases has w PTE_W <;> simp
    · by_cases h8 : 8 = i
      · subst h8
        simp
      · simp [h2, h8]

theorem getLsbD_mk_V {pa : Nat} {f : Word} (hV : has f PTE_V) {i : Nat} (hi : i < 10) :
    (PA2PTE pa ||| f ||| PTE_V).getLsbD i = f.getLsbD i := by
  rw [BitVec.getLsbD_or, getLsbD_PA2PTE_or pa _ hi]
  by_cases h0 : 0 = i
  · subst h0
    rw [has_V] at hV
    simp [hV]
  · simp [h0]

variable [Layout] {s s' s1 : Phys} {root : TableId → Nat} {own own' : Nat → Owner}
  {p q c : TableId} {i t u : Nat} {e : Int}

theorem protect_spec (C : Counted s root own) (hx : target s root (p, slot i) = some t)
    (hu : own u = .table p [PX 1 i, PX 2 i]) (w : Word) (hw : w = s.leaf (root p) (slot i)) :
    ∃ s1, Kern.when (has w PTE_W) (writePte (u, PX 0 i) (PA2PTE (PTE2PA w) ||| shareFlags w)) s =
        .ok ((), s1) ∧ Counted s1 root own ∧ Keeps root (· = (p, slot i)) s s1 ∧
      target s1 root (p, slot i) = some t ∧ s1.page t = s.page t ∧
      has (s1.leaf (root p) (slot i)) PTE_W = false ∧
      permissions (s1.leaf (root p) (slot i)) = permissions w := by
  obtain ⟨hk, hV, hpa⟩ := target_eq_some.mp hx
  rw [← hw] at hV hpa
  obtain ⟨hm, ho⟩ := C.user _ t hx
  by_cases hW : has w PTE_W
  · have hbits : ∀ i < 10, (PA2PTE (PTE2PA w) ||| shareFlags w).getLsbD i =
        (shareFlags w).getLsbD i := fun i hi => getLsbD_PA2PTE_or _ _ hi
    obtain ⟨hV', hW', hperm⟩ := shared_entry hV hbits
    have hpa' : PTE2PA (PA2PTE (PTE2PA w) ||| shareFlags w) = t := by
      rw [PTE2PA_mk (PTE2PA_aligned w) (BitVec.isLt _) (isFlags_shareFlags w), hpa]
    obtain ⟨C1, P⟩ := C.setFlags hx hu hV' hpa' fun h => by
      rw [hW'] at h
      cases h
    have hpage : ∀ v, own v = .user →
        (s.setPte (u, PX 0 i) (PA2PTE (PTE2PA w) ||| shareFlags w)).page v = s.page v := by
      intro v hv
      refine Phys.setPte_page_ne _ _ ?_
      rintro rfl
      exact Owner.user_ne_table hv _ _ hu
    have hleaf := P.self
    refine ⟨_, by rw [when_pos hW]; rfl, C1, ?_, ?_, hpage t ho, ?_, ?_⟩
    · intro y hy
      exact ⟨P.ne hy, fun v hv => hpage v (C.user y v hv).2⟩
    · exact target_eq_some.mpr
        ⟨hk, (congrArg (has · PTE_V) hleaf).trans hV', (congrArg PTE2PA hleaf).trans hpa'⟩
    · exact (congrArg (has · PTE_W) hleaf).trans hW'
    · exact (congrArg permissions hleaf).trans hperm
  · refine ⟨s, by rw [when_neg hW]; rfl, C, .refl _ _ _, hx, rfl, ?_, ?_⟩
    · rw [← hw]
      simpa using hW
    · rw [← hw]

/-- One page is shared, or memory has run out and the child has lost what it had. -/
def PageShared (root : TableId → Nat) (p c : TableId) (i : Nat) (e : Int) (s s' : Phys) : Prop :=
  target s' root (p, slot i) = target s root (p, slot i) ∧
  view s' root p (slot i) = view s root p (slot i) ∧
  ((e = 0 ∧ view s' root c (slot i) = view s root p (slot i) ∧
      Keeps root (fun x => x = (p, slot i) ∨ x = (c, slot i)) s s') ∨
    (e = -1 ∧ Unmapped s' root c 0 i ∧
      Keeps root (fun x => x = (p, slot i) ∨ Pages c 0 i x) s s'))

theorem sharePage_spec (C : Counted s root own) (hpc : p ≠ c) (hc : root c ≠ 0)
    (hi : i < TRAPFRAME) (hal : i % PGSIZE = 0) (hx : target s root (p, slot i) = some t)
    (hu : own u = .table p [PX 1 i, PX 2 i])
    (h : sharePage (root c) i (u, PX 0 i) s = .ok (e, s')) :
    ∃ own', Counted s' root own' ∧ Grows c own own' ∧ PageShared root p c i e s s' := by
  have hmax : i < MAXVA := lt_MAXVA hi
  have hpte : s.pte (u, PX 0 i) = s.leaf (root p) (slot i) :=
    (C.space.leaf_eq (k := slot i) hu).symm
  obtain ⟨hk, hV, hpa⟩ := target_eq_some.mp hx
  obtain ⟨hm, ho⟩ := C.user _ t hx
  rw [sharePage, get_bind_apply, hpte] at h
  obtain ⟨s1, h1, C1, K1, ht1, hpage1, hW1, hperm1⟩ := protect_spec C hx hu _ rfl
  have hpa' : PTE2PA (s.leaf (root p) (slot i)) = t := hpa
  rw [bind_of_ok h1, hpa'] at h
  have hview1 : view s1 root p (slot i) = view s root p (slot i) := by
    rw [view_of_target ht1, view_of_target hx, hperm1, hpage1]
  have hpx : (p, slot i) ≠ (c, slot i) := fun h => hpc (congrArg Prod.fst h)
  obtain ⟨e', s2, hmap, hrest⟩ := bind_ok h
  rcases C1.space.mappages_spec hc hmax hal t (shareFlags (s.leaf (root p) (slot i))) with
    ⟨s3, own2, h3, S2, F, hl⟩ | ⟨h3, _⟩ | ⟨hnv, s3, own2, h3, S2, F, P⟩
  · rw [h3] at hmap
    cases hmap
    obtain ⟨_, s4, h4, h5⟩ := bind_ok hrest
    cases h5
    have hdiv : 0 + i / PGSIZE * PGSIZE = i := by
      simp only [PGSIZE] at *
      omega
    obtain ⟨C4, K4, U4⟩ := uvmunmap_spec (C1.frame S2 F hl) hc (by rw [hdiv]; omega) h4
    rw [hdiv] at K4 U4
    have K2 : Keeps root (Pages c 0 i) s1 s' := (C1.keeps_frame F fun x _ => hl x.1 x.2).trans K4
    have hno : ¬ Pages c 0 i (p, slot i) := fun h => hpc h.1
    refine ⟨own2, C4, .of_frame F, ?_, ?_, .inr ⟨rfl, U4, ?_⟩⟩
    · rw [K2.target hno, ht1, hx]
    · rw [K2.view hno, hview1]
    · exact (K1.mono fun _ h => .inl h).trans (K2.mono fun _ h => .inr h)
  · rw [h3] at hmap
    cases hmap
  · rw [h3] at hmap
    cases hmap
    rw [if_neg (by simp), bind_of_ok (kaddrefcnt_spec hm)] at hrest
    cases hrest
    have hbits : ∀ j < 10, (PA2PTE t ||| shareFlags (s.leaf (root p) (slot i)) ||| PTE_V).getLsbD j =
        (shareFlags (s.leaf (root p) (slot i))).getLsbD j :=
      fun j hj => getLsbD_mk_V (shared_entry hV fun _ _ => rfl).1 hj
    obtain ⟨hV', hW', hperm⟩ := shared_entry hV hbits
    have hpa2 := PTE2PA_mk_V hm.1 hm.lt (isFlags_shareFlags (s.leaf (root p) (slot i)))
    have C3 := C1.share ht1 hW1 S2 F P hk hnv hV' hpa2 hW'
    have K0 : Keeps root (· = (c, slot i)) s1 s2 := C1.keeps_frame F fun x hx => P.ne hx
    have K2 : Keeps root (· = (c, slot i)) s1 (s2.setCnt t (s2.count t + 1)) := K0
    have hc2 : target (s2.setCnt t (s2.count t + 1)) root (c, slot i) = some t := target_eq_some.mpr
        ⟨hk, (congrArg (has · PTE_V) P.self).trans hV', (congrArg PTE2PA P.self).trans hpa2⟩
    refine ⟨own2, C3, .of_frame F, ?_, ?_, .inl ⟨rfl, ?_, ?_⟩⟩
    · rw [K2.target hpx, ht1, hx]
    · rw [K2.view hpx, hview1]
    · have hpage : (s2.setCnt t (s2.count t + 1)).page t = s1.page t :=
        F.page t (Owner.user_ne_table (F.user_kept ho (C1.count_ne_zero ht1)))
      have hleaf : (s2.setCnt t (s2.count t + 1)).leaf (root c) (slot i) =
        PA2PTE t ||| shareFlags (s.leaf (root p) (slot i)) ||| PTE_V := P.self
      rw [view_of_target hc2, view_of_target hx, hleaf, hperm, hpage, hpage1]
    · exact (K1.mono fun _ h => .inl h).trans (K2.mono fun _ h => .inr h)

/-- What a whole `uvmcopy` leaves alone: the memory of all processes but the child, and the
kernel's own entries. -/
structure ForkKeeps (root : TableId → Nat) (c : TableId) (s s' : Phys) : Prop where
  target : ∀ q ≠ c, ∀ k, Mm.target s' root (q, k) = Mm.target s root (q, k)
  view : ∀ q ≠ c, Mm.view s' root q = Mm.view s root q
  sys : ∀ q k, TRAPFRAME ≤ k.va → s'.leaf (root q) k = s.leaf (root q) k

namespace ForkKeeps

omit [Layout] in
theorem refl (root : TableId → Nat) (c : TableId) (s : Phys) : ForkKeeps root c s s :=
  ⟨fun _ _ _ => rfl, fun _ _ => rfl, fun _ _ _ => rfl⟩

omit [Layout] in
theorem trans (h1 : ForkKeeps root c s s1) (h2 : ForkKeeps root c s1 s') : ForkKeeps root c s s' :=
  ⟨fun q hq k => (h2.target q hq k).trans (h1.target q hq k),
    fun q hq => (h2.view q hq).trans (h1.view q hq),
    fun q k hk => (h2.sys q k hk).trans (h1.sys q k hk)⟩

end ForkKeeps

omit [Layout] in
theorem PageShared.forkKeeps (h : PageShared root p c i e s s') (hi : i < TRAPFRAME)
    (hal : i % PGSIZE = 0) : ForkKeeps root c s s' := by
  have hself := slot_va_of_aligned (lt_MAXVA hi) hal
  have hK : Keeps root (fun x => x = (p, slot i) ∨ (x.1 = c ∧ x.2.va ≤ i)) s s' := by
    rcases h.2.2 with ⟨_, _, K⟩ | ⟨_, _, K⟩
    · refine K.mono fun x hx => hx.imp_right ?_
      rintro rfl
      exact ⟨rfl, Nat.le_of_eq hself⟩
    · exact K.mono fun x hx => hx.imp_right fun h => ⟨h.1, Nat.le_of_lt h.2.2⟩
  refine ⟨fun q hq k => ?_, fun q hq => funext fun k => ?_, fun q k hk => ?_⟩
  · by_cases hx : (q, k) = (p, slot i)
    · rw [hx]
      exact h.1
    · exact hK.target fun h => h.elim hx fun h => hq h.1
  · by_cases hx : (q, k) = (p, slot i)
    · cases hx
      exact h.2.1
    · exact hK.view fun h => h.elim hx fun h => hq h.1
  · refine (hK (q, k) ?_).1
    rintro (hx | ⟨_, hle⟩)
    · cases hx
      omega
    · simp only at hle
      omega

/-- Up to `b` from `i` on the child sees what the parent sees, or it has nothing at all. -/
def CopyDone (root : TableId → Nat) (p c : TableId) (i b : Nat) (e : Int) (s s' : Phys) : Prop :=
  (e = 0 ∧ (∀ k : Slot, i ≤ k.va → k.va < b → view s' root c k = view s root p k) ∧
    ∀ k : Slot, k.va < i ∨ b ≤ k.va → view s' root c k = view s root c k) ∨
  (e = -1 ∧ Unmapped s' root c 0 TRAPFRAME)

omit [Layout] in
theorem CopyDone.cons {b : Nat} (h : CopyDone root p c (i + PGSIZE) b e s1 s') (hi : i < MAXVA)
    (hal : i % PGSIZE = 0) (hb : i + PGSIZE ≤ b) (hp : view s1 root p = view s root p)
    (hi' : view s1 root c (slot i) = view s root p (slot i))
    (hk : ∀ k ≠ slot i, view s1 root c k = view s root c k) : CopyDone root p c i b e s s' := by
  have hpg : PGSIZE = 4096 := rfl
  have hself := slot_va_of_aligned hi hal
  rcases h with ⟨he, hin, hout⟩ | hfail
  · refine .inl ⟨he, fun k h1 h2 => ?_, fun k h1 => ?_⟩
    · by_cases hki : k = slot i
      · subst hki
        rw [hout _ (.inl (by omega)), hi']
      · have hne : k.va ≠ i := fun h => hki (Slot.eq_slot_of_va h)
        rw [hin k (aligned_le hal k.va_aligned (by omega)) h2, hp]
    · have hki : k ≠ slot i := by
        rintro rfl
        omega
      rw [hout k (by omega), hk k hki]
  · exact .inr hfail

omit [Layout] in
theorem view_of_invalid {k : Slot} (h : has (s.leaf (root p) k) PTE_V = false) :
    view s root p k = none := by
  rw [view, target_none h, Option.map_none]

theorem uvmcopyFrom_spec {n : Nat} (C : Counted s root own) (hpc : p ≠ c) (hp : root p ≠ 0)
    (hc : root c ≠ 0) (hi : i + n * PGSIZE ≤ TRAPFRAME) (hal : i % PGSIZE = 0)
    (hempty : Unmapped s root c i TRAPFRAME)
    (h : uvmcopyFrom (root p) (root c) n i s = .ok (e, s')) :
    ∃ own', Counted s' root own' ∧ Grows c own own' ∧ ForkKeeps root c s s' ∧
      CopyDone root p c i (i + n * PGSIZE) e s s' := by
  induction n generalizing i s own with
  | zero =>
    cases h
    refine ⟨own, C, .refl _ _, .refl _ _ _, .inl ⟨rfl, fun k h1 h2 => ?_, fun _ _ => rfl⟩⟩
    omega
  | succ n ih =>
    have hpg : PGSIZE = 4096 := rfl
    rw [Nat.succ_mul] at hi
    have hlt : i < TRAPFRAME := by omega
    have hmax : i < MAXVA := lt_MAXVA hlt
    have hself := slot_va_of_aligned hmax hal
    have hsum : i + PGSIZE + n * PGSIZE = i + (n + 1) * PGSIZE := by
      rw [Nat.succ_mul]
      omega
    have hempty' : Unmapped s root c (i + PGSIZE) TRAPFRAME := fun k h1 h2 => hempty k (by omega) h2
    -- a page that the parent does not have is one that the child does not have either
    have hskip : has (s.leaf (root p) (slot i)) PTE_V = false →
        uvmcopyFrom (root p) (root c) n (i + PGSIZE) s = .ok (e, s') →
        ∃ own', Counted s' root own' ∧ Grows c own own' ∧ ForkKeeps root c s s' ∧
          CopyDone root p c i (i + (n + 1) * PGSIZE) e s s' := by
      intro hv h'
      obtain ⟨own', C', G, F, D⟩ := ih C (by omega) (aligned_add hal) hempty' h'
      rw [hsum] at D
      refine ⟨own', C', G, F, D.cons hmax hal (by omega) rfl ?_ fun _ _ => rfl⟩
      rw [view_of_invalid hv, view_of_invalid (hempty (slot i) (by omega) (by omega))]
    rw [uvmcopyFrom] at h
    rcases C.space.walk_read hp hmax with ⟨hw, h0⟩ | ⟨u, hw, hu, he⟩
    · rw [bind_of_ok hw] at h
      exact hskip (by rw [h0]; decide) h
    rw [bind_of_ok hw] at h
    simp only [get_bind_apply, he] at h
    by_cases hv : has (s.leaf (root p) (slot i)) PTE_V
    · rw [if_neg (by simp [hv])] at h
      have hx : target s root (p, slot i) = some (PTE2PA (s.leaf (root p) (slot i))) :=
        target_eq_some.mpr ⟨hself.symm ▸ hlt, hv, rfl⟩
      obtain ⟨e1, s1, h1, h2⟩ := bind_ok h
      obtain ⟨own1, C1, G1, D1⟩ := sharePage_spec C hpc hc hlt hal hx hu h1
      have F1 := D1.forkKeeps hlt hal
      rcases D1.2.2 with ⟨rfl, hview, K⟩ | ⟨rfl, U, K⟩
      · have hnot : ∀ k ≠ slot i, ¬ ((c, k) = (p, slot i) ∨ (c, k) = (c, slot i)) := by
          rintro k hk (h | h)
          · exact hpc (congrArg Prod.fst h).symm
          · exact hk (congrArg Prod.snd h)
        have hempty1 : Unmapped s1 root c (i + PGSIZE) TRAPFRAME := by
          intro k hk1 hk2
          rw [(K (c, k) (hnot k ?_)).1]
          · exact hempty' k hk1 hk2
          · rintro rfl
            omega
        obtain ⟨own', C', G, F, D⟩ := ih C1 (by omega) (aligned_add hal) hempty1 h2
        rw [hsum] at D
        exact ⟨own', C', G1.trans G, F1.trans F, D.cons hmax hal (by omega) (F1.view p hpc) hview
          fun k hk => K.view (hnot k hk)⟩
      · cases h2
        refine ⟨own1, C1, G1, F1, .inr ⟨rfl, fun k hk1 hk2 => ?_⟩⟩
        by_cases hki : k.va < i
        · exact U k hk1 hki
        · rw [(K (c, k) ?_).1]
          · exact hempty k (by omega) hk2
          · rintro (h | h)
            · exact hpc (congrArg Prod.fst h).symm
            · exact hki h.2.2
    · rw [if_pos (by simpa using hv)] at h
      exact hskip (by simpa using hv) h

theorem uvmcopy_spec {sz : Nat} (C : Counted s root own) (hpc : p ≠ c) (hp : root p ≠ 0)
    (hc : root c ≠ 0) (hsz : sz ≤ TRAPFRAME) (hempty : Unmapped s root c 0 TRAPFRAME)
    (h : uvmcopy (root p) (root c) sz s = .ok (e, s')) :
    ∃ own', Counted s' root own' ∧ Grows c own own' ∧ ForkKeeps root c s s' ∧
      CopyDone root p c 0 (PGROUNDUP sz) e s s' := by
  have hup := PGROUNDUP_of_le hsz
  have hrounds : 0 + (sz + PGSIZE - 1) / PGSIZE * PGSIZE = PGROUNDUP sz := by
    simp only [PGSIZE] at *
    omega
  obtain ⟨own', C', G, F, D⟩ :=
    uvmcopyFrom_spec C hpc hp hc (by rw [hrounds]; exact hup.2.2.2) (by decide) hempty h
  rw [hrounds] at D
  exact ⟨own', C', G, F, D⟩

end Yyds.Mm
