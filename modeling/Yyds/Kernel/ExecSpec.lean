import Yyds.Kernel.LifeSpec

/-! `exec` keeps the machine in order. The new image is built in a page table that belongs to
no process yet. -/
namespace Yyds.Kernel

open Lib Kern Mm Function Sys

variable [Layout] {m m1 m' : Phys} {root : TableId → Nat} {own own1 own' : Nat → Owner}
  {tf sz sz1 sz' r : Nat} {e : Int}

/-- The image under construction has the size `sz'`, and the processes are as they were. -/
structure Built (root : TableId → Nat) (tf : Nat) (m : Phys) (own : Nat → Owner) (sz' : Nat)
    (m' : Phys) (own' : Nat → Owner) : Prop where
  counted : Counted m' root own'
  grows : Grows none own own'
  rests : ∀ q ≠ none, Rests root q m m'
  space : AddrSpace m' root none tf sz'

theorem Built.refl (C : Counted m root own) (A : AddrSpace m root none tf sz) :
    Built root tf m own sz m own :=
  ⟨C, .refl _ _, fun _ _ => .refl _ _ _, A⟩

theorem Built.trans (h1 : Built root tf m own sz1 m1 own1) (h2 : Built root tf m1 own1 sz' m' own') :
    Built root tf m own sz' m' own' :=
  ⟨h2.counted, h1.grows.trans h2.grows, fun q hq => (h1.rests q hq).trans (h2.rests q hq), h2.space⟩

/-- `uvmalloc` has failed, and the size is what it was, or the image has grown. -/
theorem uvmalloc_built {newsz : Nat} (C : Counted m root own) (hq : root none ≠ 0)
    (A : AddrSpace m root none tf sz) (h : uvmalloc (root none) sz newsz m = .ok (r, m')) :
    ∃ own', (r = 0 ∧ Built root tf m own sz m' own') ∨
      (r = max sz newsz ∧ Built root tf m own r m' own') := by
  obtain ⟨own', C', G, hcase⟩ := uvmalloc_spec C hq A.size A.valid_trapframe h
  refine ⟨own', ?_⟩
  rcases hcase with ⟨hr, b, hb, K, U⟩ | ⟨hr, hlim, K⟩
  · exact .inl ⟨hr, C', G, fun q _ => .of_unmap hb K U, A.of_rests (.of_unmap hb K U)⟩
  · refine .inr ⟨hr, C', G, fun q hq => .of_keeps K fun k h => hq h.1, ?_⟩
    exact (A.grow (by omega) hlim).of_keeps K fun k h => h.2.2

variable {k : Slot} {i base sp : Nat} {bytes : List Byte} {gs : List Segment}
  {argv : List (List Byte)}

section
variable (C : Counted m root own)
include C

/-- The page of a user entry of the image gets other contents. -/
theorem setPage_built (A : AddrSpace m root none tf sz) {t : Nat}
    (ht : target m root (none, k) = some t) (pg : Page) :
    Built root tf m own sz (m.setPage t pg) own := by
  obtain ⟨hm, ho⟩ := C.user _ _ ht
  obtain ⟨C', hl⟩ := C.setPage pg (Owner.user_ne_table ho) fun _ => C.count_ne_zero ht
  exact ⟨C', .refl _ _, fun q _ => .of_same (hl q), A.of_rests (.of_same (hl none))⟩

theorem loadsegFrom_built {va n : Nat} {fsz : Nat} (hq : root none ≠ 0)
    (A : AddrSpace m root none tf sz)
    (h : loadsegFrom (root none) va bytes fsz n i m = .ok (e, m')) :
    Built root tf m own sz m' own := by
  induction n generalizing m i with
  | zero =>
    cases h
    exact .refl C A
  | succ n ih =>
    obtain ⟨pa, m1, hw, h⟩ := bind_ok h
    rw [walkaddr_spec C.space hq] at hw
    split at hw
    case isTrue hu =>
      cases hw
      have ht := (UserEntry.page A.reserved hu).2
      have hpos := (C.user _ _ ht).1.pos
      rw [when_neg hpos, pure_bind_apply] at h
      have B := setPage_built C A ht (setBytes (m.page (PTE2PA (m.leaf (root none) (slot (va + i)))))
        0 ((bytes.drop i).take (min (fsz - i) PGSIZE)))
      split at h
      · cases h
        exact B
      · exact B.trans (ih B.counted B.space h)
    case isFalse =>
      cases hw
      cases h

theorem loadSegments_built {x : Bool × Nat} (hq : root none ≠ 0) (A : AddrSpace m root none tf sz)
    (h : loadSegments (root none) gs sz m = .ok (x, m')) :
    ∃ own', Built root tf m own x.2 m' own' := by
  induction gs generalizing m own sz with
  | nil =>
    cases h
    exact ⟨own, .refl C A⟩
  | cons g gs ih =>
    rw [loadSegments] at h
    split at h
    · cases h
      exact ⟨own, .refl C A⟩
    split at h
    · cases h
      exact ⟨own, .refl C A⟩
    obtain ⟨r, m1, hu, h⟩ := bind_ok h
    obtain ⟨own1, ⟨hr, B⟩ | ⟨hr, B⟩⟩ := uvmalloc_built C hq A hu
    · rw [if_pos hr] at h
      cases h
      exact ⟨own1, B⟩
    split at h
    case isTrue h0 =>
      cases h
      have hsz : sz = r := by omega
      rw [hsz]
      exact ⟨own1, B⟩
    case isFalse =>
      split at h
      · cases h
        exact ⟨own1, B⟩
      obtain ⟨e, m2, hl, h⟩ := bind_ok h
      have B2 := B.trans (loadsegFrom_built B.counted hq B.space hl)
      split at h
      · cases h
        exact ⟨own1, B2⟩
      · obtain ⟨own', B'⟩ := ih B2.counted B2.space h
        exact ⟨own', B2.trans B'⟩

theorem setInvalid_counted {u : Nat} {w : Word} {q : TableId} (hu : own u = .table q [k.2.1, k.1])
    (hold : has (m.leaf (root q) k) PTE_V = false) (hw : has w PTE_V = false) :
    Counted (m.setPte (u, k.2.2) w) root own := by
  have P : Space.PutLeaf root q k w m (m.setPte (u, k.2.2) w) := C.space.leaf_setLeaf hu w
  have hnone : target m root (q, k) = none := target_none hold
  have hent : entryTarget k w = none := if_neg fun h => by
    rw [hw] at h
    exact absurd h.2 (by decide)
  have hsame : target (m.setPte (u, k.2.2) w) root = target m root := by
    rw [target_put P, hent, ← hnone, update_eq_self]
  refine ⟨C.space.setLeaf hu _ _, ?_, ?_, ?_⟩
  · rw [hsame]
    exact C.count
  · rw [hsame]
    exact C.user
  · rw [hsame]
    intro x t hx hxw
    refine C.writable x t hx ?_
    rwa [P.ne] at hxw
    rintro rfl
    rw [hnone] at hx
    cases hx

end

omit [Layout] in
theorem getLsbD_clearU (w : Word) (hi : i ≠ 4) : (w &&& ~~~PTE_U).getLsbD i = w.getLsbD i := by
  have hU : PTE_U.getLsbD i = decide (4 = i) := getLsbD_flag (by decide) i
  by_cases h : i < 64
  · rw [BitVec.getLsbD_and, BitVec.getLsbD_not, hU]
    simp [h, Ne.symm hi]
  · rw [BitVec.getLsbD_of_ge _ i (by omega), BitVec.getLsbD_of_ge w i (by omega)]

section
variable (C : Counted m root own) (hq : root none ≠ 0) (A : AddrSpace m root none tf sz)
include C hq A

theorem uvmclear_built {a : Nat} (ha : a < TRAPFRAME) (hal : a % PGSIZE = 0)
    (h : uvmclear (root none) a m = .ok ((), m')) : Built root tf m own sz m' own := by
  have hmax : a < MAXVA := lt_MAXVA ha
  rw [uvmclear] at h
  rcases C.space.walk_read hq hmax with ⟨hw, _⟩ | ⟨u, hw, hu, he⟩
  · rw [bind_of_ok hw] at h
    cases h
  rw [bind_of_ok hw] at h
  have P : Space.PutLeaf root none (slot a) (m.leaf (root none) (slot a) &&& ~~~PTE_U) m
      (m.setPte (u, PX 0 a) (m.leaf (root none) (slot a) &&& ~~~PTE_U)) :=
    C.space.leaf_setLeaf (k := slot a) hu _
  have hV : has (m.leaf (root none) (slot a) &&& ~~~PTE_U) PTE_V =
      has (m.leaf (root none) (slot a)) PTE_V := by
    rw [has_V, has_V, getLsbD_clearU _ (by decide)]
  have hva := slot_va_of_aligned hmax hal
  have C' : Counted (m.setPte (u, PX 0 a) (m.leaf (root none) (slot a) &&& ~~~PTE_U)) root own := by
    by_cases hv : has (m.leaf (root none) (slot a)) PTE_V
    · have ht : target m root (none, slot a) = some (PTE2PA (m.leaf (root none) (slot a))) :=
        target_eq_some.mpr ⟨by rw [hva]; exact ha, hv, rfl⟩
      refine (C.setFlags ht hu (by rw [hV]; exact hv) (PTE2PA_and_not (by decide)) ?_).1
      intro hW
      rw [has_W, getLsbD_clearU _ (by decide), ← has_W] at hW
      exact C.writable _ _ ht hW
    · exact setInvalid_counted C hu (by simpa using hv) (by rw [hV]; simpa using hv)
  have hs : m' = m.setPte (u, PX 0 a) (m.leaf (root none) (slot a) &&& ~~~PTE_U) := by
    rw [← he]
    cases h
    rfl
  subst hs
  have hrest : ∀ q, Rests root q m
      (m.setPte (u, PX 0 a) (m.leaf (root none) (slot a) &&& ~~~PTE_U)) := by
    intro q
    refine ⟨fun k hk => P.ne (x := (q, k)) fun hx => ?_, fun k _ hv => ?_⟩
    · have hka : k = slot a := (Prod.ext_iff.mp hx).2
      rw [hka, hva] at hk
      exact absurd ha (Nat.not_lt.mpr hk)
    · rw [P q k]
      split
      case isTrue hqk =>
        rw [hV, ← hqk.1, ← hqk.2]
        exact hv
      case isFalse => exact hv
  exact ⟨C', .refl _ _, fun q _ => hrest q, A.of_rests (hrest none)⟩

theorem allocStack_built {x : Bool × Nat} (h : allocStack (root none) sz m = .ok (x, m')) :
    ∃ own', Built root tf m own x.2 m' own' := by
  have hup := PGROUNDUP_of_le A.size
  have A0 : AddrSpace m root none tf (PGROUNDUP sz) := A.grow hup.1 hup.2.2.2
  obtain ⟨r, m1, hu, h⟩ := bind_ok h
  obtain ⟨own1, ⟨hr, B⟩ | ⟨hr, B⟩⟩ := uvmalloc_built C hq A0 hu
  · rw [if_pos hr] at h
    cases h
    exact ⟨own1, B⟩
  have hr' : r = PGROUNDUP sz + 2 * PGSIZE := by omega
  rw [if_neg (by rw [hr']; simp [PGSIZE])] at h
  obtain ⟨_, m2, hcl, h⟩ := bind_ok h
  cases h
  have hsize := B.space.size
  have ha : r - 2 * PGSIZE < TRAPFRAME := by omega
  have hal : (r - 2 * PGSIZE) % PGSIZE = 0 := by
    rw [hr', Nat.add_sub_cancel]
    exact hup.2.2.1
  exact ⟨own1, B.trans (uvmclear_built B.counted hq B.space ha hal hcl)⟩

theorem push_built {x : Option Nat} (h : push (root none) base sp bytes m = .ok (x, m')) :
    Built root tf m own sz m' own := by
  rw [push] at h
  split at h
  · cases h
    exact .refl C A
  obtain ⟨e, m1, hc, h⟩ := bind_ok h
  obtain ⟨e', m1', hc', C', R, _, _⟩ := copyout_spec C hq A.reserved
    ((sp - bytes.length) / 16 * 16) bytes
  rw [hc] at hc'
  cases hc'
  have B : Built root tf m own sz m1 own :=
    ⟨C', .refl _ _, fun q _ => .of_refreshed R, A.of_rests (.of_refreshed R)⟩
  split at h
  · cases h
    exact B
  · cases h
    exact B

theorem pushArgs_built {ustack : List Nat} {x : Option (Nat × List Nat)}
    (h : pushArgs (root none) base argv sp ustack m = .ok (x, m')) :
    Built root tf m own sz m' own := by
  induction argv generalizing m sp ustack with
  | nil =>
    cases h
    exact .refl C A
  | cons arg argv ih =>
    rw [pushArgs] at h
    split at h
    · cases h
      exact .refl C A
    obtain ⟨y, m1, hp, h⟩ := bind_ok h
    have B := push_built C hq A hp
    cases y with
    | none =>
      cases h
      exact B
    | some sp' => exact B.trans (ih B.counted B.space h)

end

theorem buildImage_built {x : Nat × Option Nat} (C : Counted m root own) (hq : root none ≠ 0)
    (A : AddrSpace m root none tf 0) (h : buildImage (root none) gs argv m = .ok (x, m')) :
    ∃ own', Built root tf m own x.1 m' own' := by
  obtain ⟨y, m1, hl, h⟩ := bind_ok h
  obtain ⟨own1, B1⟩ := loadSegments_built C hq A hl
  split at h
  · cases h
    exact ⟨own1, B1⟩
  obtain ⟨z, m2, ha, h⟩ := bind_ok h
  obtain ⟨own2, B2⟩ := allocStack_built B1.counted hq B1.space ha
  have B2 := B1.trans B2
  split at h
  · cases h
    exact ⟨own2, B2⟩
  obtain ⟨sp, m3, hs, h⟩ := bind_ok h
  cases h
  obtain ⟨w, m4, hp, hs⟩ := bind_ok hs
  have B4 := pushArgs_built B2.counted hq B2.space hp
  refine ⟨own2, B2.trans ?_⟩
  cases w with
  | none =>
    cases hs
    exact B4
  | some w => exact B4.trans (push_built B4.counted hq B4.space hs)

/-! ### The new image replaces the old one -/

variable {s s' : Sys} {p : ProcId}

/-- The page table without process and the one of `p` change places. -/
def swapTables (p : ProcId) : TableId ≃ TableId := Equiv.swap none (some p)

/-- The process after `exec` -/
def Proc.execed (pt sz sp : Nat) (pr : Proc) : Proc := { pr with pagetable := pt, sz := sz, sp := sp }

/-- The machine after the old page table of `p` has been freed, and the new one `pt` is in its
place. -/
theorem MemInv.execed {pt : Nat} (sp : Nat) (M : MemInv s own) (hp : (s.proc p).pagetable ≠ 0)
    (B : Built (update s.root none pt) (s.proc p).trapframe s.mem own sz m1 own1)
    (h : proc_freepagetable (s.proc p).pagetable (s.proc p).sz m1 = .ok ((), m')) :
    ∃ own', MemInv ({ s with mem := m' }.setProc p (Proc.execed pt sz sp)) own' := by
  have hne : ∀ q : ProcId, update s.root none pt (some q) = (s.proc q).pagetable :=
    fun q => update_of_ne (by simp) _ _
  have A : AddrSpace m1 (update s.root none pt) (some p) (s.proc p).trapframe (s.proc p).sz :=
    ((M.space p hp).transfer (hne p)).of_rests (B.rests (some p) (by simp))
  obtain ⟨C2, K2⟩ := proc_freepagetable_spec B.counted (by rw [hne]; exact hp) A
    (by rw [hne]; exact h)
  have C3 := C2.rename (swapTables p)
  have hroot : ({ s with mem := m' }.setProc p (Proc.execed pt sz sp)).root = fun q =>
      update (update s.root none pt) (some p) 0 ((swapTables p).symm q) := by
    funext q
    rw [root_setProc, swapTables, Equiv.symm_swap]
    cases q with
    | none => simp [Sys.root]
    | some q =>
      by_cases hq : q = p
      · subst hq
        simp [Proc.execed]
      · rw [Equiv.swap_apply_of_ne_of_ne (by simp) (by simpa using hq),
          update_of_ne (by simpa using hq), update_of_ne (by simpa using hq), hne]
        rfl
  have hframe : ({ s with mem := m' }.setProc p (Proc.execed pt sz sp)).frame = s.frame := by
    refine frame_congr_of_frames fun q => ?_
    by_cases hq : q = p
    · subst hq
      rw [setProc_self]
      exact ⟨rfl, rfl⟩
    · rw [setProc_ne _ _ hq]
      exact ⟨rfl, rfl⟩
  have hheld : ∀ t, own t = .held → ((own1 t).drop (some p)).rename (swapTables p) = .held := by
    intro t ht
    rw [Owner.rename_eq_held, Owner.drop_eq_held, B.grows.held]
    exact ht
  refine ⟨_, M.of_slot (by rw [hroot]; exact C3) (fun q hq => setProc_ne _ _ hq) ?_
    (fun q _ b h => hheld _ (M.frame _ h)) ?_ ?_ ?_ ?_⟩
  · intro q hq
    have h1 : Rests s.root (some q) s.mem m1 := (B.rests (some q) (by simp)).transfer (hne q).symm
    have h2 : Rests (update s.root none pt) (some q) m1 m' :=
      .of_keeps K2 fun k hk => hq (Option.some.inj hk)
    exact h1.trans (h2.transfer (hne q).symm)
  · intro _
    rw [setProc_self]
    have hA : AddrSpace m' (update s.root none pt) none (s.proc p).trapframe sz :=
      B.space.of_rests (.of_keeps K2 fun k hk => by cases hk)
    refine hA.transfer ?_
    rw [root_some, setProc_self]
    rfl
  · rw [hframe]
    exact fun b hb => hheld _ (M.frame _ hb)
  · rw [hframe]
    exact fun b x hx hb => M.frame_inj _ _ hx hb
  · rw [setProc_self]
    exact M.vma p

/-- The shared memory of the first slot is nowhere in the invariant. -/
theorem Inv.setShm (I : Inv s own) (p : ProcId) (shm : Nat) :
    Inv (s.setProc p fun pr => { pr with shm := shm }) own :=
  (I.of_proc ⟨.rfl, rfl, rfl, rfl⟩ rfl (I.vma p)).inv

theorem exec_inv (I : Inv s own) (hp : (s.proc p).state ≠ .UNUSED)
    (h : exec p gs argv s = .ok (e, s')) : ∃ own', Inv s' own' := by
  have hpt := I.used p hp
  obtain ⟨pt, m1, h1, h⟩ := onMem_bind_ok h
  obtain ⟨own1, G1, K1, hcase⟩ := proc_pagetable_spec (c := none) I.counted rfl h1
  have hback : ∀ n, update (update s.root none n) none 0 = s.root := by
    intro n
    rw [update_idem]
    exact update_eq_self _ _
  rcases hcase with ⟨h0, C1⟩ | ⟨h0, C1, A1⟩
  · rw [if_pos h0] at h
    cases h
    exact ⟨own1, I.of_rests C1 G1.hold fun q => .of_keeps K1⟩
  rw [if_neg h0] at h
  obtain ⟨x, m2, h2, h⟩ := onMem_bind_ok h
  have hself : update s.root none pt none = pt := update_self _ _ _
  have hpne : update s.root none pt none ≠ 0 := by rwa [hself]
  obtain ⟨own2, B2⟩ := buildImage_built C1 hpne A1 (by rw [hself]; exact h2)
  have hne : ∀ q : TableId, q ≠ none → update s.root none pt q = s.root q :=
    fun q hq => update_of_ne hq _ _
  have B : Built (update s.root none pt) (s.proc p).trapframe s.mem own x.1 m2 own2 := by
    refine ⟨B2.counted, G1.trans B2.grows, fun q hq => ?_, B2.space⟩
    have h1 : Rests s.root q s.mem m1 := .of_keeps K1
    exact (h1.transfer (hne q hq)).trans (B2.rests q hq)
  cases hx : x.2 with
  | none =>
    simp only [hx] at h
    obtain ⟨_, m3, h3, h⟩ := onMem_bind_ok h
    cases h
    obtain ⟨C3, K3⟩ := proc_freepagetable_spec B.counted hpne B.space (by rw [hself]; exact h3)
    rw [hback] at C3
    refine ⟨_, I.of_rests C3 ?_ fun q => ?_⟩
    · intro t ht
      rw [Owner.drop_eq_held, B.grows.held]
      exact ht
    · have h3 := (B.rests (some q) (by simp)).trans (.of_keeps K3 fun k hk => by cases hk)
      exact h3.transfer (hne (some q) (by simp)).symm
  | some sp =>
    simp only [hx] at h
    obtain ⟨_, s3, h3, h⟩ := bind_ok h
    cases h
    obtain ⟨_, m3, hf, h3⟩ := onMem_bind_ok h3
    cases h3
    obtain ⟨own', M'⟩ := I.toMemInv.execed sp hpt B hf
    have I' := I.of_memInv M' (fun q hq => setProc_ne _ _ hq)
      (by rw [setProc_self]; exact (if_neg hp).mpr h0)
    exact ⟨own', I'.setShm 0 KERNBASE⟩

end Yyds.Kernel
