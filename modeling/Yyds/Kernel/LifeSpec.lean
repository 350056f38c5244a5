import Yyds.Ipc.Procs
import Yyds.Kernel.Tables

/-! `fork`, `exit` and `wait` keep the machine in order. -/
namespace Yyds.Kernel

open Lib Kern Mm Function Owner Sys Proc

variable [Layout] {s s' : Sys} {p c : ProcId} {own own' : Nat → Owner} {m m' : Phys}
  {root root' : TableId → Nat} {q : TableId} {tf sz r : Nat} {e : Int}

theorem AddrSpace.transfer {q' : TableId} (A : AddrSpace m root q tf sz) (h : root' q' = root q) :
    AddrSpace m root' q' tf sz :=
  ⟨by rw [h]; exact A.trampoline, by rw [h]; exact A.trapframe, A.size,
    fun k h1 h2 => by rw [h]; exact A.empty k h1 h2, fun k hk => by rw [h]; exact A.beyond k hk⟩

omit [Layout] in
theorem Sys.frame_congr (h : s'.proc p = s.proc p) (b : Bool) :
    s'.frame (p, b) = s.frame (p, b) := by
  cases b with
  | false => exact congrArg trapframe h
  | true => exact congrArg alarm_trapframe h

omit [Layout] in
theorem Sys.root_setProc (s : Sys) (p : ProcId) (f : Proc → Proc) :
    (s.setProc p f).root = update s.root (some p) (f (s.proc p)).pagetable := by
  funext q
  cases q with
  | none => rfl
  | some q =>
    by_cases hq : q = p
    · subst hq
      rw [root_some, setProc_self, update_self]
    · rw [root_some, setProc_ne _ _ hq, update_of_ne (by simpa using hq)]
      rfl

/-- One slot of the process table changes, and the page table of that process. -/
theorem MemInv.of_slot (M : MemInv s own) (C : Counted s'.mem s'.root own')
    (hproc : ∀ q ≠ p, s'.proc q = s.proc q) (hrest : ∀ q ≠ p, Rests s.root (some q) s.mem s'.mem)
    (hheld : ∀ q ≠ p, ∀ b, s.frame (q, b) ≠ 0 → own' (s.frame (q, b)) = .held)
    (hspace : (s'.proc p).pagetable ≠ 0 →
      AddrSpace s'.mem s'.root (some p) (s'.proc p).trapframe (s'.proc p).sz)
    (hframe : ∀ b, s'.frame (p, b) ≠ 0 → own' (s'.frame (p, b)) = .held)
    (hinj : ∀ b x, s'.frame (p, b) = s'.frame x → s'.frame (p, b) ≠ 0 → (p, b) = x)
    (hvma : ∀ i, ((s'.proc p).vma i).Inside) : MemInv s' own' := by
  have hroot : ∀ q ≠ p, s'.root (some q) = s.root (some q) := by
    intro q hq
    rw [root_some, hproc q hq, root_some]
  have hfr : ∀ q ≠ p, ∀ b, s'.frame (q, b) = s.frame (q, b) :=
    fun q hq => Sys.frame_congr (hproc q hq)
  refine ⟨C, ?_, ?_, ?_, ?_⟩
  · intro q hq
    by_cases he : q = p
    · subst he
      exact hspace hq
    · rw [hproc q he] at hq ⊢
      exact ((M.space q hq).of_rests (hrest q he)).transfer (hroot q he)
  · rintro ⟨q, b⟩ hx
    by_cases he : q = p
    · subst he
      exact hframe b hx
    · rw [hfr q he] at hx ⊢
      exact hheld q he b hx
  · rintro ⟨q, b⟩ ⟨q', b'⟩ hxy hx
    by_cases he : q = p
    · subst he
      exact hinj b _ hxy hx
    by_cases he' : q' = p
    · subst he'
      exact (hinj b' _ hxy.symm (hxy ▸ hx)).symm
    · rw [hfr q he, hfr q' he'] at hxy
      rw [hfr q he] at hx
      exact M.frame_inj _ _ hxy hx
  · intro q i
    by_cases he : q = p
    · subst he
      exact hvma i
    · rw [hproc q he]
      exact M.vma q i

theorem Counted.own_zero (C : Counted m root own) : own 0 = .user := by
  cases h : own 0 with
  | user => rfl
  | table p path => exact absurd rfl (C.space.table 0 p path h).1.pos
  | held => exact absurd rfl (C.space.held 0 h).1.pos

theorem kfree_frame (C : Counted s.mem root own) (hr : r ≠ 0 → own r = .held)
    (h : Kern.when (r ≠ 0) (onMem (kfree r)) s = .ok ((), s')) :
    ∃ m', s' = { s with mem := m' } ∧ Counted m' root (update own r .user) ∧
      Keeps root (fun _ => False) s.mem m' := by
  by_cases h0 : r = 0
  · subst h0
    cases h
    refine ⟨s.mem, rfl, ?_, .refl _ _ _⟩
    rw [← Counted.own_zero C, update_eq_self]
    exact C
  · rw [when_pos h0] at h
    obtain ⟨m', hk, rfl⟩ := onMem_ok h
    obtain ⟨m1, hk1, hpage, _, hl, C1⟩ := C.kfree_held (hr h0)
    rw [hk] at hk1
    cases hk1
    refine ⟨m', rfl, C1, C.keeps_none hl ?_ _⟩
    intro t ht _
    refine hpage t ?_
    rintro rfl
    rw [hr h0] at ht
    cases ht

theorem freepagetable_if (C : Counted s.mem root own) (hroot : root q = r)
    (A : r ≠ 0 → AddrSpace s.mem root q tf sz)
    (h : Kern.when (r ≠ 0) (onMem (proc_freepagetable r sz)) s = .ok ((), s')) :
    ∃ m', s' = { s with mem := m' } ∧
      Counted m' (update root q 0) (fun u => (own u).drop q) ∧
      Keeps root (fun x => x.1 = q) s.mem m' := by
  subst hroot
  by_cases h0 : root q = 0
  · rw [when_neg (by simp [h0])] at h
    cases h
    refine ⟨s.mem, rfl, ?_, .refl _ _ _⟩
    have hown : (fun u => (own u).drop q) = own := by
      funext u
      cases ho : own u with
      | user => rfl
      | held => rfl
      | table p path =>
        refine if_neg ?_
        rintro rfl
        exact C.space.no_table h0 u path ho
    rw [← h0, update_eq_self, hown]
    exact C
  · rw [when_pos h0] at h
    obtain ⟨m', hk, rfl⟩ := onMem_ok h
    obtain ⟨C', K⟩ := proc_freepagetable_spec C h0 (A h0) hk
    exact ⟨m', rfl, C', K⟩

/-- Who owns which page after `freeproc`. -/
structure Reaped (s : Sys) (p : ProcId) (own own' : Nat → Owner) : Prop where
  held : ∀ t, own' t = .held ↔ own t = .held ∧ t ≠ s.frame (p, false) ∧ t ≠ s.frame (p, true)
  table : ∀ t q path, own' t = .table q path ↔ q ≠ some p ∧ own t = .table q path

theorem MemInv.frame_no_table (M : MemInv s own) (x : ProcId × Bool) (q : TableId)
    (path : List (Fin 512)) : own (s.frame x) ≠ .table q path := by
  by_cases h0 : s.frame x = 0
  · rw [h0]
    exact user_ne_table (Counted.own_zero M.counted) q path
  · exact held_ne_table (M.frame x h0) q path

/-- The two pages of the kernel and the tables of `p` are given back. -/
theorem MemInv.reaped (M : MemInv s own) (p : ProcId) :
    Reaped s p own (update (fun u => (update own (s.frame (p, false))
      .user u).drop (some p)) (s.frame (p, true)) .user) := by
  refine ⟨fun t => ?_, fun t q path => ?_⟩
  · by_cases ht : t = s.frame (p, true)
    · simp [ht]
    · rw [update_of_ne ht, drop_eq_held]
      by_cases ht' : t = s.frame (p, false)
      · simp [ht']
      · simp [ht, ht']
  · by_cases ht : t = s.frame (p, true)
    · subst ht
      simp [M.frame_no_table]
    · rw [update_of_ne ht, drop_eq_table]
      by_cases ht' : t = s.frame (p, false)
      · subst ht'
        simp [M.frame_no_table]
      · rw [update_of_ne ht']

omit [Layout] in
theorem Sys.frame_cleared (s : Sys) (p : ProcId) (b : Bool) :
    (s.setProc p Proc.cleared).frame (p, b) = 0 := by
  cases b with
  | false => exact congrArg trapframe (setProc_self s p _)
  | true => exact congrArg alarm_trapframe (setProc_self s p _)

/-- The second page is still held when `freeproc` comes to it. -/
theorem MemInv.alarm_held (M : MemInv s own) (h0 : s.frame (p, true) ≠ 0) :
    (update own (s.frame (p, false)) .user (s.frame (p, true))).drop (some p) = .held := by
  have hne : s.frame (p, true) ≠ s.frame (p, false) := by
    intro he
    have := M.frame_inj _ _ he h0
    simp at this
  rw [drop_eq_held, update_of_ne hne]
  exact M.frame _ h0

theorem freeproc_spec (M : MemInv s own) (h : freeproc p s = .ok ((), s')) :
    ∃ m' own', s' = { s with mem := m' }.setProc p Proc.cleared ∧ MemInv s' own' ∧
      Reaped s p own own' ∧ Keeps s.root (fun x => x.1 = some p) s.mem m' := by
  rw [freeproc, get_bind_apply] at h
  obtain ⟨_, s₁, h1, h⟩ := bind_ok h
  obtain ⟨_, s2, h2, h⟩ := bind_ok h
  obtain ⟨_, s3, h3, h⟩ := bind_ok h
  obtain ⟨m1, rfl, C1, K1⟩ := kfree_frame M.counted (M.frame (p, false)) h1
  obtain ⟨m2, rfl, C2, K2⟩ := freepagetable_if C1 (s.root_some p)
    (fun hp => (M.space p hp).of_rests (.of_keeps K1)) h2
  obtain ⟨m3, rfl, C3, K3⟩ := kfree_frame C2 M.alarm_held h3
  cases h
  have hfalse : ∀ {n n' : Phys} {ρ : TableId → Nat}, Keeps ρ (fun _ => False) n n' →
      Keeps ρ (fun x => x.1 = some p) n n' := fun K => K.mono fun _ h => h.elim
  have K3' : Keeps s.root (fun x => x.1 = some p) m2 m3 :=
    (hfalse K3).congr_root fun x hx => (update_of_ne hx _ _).symm
  have K : Keeps s.root (fun x => x.1 = some p) s.mem m3 := ((hfalse K1).trans K2).trans K3'
  have hR := M.reaped p
  refine ⟨m3, _, rfl, ?_, hR, K⟩
  refine M.of_slot (by rw [root_setProc]; exact C3)
    (fun q hq => setProc_ne _ _ hq) ?_ ?_ ?_ ?_ ?_ ?_
  · intro q hq
    exact .of_keeps K fun k hk => hq (Option.some.inj hk)
  · intro q hq b hb
    refine (hR.held _).mpr ⟨M.frame _ hb, fun he => hq ?_, fun he => hq ?_⟩
    · exact congrArg Prod.fst (M.frame_inj _ _ he hb)
    · exact congrArg Prod.fst (M.frame_inj _ _ he hb)
  · intro hp
    rw [setProc_self] at hp
    exact absurd rfl hp
  · intro b hb
    rw [frame_cleared] at hb
    exact absurd rfl hb
  · intro b x _ hb
    rw [frame_cleared] at hb
    exact absurd rfl hb
  · intro i
    rw [setProc_self]
    exact M.vma p i

/-! ### `allocproc` -/

section
omit [Layout]

theorem Sys.frame_setFrame (s : Sys) (p : ProcId) (b : Bool) (r : Nat) :
    (s.setProc p (Proc.setFrame b r)).frame (p, b) = r := by
  cases b with
  | false => exact congrArg trapframe (setProc_self s p _)
  | true => exact congrArg alarm_trapframe (setProc_self s p _)

theorem Sys.frame_setFrame_ne (s : Sys) {p : ProcId} {b : Bool} (r : Nat) {x : ProcId × Bool}
    (hx : x ≠ (p, b)) : (s.setProc p (Proc.setFrame b r)).frame x = s.frame x := by
  obtain ⟨q, b'⟩ := x
  by_cases hq : q = p
  · subst hq
    have hb : b' ≠ b := by simpa using hx
    cases b <;> cases b' <;> simp_all [frame, setProc_self, setFrame]
  · exact frame_congr (setProc_ne s _ hq) b'

theorem Sys.root_setFrame (s : Sys) (p : ProcId) (b : Bool) (r : Nat) :
    (s.setProc p (Proc.setFrame b r)).root = s.root := by
  rw [root_setProc]
  cases b <;> exact update_eq_self _ _

end

variable {m1 : Phys} {addr : Nat}

/-- A process without page table gets another page for its trapframe or alarm trapframe. -/
theorem MemInv.setFrame {own1 : Nat → Owner} (M : MemInv s own) (hp : (s.proc p).pagetable = 0)
    (b : Bool) (C : Counted m1 s.root own1) (K : Keeps s.root (fun _ => False) s.mem m1)
    (hheld : ∀ t, own t = .held → own1 t = .held) (hr : r ≠ 0 → own r = .user ∧ own1 r = .held) :
    MemInv ({ s with mem := m1 }.setProc p (Proc.setFrame b r)) own1 := by
  have hself := frame_setFrame { s with mem := m1 } p b r
  have hother : ∀ x ≠ (p, b),
      ({ s with mem := m1 }.setProc p (Proc.setFrame b r)).frame x = s.frame x :=
    fun x hx => frame_setFrame_ne _ r hx
  refine M.of_slot (by rw [root_setFrame]; exact C)
    (fun q hq => setProc_ne _ _ hq) (fun _ _ => .of_keeps K)
    (fun q _ b' h => hheld _ (M.frame _ h)) ?_ ?_ ?_ ?_
  · intro hne
    rw [setProc_self] at hne
    cases b <;> exact absurd hp hne
  · intro b' hne
    by_cases hb : b' = b
    · subst hb
      rw [hself] at hne ⊢
      exact (hr hne).2
    · rw [hother _ (by simpa using hb)] at hne ⊢
      exact hheld _ (M.frame _ hne)
  · intro b' x hx hne
    by_cases hb : (p, b') = (p, b)
    · rw [hb] at hx hne ⊢
      by_contra hxne
      rw [hself] at hx hne
      rw [hother x (Ne.symm hxne)] at hx
      have hfr := M.frame x (hx ▸ hne)
      rw [← hx, (hr hne).1] at hfr
      cases hfr
    · rw [hother _ hb] at hx hne
      by_cases hxb : x = (p, b)
      · rw [hxb, hself] at hx
        have hfr := M.frame _ hne
        rw [hx, (hr (hx ▸ hne)).1] at hfr
        cases hfr
      · rw [hother x hxb] at hx
        exact M.frame_inj _ _ hx hne
  · intro i
    rw [setProc_self]
    cases b <;> exact M.vma p i

/-- Only the slot `p` of the process table has changed, and memory. -/
structure SlotOnly (p : ProcId) (s s' : Sys) : Prop where
  proc : ∀ q ≠ p, s'.proc q = s.proc q
  file : s'.file = s.file
  inode : s'.inode = s.inode
  initproc : s'.initproc = s.initproc

section
omit [Layout]

theorem SlotOnly.trans {s₁ : Sys} (h1 : SlotOnly p s s₁) (h2 : SlotOnly p s₁ s') : SlotOnly p s s' :=
  ⟨fun q hq => (h2.proc q hq).trans (h1.proc q hq), h2.file.trans h1.file,
    h2.inode.trans h1.inode, h2.initproc.trans h1.initproc⟩

theorem SlotOnly.setProc (s : Sys) (p : ProcId) (f : Proc → Proc) (m : Phys) :
    SlotOnly p s ({ s with mem := m }.setProc p f) :=
  ⟨fun _ hq => setProc_ne _ _ hq, rfl, rfl, rfl⟩

theorem SlotOnly.frame (h : SlotOnly p s s') (htf : (s'.proc p).trapframe = (s.proc p).trapframe)
    (hal : (s'.proc p).alarm_trapframe = (s.proc p).alarm_trapframe) : s'.frame = s.frame := by
  refine frame_congr_of_frames fun q => ?_
  by_cases hq : q = p
  · exact hq ▸ ⟨htf, hal⟩
  · rw [h.proc q hq]
    exact ⟨rfl, rfl⟩

end

/-- `p->trapframe = kalloc()` and its like, for a process without page table. -/
theorem kallocFrame_spec {b : Bool} (M : MemInv s own) (hp : (s.proc p).pagetable = 0)
    (h : kallocFrame p b s = .ok (r, s')) :
    ∃ own', MemInv s' own' ∧ SlotOnly p s s' ∧ s'.proc p = (s.proc p).setFrame b r ∧
      s'.root = s.root ∧ Keeps s.root (fun _ => False) s.mem s'.mem ∧
      ((r = 0 ∧ own' = own) ∨ (r ≠ 0 ∧ own r = .user ∧ own' = update own r .held)) := by
  obtain ⟨r', m1, hk, h⟩ := onMem_bind_ok h
  cases h
  have hS := SlotOnly.setProc s p (setFrame b r) m1
  have hself := setProc_self { s with mem := m1 } p (setFrame b r)
  have hroot := root_setFrame { s with mem := m1 } p b r
  obtain ⟨r', m1', hk', hl, hcase⟩ := M.counted.kalloc
  rw [hk] at hk'
  cases hk'
  rcases hcase with ⟨hr, _, hpage, _, C⟩ | ⟨hm, hz, ho, hpage, _, C⟩
  · have K : Keeps s.root (fun _ => False) s.mem m1 :=
      M.counted.keeps_none hl (fun _ _ _ => by rw [hpage]) _
    exact ⟨own, M.setFrame hp b C K (fun _ h => h) fun h => absurd hr h, hS, hself, hroot, K,
      .inl ⟨hr, rfl⟩⟩
  have K : Keeps s.root (fun _ => False) s.mem m1 := by
    refine M.counted.keeps_none hl ?_ _
    intro t _ ht
    refine hpage t ?_
    rintro rfl
    exact ht hz
  refine ⟨_, M.setFrame hp b C K ?_ fun _ => ⟨ho, update_self _ _ _⟩, hS, hself, hroot,
    K, .inr ⟨hm.pos, ho, rfl⟩⟩
  intro t ht
  rw [update_of_ne, ht]
  rintro rfl
  rw [ho] at ht
  cases ht

/-- The processes that were there are as they were and see what they saw. -/
def Unnoticed (s s' : Sys) : Prop := ∀ q, (s.proc q).state ≠ .UNUSED →
  s'.proc q = s.proc q ∧ view s'.mem s'.root (some q) = view s.mem s.root (some q)

section
omit [Layout]

theorem Unnoticed.trans {s₁ : Sys} (h1 : Unnoticed s s₁) (h2 : Unnoticed s₁ s') :
    Unnoticed s s' := by
  intro q hq
  obtain ⟨hp1, hv1⟩ := h1 q hq
  obtain ⟨hp2, hv2⟩ := h2 q (by rwa [hp1])
  exact ⟨hp2.trans hp1, hv2.trans hv1⟩

theorem SlotOnly.unnoticed (h : SlotOnly p s s') (hu : (s.proc p).state = .UNUSED)
    (K : Keeps s.root (fun x => x.1 = some p) s.mem s'.mem) : Unnoticed s s' := by
  intro q hq
  have hne : q ≠ p := by
    rintro rfl
    exact hq hu
  have hr : s'.root (some q) = s.root (some q) := congrArg pagetable (h.proc q hne)
  refine ⟨h.proc q hne, funext fun k => ?_⟩
  rw [← K.view fun hk => hne (Option.some.inj hk)]
  simp only [view, target, hr]

end

/-- A process with a new page table and no mapped files -/
def Proc.withTable (pt : Nat) (pr : Proc) : Proc :=
  { pr with pagetable := pt, vma := fun _ => VmArea.unused }

omit [Layout] in
theorem VmArea.inside_unused : VmArea.unused.Inside := fun h => by cases h

/-- The process `p` gets the page table `pt` that `proc_pagetable` has made for it. -/
theorem MemInv.withTable {pt : Nat} {f : Proc → Proc} (M : MemInv s own)
    (hp : (s.proc p).pagetable = 0)
    (N : NewTable s.root (some p) (s.proc p).trapframe pt s.mem own m' own')
    (hf : (f (s.proc p)).pagetable = pt ∧ (f (s.proc p)).sz = 0 ∧
      (f (s.proc p)).trapframe = (s.proc p).trapframe ∧
      (f (s.proc p)).alarm_trapframe = (s.proc p).alarm_trapframe)
    (hvma : ∀ i, ((f (s.proc p)).vma i).Inside) :
    MemInv ({ s with mem := m' }.setProc p f) own' := by
  obtain ⟨hpt, hsz, htf, hal⟩ := hf
  obtain ⟨G, K, hcase⟩ := N
  have hroot : ({ s with mem := m' }.setProc p f).root = update s.root (some p) pt := by
    rw [root_setProc]
    exact congrArg _ hpt
  have hframe := (SlotOnly.setProc s p f m').frame (by rwa [setProc_self])
    (by rwa [setProc_self])
  have hC : Counted m' (update s.root (some p) pt) own' := by
    rcases hcase with ⟨rfl, C⟩ | ⟨_, C, _⟩
    · have h0 : s.root (some p) = 0 := hp
      rw [← h0, update_eq_self]
      exact C
    · exact C
  have hheld := G.hold
  refine M.of_slot (by rw [hroot]; exact hC) (fun q hq => setProc_ne _ _ hq)
    (fun q _ => .of_keeps K) (fun q _ b h => hheld _ (M.frame _ h)) ?_ ?_ ?_ ?_
  · intro hne
    rw [setProc_self, hpt] at hne
    rw [hroot, setProc_self, htf, hsz]
    rcases hcase with ⟨h0, _⟩ | ⟨_, _, A⟩
    · exact absurd h0 hne
    · exact A
  · rw [hframe]
    exact fun b hb => hheld _ (M.frame _ hb)
  · rw [hframe]
    exact fun b x hx hb => M.frame_inj _ _ hx hb
  · rw [setProc_self]
    exact hvma

theorem allocTable_spec {r : Option ProcId} (M : MemInv s own) (hp : (s.proc p).pagetable = 0)
    (hsz : (s.proc p).sz = 0) (h : allocTable p s = .ok (r, s')) :
    (r = none ∧ ∃ m' own', s' = { s with mem := m' }.setProc p Proc.cleared ∧ MemInv s' own' ∧
      Keeps s.root (fun x => x.1 = some p) s.mem m') ∨
    (r = some p ∧ ∃ pt m' own', s' = { s with mem := m' }.setProc p (Proc.withTable pt) ∧ pt ≠ 0 ∧
      MemInv s' own' ∧ Grows (some p) own own' ∧ Keeps s.root (fun _ => False) s.mem m') := by
  obtain ⟨pt, m1, hpt, h⟩ := onMem_bind_ok h
  obtain ⟨own1, N⟩ := proc_pagetable_spec (c := some p) M.counted hp hpt
  rw [updProc_bind_apply] at h
  by_cases h0 : pt = 0
  · rw [if_pos h0] at h
    obtain ⟨_, s₁, hf, h⟩ := bind_ok h
    cases h
    have M1 := M.withTable (f := fun pr => { pr with pagetable := pt }) hp N ⟨rfl, hsz, rfl, rfl⟩
      (M.vma p)
    obtain ⟨m', own', rfl, M', _, K⟩ := freeproc_spec M1 hf
    refine .inl ⟨rfl, m', own', ?_, M', (N.2.1.mono fun _ h => h.elim).trans ?_⟩
    · simp only [setProc, update_self, update_idem]
      rfl
    · rw [root_setProc] at K
      exact K.congr_root fun x hx => (update_of_ne hx _ _).symm
  · rw [if_neg h0, updProc_bind_apply, setProc_setProc] at h
    cases h
    refine .inr ⟨rfl, pt, m1, own1, rfl, h0, ?_, N.1, N.2.1⟩
    exact M.withTable hp N ⟨rfl, hsz, rfl, rfl⟩
      fun _ => VmArea.inside_unused

/-- A free slot of the process table, as `allocproc` hands it out. -/
def Proc.born (pr : Proc) (pid : Int) (tf al pt : Nat) : Proc :=
  { pr with
    pid := pid, shm := KERNBASE, trapframe := tf, alarm_trapframe := al, pagetable := pt
    vma := fun _ => VmArea.unused }

/-- The machine after `allocproc` has made the process `c`. -/
structure Born (s : Sys) (own : Nat → Owner) (c : ProcId) (s' : Sys) (own' : Nat → Owner) : Prop where
  inv : MemInv s' own'
  free : (s.proc c).state = .UNUSED
  only : SlotOnly c s s'
  born : ∃ tf al pt, pt ≠ 0 ∧ s'.proc c = (s.proc c).born s.nextpid tf al pt
  keeps : Keeps s.root (fun _ => False) s.mem s'.mem
  fresh : ∀ b, s'.frame (c, b) ≠ 0 ∧ own (s'.frame (c, b)) = .user
  held : ∀ t, own' t = .held ↔ own t = .held ∨ t = s'.frame (c, false) ∨ t = s'.frame (c, true)
  other : ∀ q ≠ some c, ∀ t path, own' t = .table q path ↔ own t = .table q path

/-- Only the slot `p` has changed: it is free, or it has a page table. -/
theorem Inv.of_memInv (I : Inv s own) (M : MemInv s' own') (hproc : ∀ q ≠ p, s'.proc q = s.proc q)
    (hp : if (s'.proc p).state = .UNUSED then (s'.proc p).pagetable = 0 ∧ (s'.proc p).sz = 0
      else (s'.proc p).pagetable ≠ 0) : Inv s' own' := by
  refine ⟨M, ?_, ?_⟩
  · intro q hq
    by_cases he : q = p
    · subst he
      rwa [if_pos hq] at hp
    · rw [hproc q he] at hq ⊢
      exact I.unused q hq
  · intro q hq
    by_cases he : q = p
    · subst he
      rwa [if_neg hq] at hp
    · rw [hproc q he] at hq ⊢
      exact I.used q hq

theorem Inv.claim (I : Inv s own) (p : ProcId) : Inv (s.claim p) own ∧ SlotOnly p s (s.claim p) ∧
    (s.claim p).proc p = (s.proc p).claimed s.nextpid ∧ (s.claim p).root = s.root := by
  have I0 := (I.of_proc (f := claimed s.nextpid) ⟨.rfl, rfl, rfl, rfl⟩ rfl (I.vma p)).inv
  have hroot := root_setProc s p (claimed s.nextpid)
  refine ⟨I0.congr rfl rfl, ⟨fun q hq => ?_, rfl, rfl, rfl⟩, ?_, ?_⟩
  · exact setProc_ne s (claimed s.nextpid) hq
  · exact setProc_self s p (claimed s.nextpid)
  · exact hroot.trans (update_eq_self _ _)

theorem allocSlot_spec {r : Option ProcId} (I : Inv s own) (hu : (s.proc p).state = .UNUSED)
    (h : allocSlot p s = .ok (r, s')) :
    (r = none ∧ Unnoticed s s' ∧ ∃ own', Inv s' own') ∨ (r = some p ∧ ∃ own', Born s own p s' own') := by
  obtain ⟨hpt, hsz⟩ := I.unused p hu
  obtain ⟨I0, hS0, hp0, hroot0⟩ := I.claim p
  rw [allocSlot, modify_bind_apply] at h
  obtain ⟨tf, s₁, hk1, h⟩ := bind_ok h
  obtain ⟨own1, M1, hS1, hp1, hroot1, K1, hcase1⟩ :=
    kallocFrame_spec I0.toMemInv (by rw [hp0]; exact hpt) hk1
  rw [hp0] at hp1
  rw [hroot0] at K1 hroot1
  have hS1 := hS0.trans hS1
  have hnone : ∀ {m}, Keeps s.root (fun _ => False) s.mem m →
      Keeps s.root (fun x => x.1 = some p) s.mem m := fun K => K.mono fun _ h => h.elim
  rcases hcase1 with ⟨htf, rfl⟩ | ⟨htf, ho1, rfl⟩
  · rw [if_pos htf] at h
    cases h
    exact .inl ⟨rfl, hS1.unnoticed hu (hnone K1), own1,
      I.of_memInv M1 hS1.proc (by rw [hp1]; exact (if_pos hu).mpr ⟨hpt, hsz⟩)⟩
  rw [if_neg htf] at h
  obtain ⟨al, s2, hk2, h⟩ := bind_ok h
  obtain ⟨own2, M2, hS2, hp2, hroot2, K2, hcase2⟩ :=
    kallocFrame_spec M1 (by rw [hp1]; exact hpt) hk2
  rw [hp1] at hp2
  rw [hroot1] at K2 hroot2
  have K2 := K1.trans K2
  have hS2 := hS1.trans hS2
  rcases hcase2 with ⟨hal, rfl⟩ | ⟨hal, ho2, rfl⟩
  · rw [if_pos hal] at h
    cases h
    exact .inl ⟨rfl, hS2.unnoticed hu (hnone K2), _,
      I.of_memInv M2 hS2.proc (by rw [hp2]; exact (if_pos hu).mpr ⟨hpt, hsz⟩)⟩
  rw [if_neg hal] at h
  rcases allocTable_spec M2 (by rw [hp2]; exact hpt) (by rw [hp2]; exact hsz) h with
    ⟨rfl, m3, own3, rfl, M3, K3⟩ | ⟨rfl, pt, m3, own3, rfl, hpt3, M3, G3, K3⟩
  · have hS3 := hS2.trans (SlotOnly.setProc s2 p cleared m3)
    rw [hroot2] at K3
    refine .inl ⟨rfl, hS3.unnoticed hu ((hnone K2).trans K3), own3, I.of_memInv M3 hS3.proc ?_⟩
    · rw [setProc_self]
      exact (if_pos rfl).mpr ⟨rfl, rfl⟩
  have hself := setProc_self { s2 with mem := m3 } p (withTable pt)
  have hf : ∀ b, ({ s2 with mem := m3 }.setProc p (withTable pt)).frame (p, b) =
      if b then al else tf := by
    intro b
    cases b with
    | false => simp [frame, setProc_self, hp2, withTable, setFrame]
    | true => simp [frame, setProc_self, hp2, withTable, setFrame]
  have hne : al ≠ tf := by
    rintro rfl
    rw [update_self] at ho2
    cases ho2
  rw [update_of_ne hne] at ho2
  refine .inr ⟨rfl, own3, M3, hu, hS2.trans (SlotOnly.setProc _ _ _ _), ⟨tf, al, pt, hpt3, ?_⟩,
    ?_, ?_, ?_, ?_⟩
  · exact hself.trans (congrArg (withTable pt) hp2)
  · rw [hroot2] at K3
    exact K2.trans K3
  · intro b
    rw [hf]
    cases b with
    | false => exact ⟨htf, ho1⟩
    | true => exact ⟨hal, ho2⟩
  · intro t
    rw [G3.held, hf, hf]
    by_cases ht : t = al
    · simp [ht]
    · by_cases ht' : t = tf
      · subst ht'
        simp [update_of_ne ht]
      · simp [ht, ht']
  · intro q hq t path
    have ho2' : update own tf .held al = .user := by
      rw [update_of_ne hne, ho2]
    rw [G3.other q hq, table_update (user_ne_table ho2') (by simp),
      table_update (user_ne_table ho1) (by simp)]

theorem allocproc_spec {r : Option ProcId} (I : Inv s own) (h : allocproc s = .ok (r, s')) :
    (r = none ∧ Unnoticed s s' ∧ ∃ own', Inv s' own') ∨
    (∃ c own', r = some c ∧ Born s own c s' own') := by
  rw [allocproc, get_bind_apply] at h
  cases hf : (List.finRange NPROC).find? fun p => (s.proc p).state = .UNUSED with
  | none =>
    rw [hf] at h
    cases h
    exact .inl ⟨rfl, fun _ _ => ⟨rfl, rfl⟩, own, I⟩
  | some c =>
    simp only [hf] at h
    have hu : (s.proc c).state = .UNUSED := by simpa using List.find?_some hf
    rcases allocSlot_spec I hu h with hnone | ⟨hr, own', hB⟩
    · exact .inl hnone
    · exact .inr ⟨c, own', hr, hB⟩

/-! ### `fork` -/

omit [Layout] in
theorem unmapped_of_view {k : Slot} (hk : k.va < TRAPFRAME) (h : view m root q k = none) :
    has (m.leaf (root q) k) PTE_V = false := by
  by_contra hne
  rw [view, target, if_pos ⟨hk, by simpa using hne⟩] at h
  cases h

theorem AddrSpace.view_beyond (A : AddrSpace m root q tf sz) (k : Slot) (hk : PGROUNDUP sz ≤ k.va) :
    view m root q k = none := by
  by_cases hlt : k.va < TRAPFRAME
  · exact view_of_invalid (A.empty k hk hlt)
  · rw [view, target, if_neg fun h => hlt h.1]
    rfl

/-- The address space of the child before `uvmcopy`, or after one that has failed -/
theorem AddrSpace.of_fork {c : TableId} (A : AddrSpace m root c tf 0) (F : ForkKeeps root c m m')
    (hsz : sz ≤ TRAPFRAME) (hempty : Unmapped m' root c (PGROUNDUP sz) TRAPFRAME) :
    AddrSpace m' root c tf sz := by
  refine ⟨?_, ?_, hsz, hempty, ?_⟩
  · rw [F.sys c _ (by rw [slot_TRAMPOLINE_va]; decide), A.trampoline]
  · rw [F.sys c _ (Nat.le_of_eq slot_TRAPFRAME_va.symm), A.trapframe]
  · intro k hk
    rw [F.sys c k (Nat.le_trans (Nat.le_of_lt TRAPFRAME_lt_MAXVA) hk), A.beyond k hk]

/-- The machine after `fork` has made the child `c` of `p`. -/
structure Forked (s : Sys) (own : Nat → Owner) (p c : ProcId) (s' : Sys) (own' : Nat → Owner) :
    Prop where
  inv : Inv s' own'
  free : (s.proc c).state = .UNUSED
  ne : c ≠ p
  only : SlotOnly c s s'
  child : ∃ np : Proc, s'.proc c = np.child (s.proc p) p (s'.proc 0).shm ∧
    ∀ i, np.vma i = VmArea.unused
  target : ∀ q ≠ some c, ∀ k, Mm.target s'.mem s'.root (q, k) = Mm.target s.mem s.root (q, k)
  view : ∀ q ≠ some c, Mm.view s'.mem s'.root q = Mm.view s.mem s.root q
  copied : Mm.view s'.mem s'.root (some c) = Mm.view s.mem s.root (some p)
  fresh : ∀ b, s'.frame (c, b) ≠ 0 ∧ own (s'.frame (c, b)) = .user
  held : ∀ t, own' t = .held ↔ own t = .held ∨ t = s'.frame (c, false) ∨ t = s'.frame (c, true)
  other : ∀ q ≠ some c, ∀ t path, own' t = .table q path ↔ own t = .table q path

/-- Memory has changed for the process `c` that is being made. -/
theorem MemInv.of_fork (M : MemInv s own) (hS : SlotOnly c s s') (C : Counted s'.mem s.root own')
    (G : Grows (some c) own own') (F : ForkKeeps s.root (some c) s.mem s'.mem)
    (A : AddrSpace s'.mem s.root (some c) (s.proc c).trapframe (s'.proc c).sz)
    (hc : (s'.proc c).pagetable = (s.proc c).pagetable ∧
      (s'.proc c).trapframe = (s.proc c).trapframe ∧
      (s'.proc c).alarm_trapframe = (s.proc c).alarm_trapframe)
    (hvma : ∀ i, ((s'.proc c).vma i).Inside) : MemInv s' own' ∧ s'.root = s.root ∧ s'.frame = s.frame := by
  have hroot : s'.root = s.root := by
    refine root_congr fun q => ?_
    by_cases hq : q = c
    · rw [hq, hc.1]
    · rw [hS.proc q hq]
  have hframe : s'.frame = s.frame := hS.frame hc.2.1 hc.2.2
  have hheld := G.hold
  refine ⟨?_, hroot, hframe⟩
  refine M.of_slot (by rw [hroot]; exact C) hS.proc
    (fun q hq => .of_forkKeeps F (by simpa using hq)) (fun q _ b h => hheld _ (M.frame _ h))
    ?_ ?_ ?_ hvma
  · intro _
    rw [hroot, hc.2.1]
    exact A
  · rw [hframe]
    exact fun b hb => hheld _ (M.frame _ hb)
  · rw [hframe]
    exact fun b x hx hb => M.frame_inj _ _ hx hb

variable {s₁ : Sys} {own1 : Nat → Owner}

theorem Born.ne (B : Born s own c s₁ own1) (hp : (s.proc p).state ≠ .UNUSED) : c ≠ p := by
  rintro rfl
  exact hp B.free

theorem Born.space (B : Born s own c s₁ own1) (I : Inv s own) :
    (s₁.proc c).sz = 0 ∧ s₁.root (some c) ≠ 0 ∧
      AddrSpace s₁.mem s₁.root (some c) (s₁.proc c).trapframe 0 := by
  obtain ⟨tf, al, pt, hpt, hc⟩ := B.born
  have hsz : (s₁.proc c).sz = 0 := by
    rw [hc]
    exact (I.unused c B.free).2
  have hne : s₁.root (some c) ≠ 0 := by
    rw [root_some, hc]
    exact hpt
  have A := B.inv.space c hne
  rw [hsz] at A
  exact ⟨hsz, hne, A⟩

theorem Born.forked (I : Inv s own)
    (hp : (s.proc p).state ≠ .UNUSED) (B : Born s own c s₁ own1) (hS : SlotOnly c s₁ s')
    (hc : s'.proc c = (s₁.proc c).child (s₁.proc p) p (s₁.proc 0).shm)
    (C : Counted s'.mem s₁.root own') (G : Grows (some c) own1 own')
    (F : ForkKeeps s₁.root (some c) s₁.mem s'.mem)
    (hcopy : ∀ k : Slot, 0 ≤ k.va → k.va < PGROUNDUP (s₁.proc p).sz →
      view s'.mem s₁.root (some c) k = view s₁.mem s₁.root (some p) k)
    (hrest : ∀ k : Slot, k.va < 0 ∨ PGROUNDUP (s₁.proc p).sz ≤ k.va →
      view s'.mem s₁.root (some c) k = view s₁.mem s₁.root (some c) k) :
    Forked s own p c s' own' := by
  have M := B.inv
  have hcp := B.ne hp
  have hpp : s₁.proc p = s.proc p := B.only.proc p (Ne.symm hcp)
  obtain ⟨tf, al, pt, hpt, hborn⟩ := B.born
  obtain ⟨hcsz, hcne, Ac⟩ := B.space I
  have Ap := M.space p (by rw [hpp]; exact I.used p hp)
  have hbeyond : ∀ k : Slot, PGROUNDUP (s₁.proc p).sz ≤ k.va →
      view s'.mem s₁.root (some c) k = none := by
    intro k hk
    rw [hrest k (.inr hk)]
    exact Ac.view_beyond k (Nat.zero_le _)
  have A' : AddrSpace s'.mem s₁.root (some c) (s₁.proc c).trapframe (s'.proc c).sz := by
    rw [hc]
    exact Ac.of_fork F Ap.size fun k hk hlt => unmapped_of_view hlt (hbeyond k hk)
  have hunused : ∀ i, (s₁.proc c).vma i = VmArea.unused := by
    intro i
    rw [hborn]
    rfl
  have hvma : ∀ i, ((s'.proc c).vma i).Inside := by
    intro i
    rw [hc]
    simp only [child, hunused]
    split
    · exact M.vma p i
    · exact VmArea.inside_unused
  obtain ⟨M', hroot, hframe⟩ := M.of_fork hS C G F A' (by rw [hc]; exact ⟨rfl, rfl, rfl⟩) hvma
  have hroot1 : ∀ q ≠ some c, s₁.root q = s.root q := by
    intro q hq
    cases q with
    | none => rfl
    | some q => exact congrArg pagetable (B.only.proc q (by simpa using hq))
  have hview : ∀ q ≠ some c, view s₁.mem s₁.root q = view s.mem s.root q := by
    intro q hq
    funext k
    rw [← B.keeps.view id]
    simp only [view, target, hroot1 q hq]
  have hshm : (s₁.proc 0).shm = (s'.proc 0).shm := by
    by_cases h0 : (0 : ProcId) = c
    · rw [h0, hc, ← h0]
      rfl
    · rw [hS.proc 0 h0]
  refine ⟨I.of_memInv M' (B.only.trans hS).proc ?_, B.free, hcp, B.only.trans hS,
    ⟨s₁.proc c, ?_, hunused⟩, ?_, ?_, ?_, ?_, ?_, ?_⟩
  · rw [hc]
    exact hcne
  · rw [hc, hpp, hshm]
  · intro q hq k
    rw [hroot, F.target q hq k, ← B.keeps.target id]
    exact target_congr (by rw [hroot1 q hq])
  · intro q hq
    rw [hroot, F.view q hq, hview q hq]
  · rw [hroot, ← hview (some p) (by simpa using Ne.symm hcp)]
    funext k
    by_cases hk : k.va < PGROUNDUP (s₁.proc p).sz
    · exact hcopy k (Nat.zero_le _) hk
    · rw [hbeyond k (Nat.not_lt.mp hk), Ap.view_beyond k (Nat.not_lt.mp hk)]
  · rw [hframe]
    exact B.fresh
  · intro t
    rw [G.held, hframe]
    exact B.held t
  · intro q hq t path
    rw [G.other q hq, B.other q hq]

theorem fork_spec (I : Inv s own) (hp : (s.proc p).state ≠ .UNUSED) (h : fork p s = .ok (e, s')) :
    (e = -1 ∧ Unnoticed s s' ∧ ∃ own', Inv s' own') ∨
    (∃ c own', e = (s'.proc c).pid ∧ Forked s own p c s' own') := by
  obtain ⟨r, s₁, ha, h⟩ := bind_ok h
  rcases allocproc_spec I ha with ⟨rfl, hI1⟩ | ⟨c, own1, rfl, B⟩
  · cases h
    exact .inl ⟨rfl, hI1⟩
  have M := B.inv
  have hcp := B.ne hp
  have hpp : s₁.proc p = s.proc p := B.only.proc p (Ne.symm hcp)
  obtain ⟨hcsz, hcne, Ac⟩ := B.space I
  have hpne : s₁.root (some p) ≠ 0 := by
    rw [root_some, hpp]
    exact I.used p hp
  have Ap := M.space p hpne
  have h0 : PGROUNDUP 0 = 0 := by decide
  have hempty : Unmapped s₁.mem s₁.root (some c) 0 TRAPFRAME := by
    have := Ac.empty
    rwa [h0] at this
  obtain ⟨e', m2, hu, h⟩ := onMem_bind_ok h
  obtain ⟨own2, C2, G2, F2, hdone⟩ := uvmcopy_spec M.counted
    (by simpa using Ne.symm hcp) hpne hcne Ap.size hempty hu
  rcases hdone with ⟨rfl, hcopy, hrest⟩ | ⟨rfl, hun⟩
  · cases h
    have hc' := setProc_self { s₁ with mem := m2 } c fun np =>
      np.child (s₁.proc p) p (s₁.proc 0).shm
    refine .inr ⟨c, own2, ?_, B.forked I hp (SlotOnly.setProc _ _ _ _) hc' C2 G2 F2 hcopy hrest⟩
    rw [hc']
    rfl
  · obtain ⟨_, s2, hf, h⟩ := bind_ok h
    cases h
    have A2 := Ac.of_fork F2 (Nat.zero_le _) (by rw [h0]; exact hun)
    have hS2 : SlotOnly c s₁ { s₁ with mem := m2 } := ⟨fun _ _ => rfl, rfl, rfl, rfl⟩
    obtain ⟨M2, _⟩ := M.of_fork hS2 C2 G2 F2 (by rw [hcsz]; exact A2) ⟨rfl, rfl, rfl⟩ (M.vma c)
    obtain ⟨m3, own3, rfl, M3, _, K3⟩ := freeproc_spec M2 hf
    have hS3 := SlotOnly.setProc { s₁ with mem := m2 } c cleared m3
    have hu : (s₁.proc c).state = .UNUSED := by
      obtain ⟨_, _, _, _, hc⟩ := B.born
      rw [hc]
      exact B.free
    have hborn := B.only.unnoticed B.free (B.keeps.mono fun _ h => h.elim)
    have hcopy : Unnoticed s₁ { s₁ with mem := m2 } :=
      fun q hq => ⟨rfl, F2.view _ (by rintro ⟨⟩; exact hq hu)⟩
    refine .inl ⟨rfl, (hborn.trans hcopy).trans (hS3.unnoticed hu K3), own3,
      I.of_memInv M3 (B.only.trans (hS2.trans hS3)).proc ?_⟩
    rw [setProc_self]
    exact (if_pos rfl).mpr ⟨rfl, rfl⟩

/-! ### `exit` and `wait` -/

/-- At most, entries of `q` have been removed. -/
def Shrinks (root : TableId → Nat) (q : TableId) (m m' : Phys) : Prop :=
  ∀ k : Slot, m'.leaf (root q) k = m.leaf (root q) k ∨ has (m'.leaf (root q) k) PTE_V = false

omit [Layout] in
theorem Shrinks.of_unmap {a b : Nat} (K : Keeps root (Pages q a b) m m')
    (U : Unmapped m' root q a b) : Shrinks root q m m' := by
  intro k
  by_cases hk : Pages q a b (q, k)
  · exact .inr (U k hk.2.1 hk.2.2)
  · exact .inl (K (q, k) hk).1

omit [Layout] in
theorem Shrinks.trans (h1 : Shrinks root q m m1) (h2 : Shrinks root q m1 m') :
    Shrinks root q m m' := by
  intro k
  rcases h2 k with he | hv
  · rw [he]
    exact h1 k
  · exact .inr hv

theorem exitVma_spec (I : Inv s own) (hp : (s.proc p).pagetable ≠ 0) {i : Fin NVMA}
    (h : exitVma p i s = .ok ((), s')) :
    Local p s own s' own ∧ Shrinks s.root (some p) s.mem s'.mem := by
  rw [exitVma, get_bind_apply] at h
  by_cases hused : ((s.proc p).vma i).used
  · rw [if_pos hused] at h
    obtain ⟨_, s₁, hw, h⟩ := bind_ok h
    have hfiles := writeBack_files.1 _ _ _ hw
    obtain ⟨_, m', hu, h⟩ := onMem_bind_ok h
    obtain ⟨h0, hl, hend⟩ := I.vma p i hused
    have hlim : ((s.proc p).vma i).addr + pages ((s.proc p).vma i).len * PGSIZE ≤ TRAPFRAME :=
      Nat.le_trans (Nat.add_le_add_left (pages_le h0 hl) _) hend
    rw [hfiles.mem] at hu
    obtain ⟨C, K, U⟩ := uvmunmap_spec (p := some p) I.counted hp hlim hu
    have hs1 : FilesOnly { s with mem := m' } { s₁ with mem := m' } := by
      rw [hfiles]
      rfl
    cases h
    exact ⟨(I.unmap hlim C (.refl _ _) K U).withVma hs1 (by rintro ⟨⟩), .of_unmap K U⟩
  · rw [if_neg hused] at h
    cases h
    exact ⟨.refl I p, fun _ => .inl rfl⟩

theorem exitVmas_spec {l : List (Fin NVMA)} (I : Inv s own) (hp : (s.proc p).pagetable ≠ 0)
    (h : Kern.forEach l (exitVma p) s = .ok ((), s')) :
    Local p s own s' own ∧ Shrinks s.root (some p) s.mem s'.mem := by
  induction l generalizing s with
  | nil =>
    cases h
    exact ⟨.refl I p, fun _ => .inl rfl⟩
  | cons i l ih =>
    obtain ⟨_, s₁, h1, h2⟩ := bind_ok h
    obtain ⟨L, S⟩ := exitVma_spec I hp h1
    obtain ⟨L', S'⟩ := ih L.inv (by rw [L.tables.pagetable]; exact hp) h2
    rw [L.same_root] at S'
    exact ⟨L.trans L', S.trans S'⟩

omit [Layout] in
theorem Sys.exited_ne (s : Sys) {p q : ProcId} (status : Int) (hq : q ≠ p) :
    (s.exited p status).proc q = (s.proc q).adopted ((s.exited p status).proc q).parent := by
  simp only [exited, if_neg hq]
  split <;> rfl

omit [Layout] in
theorem Sys.exited_self (s : Sys) (p : ProcId) (status : Int) :
    ∃ parent, (s.exited p status).proc p =
      { (s.proc p).adopted parent with xstate := status, state := .ZOMBIE } := by
  simp only [exited, if_true]
  split
  · exact ⟨some s.initproc, rfl⟩
  · exact ⟨(s.proc p).parent, rfl⟩

theorem Local.exited (I : Inv s own) (hp : (s.proc p).state ≠ .UNUSED) (status : Int) :
    Local p s own (s.exited p status) own := by
  obtain ⟨parent, hself⟩ := s.exited_self p status
  have ht : SameTables (s.proc p) ((s.exited p status).proc p) := by
    rw [hself]
    exact ⟨by simp [hp], rfl, rfl, rfl⟩
  have hall := Local.tables_all (fun q hq => s.exited_ne status hq) ht
  have hsame : ∀ q, ((s.exited p status).proc q).sz = (s.proc q).sz ∧
      ((s.exited p status).proc q).vma = (s.proc q).vma := by
    intro q
    by_cases he : q = p
    · rw [he, hself]
      exact ⟨rfl, rfl⟩
    · rw [s.exited_ne status he]
      exact ⟨rfl, rfl⟩
  refine ⟨?_, .refl _ _, .refl _ _ _, fun q hq => s.exited_ne status hq, ht⟩
  refine I.of_mem I.counted (fun _ h => h) hall ?_ ?_ ?_
  · intro q hq
    rw [(hsame q).1]
    exact I.space q hq
  · intro q hq
    rw [(hsame q).1]
    exact (I.unused q hq).2
  · intro q i
    rw [(hsame q).2]
    exact I.vma q i

theorem exit_spec (I : Inv s own) (hp : (s.proc p).state ≠ .UNUSED) {status : Int}
    (h : exit p status s = .ok ((), s')) :
    Local p s own s' own ∧ (s'.proc p).state = .ZOMBIE ∧ Shrinks s.root (some p) s.mem s'.mem := by
  rw [exit, get_bind_apply] at h
  split at h
  case isTrue => cases h
  case isFalse =>
    obtain ⟨_, s₁, h1, h⟩ := bind_ok h
    obtain ⟨L, S⟩ := exitVmas_spec I (I.used p hp) h1
    cases h
    have hp1 : (s₁.proc p).state ≠ .UNUSED := fun hu => hp (L.tables.state.mp hu)
    obtain ⟨_, hself⟩ := s₁.exited_self p status
    exact ⟨L.trans (Local.exited L.inv hp1 status), congrArg state hself, S⟩

/-- The machine after `wait` has freed the child `c` of `p`. -/
structure Waited (s : Sys) (own : Nat → Owner) (p c : ProcId) (s' : Sys) (own' : Nat → Owner) :
    Prop where
  zombie : (s.proc c).state = .ZOMBIE ∧ (s.proc c).parent = some p
  inv : Inv s' own'
  copied : ∃ s₁, s₁.proc = s.proc ∧ Refreshed s.root (some p) s.mem s₁.mem ∧ Inv s₁ own ∧
    Reaped s₁ c own own' ∧ Keeps s₁.root (fun x => x.1 = some c) s₁.mem s'.mem ∧
    ∃ m', s' = { s₁ with mem := m' }.setProc c Proc.cleared

theorem copyStatus_spec {xstate : Int} (I : Inv s own) (hp : (s.proc p).pagetable ≠ 0)
    (h : copyStatus (s.proc p).pagetable addr xstate s = .ok (e, s')) :
    s'.proc = s.proc ∧ Inv s' own ∧ Refreshed s.root (some p) s.mem s'.mem ∧
      (addr = 0 → s' = s) ∧ OnlyAt s.root (some p) addr 4 s.mem s'.mem := by
  rw [copyStatus] at h
  split at h
  case isTrue =>
    cases h
    exact ⟨rfl, I, .refl _ _ _, fun _ => rfl, .refl _ _ _ _ _⟩
  case isFalse h0 =>
    obtain ⟨hproc, I', R, T, _⟩ := copyout_inv I hp h
    exact ⟨hproc, I', R, fun h => absurd h h0, T⟩

/-- How `wait` ends: with nothing done but perhaps a failed copy, or with a child freed. -/
theorem wait_cases {r : Option Int} (h : wait p addr s = .ok (r, s')) :
    (s' = s ∧ (r = none ∨ r = some (-1))) ∨ ∃ c e s₁,
      ((s.proc c).state = .ZOMBIE ∧ (s.proc c).parent = some p) ∧
      copyStatus (s.proc p).pagetable addr (s.proc c).xstate s = .ok (e, s₁) ∧
      ((e < 0 ∧ r = some (-1) ∧ s' = s₁) ∨
        (r = some (s.proc c).pid ∧ freeproc c s₁ = .ok ((), s'))) := by
  rw [wait, get_bind_apply] at h
  cases hf : (List.finRange NPROC).find? fun q =>
      (s.proc q).parent = some p ∧ (s.proc q).state = .ZOMBIE with
  | none =>
    simp only [hf] at h
    split at h
    · cases h
      exact .inl ⟨rfl, .inr rfl⟩
    · cases h
      exact .inl ⟨rfl, .inl rfl⟩
  | some c =>
    simp only [hf] at h
    have hc : (s.proc c).parent = some p ∧ (s.proc c).state = .ZOMBIE := by
      simpa using List.find?_some hf
    obtain ⟨e, s₁, h1, h⟩ := bind_ok h
    refine .inr ⟨c, e, s₁, hc.symm, h1, ?_⟩
    split at h
    case isTrue he =>
      cases h
      exact .inl ⟨he, rfl, rfl⟩
    case isFalse =>
      obtain ⟨_, s2, hfr, h⟩ := bind_ok h
      cases h
      exact .inr ⟨rfl, hfr⟩

theorem wait_spec {r : Option Int} (I : Inv s own) (hp : (s.proc p).state ≠ .UNUSED)
    (h : wait p addr s = .ok (r, s')) :
    (Inv s' own ∧ s'.proc = s.proc ∧ (r = none ∨ r = some (-1))) ∨
    ∃ c own', r = some (s.proc c).pid ∧ Waited s own p c s' own' := by
  rcases wait_cases h with ⟨rfl, hr⟩ | ⟨c, e, s₁, hc, h1, hcase⟩
  · exact .inl ⟨I, rfl, hr⟩
  obtain ⟨hproc, I1, R, _⟩ := copyStatus_spec I (I.used p hp) h1
  rcases hcase with ⟨_, hr, rfl⟩ | ⟨hr, hfr⟩
  · exact .inl ⟨I1, hproc, .inr hr⟩
  · obtain ⟨m', own', rfl, M', hR, K⟩ := freeproc_spec I1.toMemInv hfr
    have I' := I1.of_memInv M' (fun q hq => setProc_ne _ _ hq)
      (by rw [setProc_self]; exact (if_pos rfl).mpr ⟨rfl, rfl⟩)
    exact .inr ⟨c, own', hr, hc, I', s₁, hproc, R, I1, hR, K, m', rfl⟩

/-! ### The process table alone -/

/-- What the process table of `Ipc.Procs` has of a process. -/
def Proc.entry (pr : Proc) : Ipc.Entry Unit := ⟨pr.state, pr.pid, pr.parent, ()⟩

def Sys.procs (s : Sys) : Ipc.Procs Unit := ⟨Proc.entry ∘ s.proc, s.nextpid⟩

section
omit [Layout]

theorem setProc_procs (s : Sys) (p : ProcId) (f : Proc → Proc) :
    (s.setProc p f).procs = s.procs.set p (f (s.proc p)).entry := by
  simp [Sys.procs, Sys.setProc, Ipc.Procs.set, comp_update]

theorem updProc_procs {f : Proc → Proc} (h : ∀ pr, (f pr).entry = pr.entry) :
    Moves (Order.Preimage Sys.procs Eq) (updProc p f) := by
  refine .modify fun s => ?_
  rw [Order.Preimage, setProc_procs, h]
  exact congrArg (Ipc.Procs.mk · _) (update_eq_self ..).symm

theorem onMem_procs {α : Type} (x : Kern Phys α) :
    Moves (Order.Preimage Sys.procs Eq) (onMem x) := by
  intro s a s' h
  obtain ⟨m', _, rfl⟩ := onMem_ok h
  rfl

theorem kallocFrame_procs (b : Bool) : Moves (Order.Preimage Sys.procs Eq) (kallocFrame p b) :=
  .bind (onMem_procs _) fun _ => .bind (updProc_procs fun _ => by cases b <;> rfl) fun _ => .pure _

/-- The end of `exit` is that of `Ipc.Procs`, where `initproc` has the first slot. -/
theorem exited_procs (h : s.initproc = 0) (status : Int) :
    (s.exited p status).procs = s.procs.exit p := by
  simp only [Sys.procs, Sys.exited, Ipc.Procs.exit, h]
  congr 1
  funext q
  by_cases hp : (s.proc q).parent = some p
  all_goals
    simp only [comp_apply, Proc.entry, hp, if_true, if_false]
    split <;> rfl

end

variable {slot : Option ProcId}

theorem freeproc_procs (h : freeproc p s = .ok ((), s')) : s'.procs = s.procs.freeproc p := by
  rw [freeproc, get_bind_apply] at h
  obtain ⟨_, s₁, h1, h⟩ := bind_ok h
  obtain ⟨_, s₂, h2, h⟩ := bind_ok h
  obtain ⟨_, s₃, h3, h⟩ := bind_ok h
  have hkeep := fun c [Decidable c] x => Moves.when (c := c) (onMem_procs x)
  cases h
  rw [setProc_procs, ← hkeep _ _ _ _ _ h3, ← hkeep _ _ _ _ _ h2, ← hkeep _ _ _ _ _ h1]
  rfl

theorem allocTable_procs (h : allocTable p s = .ok (slot, s')) :
    ∃ pagetable : Bool, (if pagetable then (some p, s.procs) else (none, s.procs.freeproc p)) =
      (slot, s'.procs) := by
  rw [allocTable, get_bind_apply] at h
  obtain ⟨pt, s₁, h1, h⟩ := bind_ok h
  obtain ⟨_, s₂, h2, h⟩ := bind_ok h
  rw [onMem_procs _ _ _ _ h1, updProc_procs (by intro _; rfl) _ _ _ h2]
  split at h <;> obtain ⟨_, s₃, h3, h⟩ := bind_ok h <;> cases h
  · exact ⟨false, by rw [freeproc_procs h3]; rfl⟩
  · exact ⟨true, by rw [updProc_procs (by intro _; rfl) _ _ _ h3]; rfl⟩

theorem allocSlot_procs (h : allocSlot p s = .ok (slot, s')) : ∃ trapframes pagetable : Bool,
    (if trapframes then
        if pagetable then (some p, (s.claim p).procs) else (none, (s.claim p).procs.freeproc p)
      else (none, (s.claim p).procs)) = (slot, s'.procs) := by
  obtain ⟨_, s₁, h1, h⟩ := bind_ok h
  cases h1
  obtain ⟨_, s₂, h2, h⟩ := bind_ok h
  rw [kallocFrame_procs _ _ _ _ h2]
  split at h
  · cases h
    exact ⟨false, false, rfl⟩
  obtain ⟨_, s₃, h3, h⟩ := bind_ok h
  rw [kallocFrame_procs _ _ _ _ h3]
  split at h
  · cases h
    exact ⟨false, false, rfl⟩
  · exact ⟨true, allocTable_procs h⟩

/-- On the process table `allocproc` is that of `Ipc.Procs`. -/
theorem allocproc_procs (h : allocproc s = .ok (slot, s')) :
    ∃ trapframes pagetable, s.procs.allocproc () trapframes pagetable = (slot, s'.procs) := by
  rw [allocproc, get_bind_apply] at h
  have hun : s.procs.unused =
    (List.finRange NPROC).find? fun p => (s.proc p).state = .UNUSED := rfl
  rw [← hun] at h
  unfold Ipc.Procs.allocproc
  cases hf : s.procs.unused with
  | none =>
    rw [hf] at h
    cases h
    exact ⟨true, true, rfl⟩
  | some p =>
    rw [hf] at h
    obtain ⟨tf, pt, hr⟩ := allocSlot_procs h
    have hclaim : (s.claim p).procs = { (s.setProc p (Proc.claimed s.nextpid)).procs with
        nextpid := int (s.nextpid + 1) } := rfl
    rw [hclaim, setProc_procs] at hr
    exact ⟨tf, pt, hr⟩

end Yyds.Kernel
