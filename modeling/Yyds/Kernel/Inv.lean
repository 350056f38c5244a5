import Yyds.Kernel.Life
import Yyds.Mm.Teardown

/-! The invariant of the whole machine: the page tables of all processes are in order, and
each has the trampoline and the trapframe at its top and nothing between `p->sz` and them. -/
namespace Yyds.Kernel

open Lib Mm

section
variable [Layout]

def trampolinePte : Word := PA2PTE Layout.trampoline ||| (PTE_R ||| PTE_X) ||| PTE_V

end

def trapframePte (trapframe : Nat) : Word := PA2PTE trapframe ||| (PTE_R ||| PTE_W) ||| PTE_V

/-- The two pages that the kernel keeps for itself, of a process and for its alarm handler. -/
def Sys.frame (s : Sys) : ProcId × Bool → Nat
  | (p, false) => (s.proc p).trapframe
  | (p, true) => (s.proc p).alarm_trapframe

theorem Sys.root_some (s : Sys) (p : ProcId) : s.root (some p) = (s.proc p).pagetable := rfl

variable {m m' m1 : Phys} {root : TableId → Nat} {q : TableId} {k : Slot}

/-- The address space of `q` has no new entries, and the kernel's entries are as they were. -/
structure Rests (root : TableId → Nat) (q : TableId) (m m' : Phys) : Prop where
  sys : ∀ k : Slot, TRAPFRAME ≤ k.va → m'.leaf (root q) k = m.leaf (root q) k
  user : ∀ k : Slot, k.va < TRAPFRAME → has (m.leaf (root q) k) PTE_V = false →
    has (m'.leaf (root q) k) PTE_V = false

namespace Rests

theorem refl (root : TableId → Nat) (q : TableId) (m : Phys) : Rests root q m m :=
  ⟨fun _ _ => rfl, fun _ _ h => h⟩

theorem trans (h1 : Rests root q m m1) (h2 : Rests root q m1 m') : Rests root q m m' :=
  ⟨fun k hk => (h2.sys k hk).trans (h1.sys k hk), fun k hk hv => h2.user k hk (h1.user k hk hv)⟩

theorem transfer {root' : TableId → Nat} (h : Rests root q m m') (hr : root' q = root q) :
    Rests root' q m m' :=
  ⟨fun k hk => by rw [hr]; exact h.sys k hk, fun k hk => by rw [hr]; exact h.user k hk⟩

theorem of_same (h : ∀ k, m'.leaf (root q) k = m.leaf (root q) k) : Rests root q m m' :=
  ⟨fun k _ => h k, fun k _ hv => by rwa [h k]⟩

theorem of_keeps {K : TableId × Slot → Prop} (h : Keeps root K m m')
    (hK : ∀ k, ¬ K (q, k) := by exact fun _ => id) : Rests root q m m' :=
  of_same fun k => (h (q, k) (hK k)).1

theorem of_refreshed {p : TableId} (h : Refreshed root p m m') : Rests root q m m' := by
  refine ⟨fun k hk => ?_, fun k _ hv => ?_⟩
  · rcases h (q, k) with h | ⟨_, hlt, _⟩
    · exact h
    · exact absurd hlt (Nat.not_lt.mpr hk)
  · rcases h (q, k) with h | ⟨_, _, _, hpr⟩
    · rwa [h]
    · rwa [hpr.has_V]

theorem of_forkKeeps {c : TableId} (h : ForkKeeps root c m m') (hq : q ≠ c) :
    Rests root q m m' := by
  refine ⟨fun k hk => h.sys q k hk, fun k hk hv => ?_⟩
  have ht := h.target q hq k
  rw [target_none hv] at ht
  by_contra hne
  rw [target, if_pos ⟨hk, by simpa using hne⟩] at ht
  cases ht

end Rests

variable [Layout]

/-- The address space of `q` when its process has this trapframe and this size. -/
structure AddrSpace (m : Phys) (root : TableId → Nat) (q : TableId) (trapframe sz : Nat) : Prop where
  trampoline : m.leaf (root q) (slot TRAMPOLINE) = trampolinePte
  trapframe : m.leaf (root q) (slot TRAPFRAME) = trapframePte trapframe
  size : sz ≤ TRAPFRAME
  empty : Unmapped m root q (PGROUNDUP sz) TRAPFRAME
  beyond : ∀ k : Slot, MAXVA ≤ k.va → m.leaf (root q) k = 0

section
omit [Layout]

theorem slot_TRAPFRAME_va : (slot TRAPFRAME).va = TRAPFRAME :=
  slot_va_of_aligned TRAPFRAME_lt_MAXVA TRAPFRAME_aligned

theorem slot_TRAMPOLINE_va : (slot TRAMPOLINE).va = TRAMPOLINE :=
  slot_va_of_aligned (by decide) (by decide)

/-- The kernel's entries that a user address can have. -/
theorem slot_of_high {va : Nat} (h : TRAPFRAME ≤ va) (hva : va < MAXVA) :
    slot va = slot TRAPFRAME ∨ slot va = slot TRAMPOLINE := by
  have he : PGROUNDDOWN va = TRAPFRAME ∨ PGROUNDDOWN va = TRAMPOLINE := by
    rw [TRAPFRAME_eq] at h
    rw [MAXVA_eq] at hva
    simp only [PGROUNDDOWN, PGSIZE, TRAPFRAME_eq, TRAMPOLINE_eq]
    omega
  rw [← slot_PGROUNDDOWN hva]
  exact he.imp (congrArg slot) (congrArg slot)

end

namespace AddrSpace

variable {tf sz : Nat}

section
variable (A : AddrSpace m root q tf sz)
include A

theorem of_rests (h : Rests root q m m') :
    AddrSpace m' root q tf sz where
  trampoline := by
    rw [h.sys _ (by rw [slot_TRAMPOLINE_va]; decide), A.trampoline]
  trapframe := by
    rw [h.sys _ (Nat.le_of_eq slot_TRAPFRAME_va.symm), A.trapframe]
  size := A.size
  empty := fun k hk hlt => h.user k hlt (A.empty k hk hlt)
  beyond := fun k hk => by
    rw [h.sys k (Nat.le_trans (Nat.le_of_lt TRAPFRAME_lt_MAXVA) hk), A.beyond k hk]

theorem valid_high {va : Nat} (h : TRAPFRAME ≤ va) (hva : va < MAXVA) :
    has (m.leaf (root q) (slot va)) PTE_V := by
  rcases slot_of_high h hva with he | he
  · rw [he, A.trapframe]
    exact has_mk_V _
  · rw [he, A.trampoline]
    exact has_mk_V _

theorem valid_trapframe : has (m.leaf (root q) (slot TRAPFRAME)) PTE_V :=
  A.valid_high (Nat.le_refl _) TRAPFRAME_lt_MAXVA

theorem reserved : Reserved m root q := by
  intro k hk
  by_cases hlt : k.va < MAXVA
  · rw [← slot_of_va k]
    rcases slot_of_high hk hlt with he | he
    · rw [he, A.trapframe, has_U, has_F, trapframePte, BitVec.or_assoc,
        getLsbD_PA2PTE_or _ _ (by decide), getLsbD_PA2PTE_or _ _ (by decide)]
      decide
    · rw [he, A.trampoline, has_U, has_F, trampolinePte, BitVec.or_assoc,
        getLsbD_PA2PTE_or _ _ (by decide), getLsbD_PA2PTE_or _ _ (by decide)]
      decide
  · rw [A.beyond k (Nat.not_lt.mp hlt)]
    decide

end

end AddrSpace

/-- A mapped file lies below the pages that the kernel keeps for itself. -/
def VmArea.Inside (a : VmArea) : Prop :=
  a.used = true → 0 ≤ a.len ∧ a.len < 2 ^ 31 ∧ a.addr + a.len.toNat ≤ TRAPFRAME

/-- The memory of all processes is in order. -/
structure MemInv (s : Sys) (own : Nat → Owner) : Prop where
  counted : Counted s.mem s.root own
  space : ∀ p, (s.proc p).pagetable ≠ 0 →
    AddrSpace s.mem s.root (some p) (s.proc p).trapframe (s.proc p).sz
  frame : ∀ x, s.frame x ≠ 0 → own (s.frame x) = .held
  frame_inj : ∀ x y, s.frame x = s.frame y → s.frame x ≠ 0 → x = y
  vma : ∀ p i, ((s.proc p).vma i).Inside

/-- The machine is in order between two system calls: the processes are those that have a
page table. -/
structure Inv (s : Sys) (own : Nat → Owner) : Prop extends MemInv s own where
  unused : ∀ p, (s.proc p).state = .UNUSED → (s.proc p).pagetable = 0 ∧ (s.proc p).sz = 0
  used : ∀ p, (s.proc p).state ≠ .UNUSED → (s.proc p).pagetable ≠ 0

/-- What the invariant says about a process does not change with these fields. -/
structure SameTables (pr pr' : Proc) : Prop where
  state : pr'.state = .UNUSED ↔ pr.state = .UNUSED
  pagetable : pr'.pagetable = pr.pagetable
  trapframe : pr'.trapframe = pr.trapframe
  alarm : pr'.alarm_trapframe = pr.alarm_trapframe

section
omit [Layout]

theorem SameTables.refl (pr : Proc) : SameTables pr pr := ⟨.rfl, rfl, rfl, rfl⟩

theorem root_congr {s s' : Sys} (h : ∀ q, (s'.proc q).pagetable = (s.proc q).pagetable) :
    s'.root = s.root := by
  funext q
  cases q with
  | none => rfl
  | some q => exact h q

theorem frame_congr_of_frames {s s' : Sys} (h : ∀ q, (s'.proc q).trapframe = (s.proc q).trapframe ∧
    (s'.proc q).alarm_trapframe = (s.proc q).alarm_trapframe) : s'.frame = s.frame := by
  funext x
  obtain ⟨q, b⟩ := x
  cases b with
  | false => exact (h q).1
  | true => exact (h q).2

theorem frame_congr {s s' : Sys} (h : ∀ q, SameTables (s.proc q) (s'.proc q)) :
    s'.frame = s.frame :=
  frame_congr_of_frames fun q => ⟨(h q).trapframe, (h q).alarm⟩

end

/-- The process gets another parent. -/
def Proc.adopted (pr : Proc) (parent : Option ProcId) : Proc := { pr with parent := parent }

omit [Layout] in
theorem Proc.adopted_of_eq {pr pr' : Proc} (h : pr' = pr) : pr' = pr.adopted pr'.parent := by
  rw [h]
  rfl

variable {s s' s₁ : Sys} {own own' own1 : Nat → Owner} {p : ProcId}

/-- What the process `p` does to memory on its own account. -/
structure Local (p : ProcId) (s : Sys) (own : Nat → Owner) (s' : Sys) (own' : Nat → Owner) :
    Prop where
  inv : Inv s' own'
  grows : Grows (some p) own own'
  keeps : Keeps s.root (fun x => x.1 = some p) s.mem s'.mem
  proc : ∀ q ≠ p, s'.proc q = (s.proc q).adopted (s'.proc q).parent
  tables : SameTables (s.proc p) (s'.proc p)

namespace Local

omit [Layout] in
theorem tables_all (hproc : ∀ q ≠ p, s'.proc q = (s.proc q).adopted (s'.proc q).parent)
    (hp : SameTables (s.proc p) (s'.proc p)) (q : ProcId) : SameTables (s.proc q) (s'.proc q) := by
  by_cases hq : q = p
  · rwa [hq]
  · rw [hproc q hq]
    exact ⟨.rfl, rfl, rfl, rfl⟩

theorem same_root (h : Local p s own s' own') : s'.root = s.root :=
  root_congr fun q => (tables_all h.proc h.tables q).pagetable

theorem refl (I : Inv s own) (p : ProcId) : Local p s own s own :=
  ⟨I, .refl _ _, .refl _ _ _, fun _ _ => rfl, .refl _⟩

theorem trans (h1 : Local p s own s₁ own1) (h2 : Local p s₁ own1 s' own') :
    Local p s own s' own' := by
  refine ⟨h2.inv, h1.grows.trans h2.grows, h1.keeps.trans ?_, ?_, ?_⟩
  · rw [← h1.same_root]
    exact h2.keeps
  · intro q hq
    rw [h2.proc q hq, h1.proc q hq]
    rfl
  · exact ⟨h2.tables.state.trans h1.tables.state, h2.tables.pagetable.trans h1.tables.pagetable,
      h2.tables.trapframe.trans h1.tables.trapframe, h2.tables.alarm.trans h1.tables.alarm⟩

end Local

namespace Inv

section
variable (I : Inv s own)
include I

/-- An operation on memory that leaves the page tables to their owners. -/
theorem of_mem (C : Counted s'.mem s.root own')
    (hheld : ∀ t, own t = .held → own' t = .held)
    (hproc : ∀ q, SameTables (s.proc q) (s'.proc q))
    (hspace : ∀ q, (s.proc q).pagetable ≠ 0 →
      AddrSpace s'.mem s.root (some q) (s.proc q).trapframe (s'.proc q).sz)
    (hsz : ∀ q, (s.proc q).state = .UNUSED → (s'.proc q).sz = 0)
    (hvma : ∀ q i, ((s'.proc q).vma i).Inside) : Inv s' own' := by
  have hroot : s'.root = s.root := root_congr fun q => (hproc q).pagetable
  have hframe : s'.frame = s.frame := frame_congr hproc
  refine ⟨⟨by rwa [hroot], ?_, ?_, ?_, hvma⟩, ?_, ?_⟩
  · intro q hq
    rw [(hproc q).pagetable] at hq
    rw [hroot, (hproc q).trapframe]
    exact hspace q hq
  · rw [hframe]
    exact fun x hx => hheld _ (I.frame x hx)
  · rw [hframe]
    exact I.frame_inj
  · intro q hq
    have hu := (hproc q).state.mp hq
    rw [(hproc q).pagetable]
    exact ⟨(I.unused q hu).1, hsz q hu⟩
  · intro q hq
    rw [(hproc q).pagetable]
    exact I.used q fun h => hq ((hproc q).state.mpr h)

/-- An operation of the process `p`, which changes only its own address space and record. -/
theorem of_local (C : Counted s'.mem s.root own') (G : Grows (some p) own own')
    (K : Keeps s.root (fun x => x.1 = some p) s.mem s'.mem)
    (hproc : ∀ q ≠ p, s'.proc q = s.proc q) (hp : SameTables (s.proc p) (s'.proc p))
    (hspace : (s.proc p).pagetable ≠ 0 →
      AddrSpace s'.mem s.root (some p) (s.proc p).trapframe (s'.proc p).sz)
    (hsz : (s.proc p).state = .UNUSED → (s'.proc p).sz = 0)
    (hvma : ∀ i, ((s'.proc p).vma i).Inside) : Local p s own s' own' := by
  have hadopted := fun q hq => Proc.adopted_of_eq (hproc q hq)
  refine ⟨I.of_mem C G.hold (Local.tables_all hadopted hp) ?_ ?_ ?_, G, K, hadopted, hp⟩
  · intro q hq
    by_cases he : q = p
    · subst he
      exact hspace hq
    · rw [hproc q he]
      exact (I.space q hq).of_rests (.of_keeps K fun k hk => he (Option.some.inj hk))
  · intro q hq
    by_cases he : q = p
    · subst he
      exact hsz hq
    · rw [hproc q he]
      exact (I.unused q hq).2
  · intro q i
    by_cases he : q = p
    · subst he
      exact hvma i
    · rw [hproc q he]
      exact I.vma q i

/-- Memory has changed for `p` without a new entry, and nothing else. -/
theorem of_rests (C : Counted m' s.root own') (hheld : ∀ t, own t = .held → own' t = .held)
    (hrest : ∀ q, Rests s.root (some q) s.mem m') : Inv { s with mem := m' } own' :=
  I.of_mem C hheld (fun _ => .refl _) (fun q hq => (I.space q hq).of_rests (hrest q))
    (fun q hq => (I.unused q hq).2) I.vma

/-- The files play no part. -/
theorem congr (hm : s'.mem = s.mem) (hp : s'.proc = s.proc) : Inv s' own := by
  refine I.of_mem (by rw [hm]; exact I.counted) (fun _ h => h) ?_ ?_ ?_ ?_
  · exact fun q => by rw [hp]; exact .refl _
  · exact fun q hq => by rw [hm, hp]; exact I.space q hq
  · exact fun q hq => by rw [hp]; exact (I.unused q hq).2
  · exact fun q i => by rw [hp]; exact I.vma q i

/-- The record of `p` has changed in fields that say nothing about memory. -/
theorem of_proc {f : Proc → Proc} (hp : SameTables (s.proc p) (f (s.proc p)))
    (hsz : (f (s.proc p)).sz = (s.proc p).sz) (hvma : ∀ i, ((f (s.proc p)).vma i).Inside) :
    Local p s own (s.setProc p f) own := by
  have hself : (s.setProc p f).proc p = f (s.proc p) := Function.update_self _ _ _
  refine I.of_local I.counted (.refl (some p) own) (.refl _ _ _) ?_ ?_ ?_ ?_ ?_
  · exact fun q hq => Function.update_of_ne hq _ _
  · rw [hself]
    exact hp
  · intro h
    rw [hself, hsz]
    exact I.space p h
  · intro h
    rw [hself, hsz]
    exact (I.unused p h).2
  · rw [hself]
    exact hvma

end

end Inv

end Yyds.Kernel
