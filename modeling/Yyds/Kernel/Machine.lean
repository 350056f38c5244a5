import Yyds.Kernel.ExecSpec
import Yyds.Mm.KallocHistory

/-! The machine as its processes drive it: user code, traps and system calls in any order, from
the state that `main` sets up. -/
namespace Yyds.Kernel

open Lib Kern Mm Function Sys

/-! ### User code -/

/-- Whether the hardware lets user code load from the page of this entry, or store to it. An
entry for writing but not for reading is reserved. -/
def mayAccess (store : Bool) (w : Word) : Bool :=
  has w PTE_V && has w PTE_U && has w PTE_R && (!store || has w PTE_W)

/-- The hardware finds the page of `va` and the access is allowed. -/
def allowed (m : Phys) (pagetable va : Nat) (store : Bool) : Bool :=
  decide (va < MAXVA) && mayAccess store (m.leaf pagetable (slot va))

/-- A byte reaches the page of `va`. -/
def poke (m : Phys) (pagetable va : Nat) (b : Byte) : Phys :=
  m.setPage (PTE2PA (m.leaf pagetable (slot va)))
    (setByte (m.page (PTE2PA (m.leaf pagetable (slot va)))) (va % PGSIZE) b)

section
variable [Layout]

/-- A load, or a store of the byte `b`: the hardware does it, or it traps. -/
def access (p : ProcId) (va : Nat) (b : Option Byte) : Kern Sys Unit := do
  let s ← Kern.get
  if allowed s.mem (s.proc p).pagetable va b.isSome then
    match b with
    | none => pure ()
    | some b => onMem (Kern.modify fun m => poke m (s.proc p).pagetable va b)
  else usertrap p (if b.isSome then 15 else 13) va

/-- A caller of `uvmalloc` takes its result for `p->sz`, unless it is 0. -/
def growTo (p : ProcId) (newsz : Nat) : Kern Sys Unit := do
  let s ← Kern.get
  let sz ← onMem (uvmalloc (s.proc p).pagetable (s.proc p).sz newsz)
  Kern.when (sz ≠ 0) (updProc p fun pr => { pr with sz := sz })

/-- A caller of `uvmdealloc` takes its result for `p->sz`. -/
def shrinkTo (p : ProcId) (newsz : Nat) : Kern Sys Unit := do
  let s ← Kern.get
  let sz ← onMem (uvmdealloc (s.proc p).pagetable (s.proc p).sz newsz)
  updProc p fun pr => { pr with sz := sz }

end

/-- What a process does next. A system call on a user buffer is `argaddr` and then `copyout`. -/
inductive Action
  | moveSp (sp : Word)
  | load (va : Word)
  | store (va : Word) (b : Byte)
  | argaddr (va : Word)
  | copyout (va : Word) (src : List Byte)
  | grow (newsz : Word)
  | shrink (newsz : Word)
  | sbrk (n : BitVec 32)
  | mmap (addr : Word) (length prot flags : BitVec 32) (vfile : Nat) (offset : BitVec 32)
  | munmap (addr : Word) (length : BitVec 32)
  | fork
  | exec (gs : List Segment) (argv : List (List Byte))
  | exit (status : BitVec 32)
  | wait (addr : Word)

section
variable [Layout]

def Action.run (p : ProcId) : Action → Kern Sys Unit
  | moveSp sp => updProc p fun pr => { pr with sp := sp.toNat }
  | load va => access p va.toNat none
  | store va b => access p va.toNat (some b)
  | argaddr va => do
    let _ ← Kernel.argaddr p va.toNat
    pure ()
  | copyout va src => do
    let s ← Kern.get
    let _ ← onMem (Mm.copyout (s.proc p).pagetable va.toNat src)
    pure ()
  | grow newsz => growTo p newsz.toNat
  | shrink newsz => shrinkTo p newsz.toNat
  | sbrk n => do
    let _ ← sys_sbrk p n.toInt
    pure ()
  | mmap addr length prot flags vfile offset => do
    let _ ← sys_mmap p addr.toNat length.toInt prot flags.toInt vfile offset.toInt
    pure ()
  | munmap addr length => do
    let _ ← sys_munmap p addr.toNat length.toInt
    pure ()
  | fork => do
    let _ ← Kernel.fork p
    pure ()
  | exec gs argv => do
    let _ ← Kernel.exec p gs argv
    pure ()
  | exit status => Kernel.exit p status.toInt
  | wait addr => do
    let _ ← Kernel.wait p addr.toNat
    pure ()

/-- The process has been made and has not come to its end. -/
def Proc.Active (pr : Proc) : Prop := pr.state ≠ .UNUSED ∧ pr.state ≠ .ZOMBIE
  deriving Decidable

/-- The process `x.1` does `x.2`, and the kernel does not panic. -/
def Step (s : Sys) (x : ProcId × Action) (s' : Sys) : Prop :=
  (s.proc x.1).Active ∧ x.2.run x.1 s = .ok ((), s')

/-- The state after the step, if there is one. -/
def next (s : Sys) (x : ProcId × Action) : Option Sys :=
  if (s.proc x.1).Active then
    match x.2.run x.1 s with
    | .ok (_, s') => some s'
    | .error _ => none
  else none

theorem next_eq_some {s s' : Sys} {x : ProcId × Action} : next s x = some s' ↔ Step s x s' := by
  rw [next, Step]
  by_cases ha : (s.proc x.1).Active
  · cases h : x.2.run x.1 s with
    | ok r =>
      obtain ⟨_, t⟩ := r
      simp [ha]
    | error e => simp [ha]
  · simp [ha]

end

/-! ### The first process -/

def initcode : List Byte :=
  [0x17, 0x05, 0x00, 0x00, 0x13, 0x05, 0x45, 0x02,
   0x97, 0x05, 0x00, 0x00, 0x93, 0x85, 0x35, 0x02,
   0x93, 0x08, 0x70, 0x00, 0x73, 0x00, 0x00, 0x00,
   0x93, 0x08, 0x20, 0x00, 0x73, 0x00, 0x00, 0x00,
   0xef, 0xf0, 0x9f, 0xff, 0x2f, 0x69, 0x6e, 0x69,
   0x74, 0x00, 0x00, 0x24, 0x00, 0x00, 0x00, 0x00,
   0x00, 0x00, 0x00, 0x00]

/-- The kernel has no page at the address 0: without memory it traps. -/
def uvminit (pagetable : Nat) (src : List Byte) : Kern Phys Unit := do
  Kern.when (src.length ≥ PGSIZE) (Kern.panic "inituvm: more than a page")
  let mem ← kalloc
  Kern.when (mem = 0) (Kern.panic "kerneltrap")
  memset mem 0
  let _ ← mappages pagetable 0 PGSIZE mem (PTE_W ||| PTE_R ||| PTE_X ||| PTE_U)
  Kern.modify fun s => s.setPage mem (setBytes (s.page mem) 0 src)

/-- The first process when it is ready to run. -/
def Proc.first (pr : Proc) : Proc := { pr with sz := PGSIZE, sp := PGSIZE, state := .RUNNABLE }

section
variable [Layout]

def userinit : Kern Sys Unit := do
  match ← allocproc with
  | none => Kern.panic "kerneltrap"
  | some p =>
    Kern.modify fun s => { s with initproc := p }
    let s ← Kern.get
    onMem (uvminit (s.proc p).pagetable initcode)
    updProc p Proc.first

/-- `main`, as far as memory and processes go. -/
def main : Kern Sys Unit := do
  onMem kinit
  userinit

end

def Proc.empty : Proc := ⟨.UNUSED, 0, none, false, 0, 0, 0, 0, 0, 0, 0, fun _ => VmArea.unused⟩

/-- The machine before `main`, with these files on the disk. -/
def Sys.off (page : Nat → Page) (cpus : Nat → Fin NCPU) (file : Nat → File) (inode : Nat → Inode) :
    Sys where
  mem := Phys.boot page cpus
  proc := fun _ => Proc.empty
  file := file
  inode := inode
  initproc := 0
  nextpid := 1

/-! ### A small machine -/

/-- Twenty pages of memory above the kernel, the last page of which is the trampoline. -/
@[reducible] def twentyPages : Layout where
  kend := PHYSTOP - 20 * PGSIZE
  trampoline := PHYSTOP - 21 * PGSIZE
  kernbase_le := by decide
  trampoline_aligned := by decide
  trampoline_lt := by decide
  kend_le := by decide

/-- The small machine after `main` and then `xs`, as long as the steps meet `C`. -/
def small (file : Nat → File) (inode : Nat → Inode) (C : Sys → ProcId × Action → Prop)
    [∀ s x, Decidable (C s x)] (xs : List (ProcId × Action)) : Option Sys :=
  letI := twentyPages
  match main (Sys.off (fun _ _ => 0) (fun _ => 0) file inode) with
  | .ok (_, s) => xs.foldlM (fun s x => if C s x then next s x else none) s
  | .error _ => none

/-- Pages of the small machine that `kalloc` comes to last. -/
def threePages : List Nat := [PHYSTOP - 20 * PGSIZE, PHYSTOP - 19 * PGSIZE, PHYSTOP - 18 * PGSIZE]

/-! ### Every step keeps the machine in order -/

variable [Layout] {s s' : Sys} {p : ProcId} {own own' : Nat → Owner}

variable {m : Phys} {root : TableId → Nat} {q : TableId} {va cause newsz : Nat}
  {xs : List (ProcId × Action)} {page : Nat → Page} {cpus : Nat → Fin NCPU} {file : Nat → File}
  {inode : Nat → Inode}

omit [Layout] in
theorem allowed_eq_true {store : Bool} (h : allowed m (root q) va store = true) :
    UserEntry m root q va ∧
      (store = true → has (m.leaf (root q) (slot va)) PTE_W = true) := by
  simp only [allowed, mayAccess, Bool.and_eq_true, Bool.or_eq_true, decide_eq_true_eq] at h
  obtain ⟨hva, ⟨⟨hV, hU⟩, _⟩, hW⟩ := h
  refine ⟨⟨hva, hV, hU⟩, fun hs => ?_⟩
  subst hs
  simpa using hW

section
variable (I : Inv s own)
include I

theorem poke_local (hp : (s.proc p).pagetable ≠ 0) (b : Byte)
    (ha : allowed s.mem (s.root (some p)) va true = true) :
    Local p s own { s with mem := poke s.mem (s.proc p).pagetable va b } own := by
  obtain ⟨hu, hW⟩ := allowed_eq_true ha
  have hpage := (hu.page (I.space p hp).reserved).2
  have hown := (I.counted.user _ _ hpage).2
  have hset := fun pg => I.counted.setPage pg (Owner.user_ne_table hown)
    fun _ => I.counted.count_ne_zero hpage
  refine ⟨I.of_rests (hset _).1 (fun _ h => h) fun q => .of_same ((hset _).2 (some q)),
    .refl _ _, fun x hx => ⟨(hset _).2 x.1 x.2, fun t ht => ?_⟩, fun _ _ => rfl, .refl _⟩
  -- a page with a writable entry has no other
  refine update_of_ne (fun he => hx ?_) _ _
  rw [eq_of_refs_eq_one (I.counted.writable _ _ hpage (hW rfl)) (ht.trans (congrArg some he)) hpage]

variable (hp : (s.proc p).state ≠ .UNUSED)
include hp

theorem access_local {b : Option Byte} (hw : ¬ InShmWindow s p va)
    (h : access p va b s = .ok ((), s')) : ∃ own', Local p s own s' own' := by
  rw [access, get_bind_apply] at h
  split at h
  case isFalse =>
    obtain ⟨_, s1, hf, h⟩ := bind_ok h
    obtain ⟨own1, L⟩ := pageFault_local I (I.used p hp) hw hf
    refine ⟨own1, ?_⟩
    rw [get_bind_apply] at h
    split at h
    · exact L.trans (exit_spec L.inv (fun hu => hp (L.tables.state.mp hu)) h).1
    · cases h
      exact L
  case isTrue ha =>
    cases b with
    | none =>
      cases h
      exact ⟨own, .refl I p⟩
    | some b =>
      obtain ⟨m', hm, rfl⟩ := onMem_ok h
      cases hm
      exact ⟨own, poke_local I (I.used p hp) b ha⟩

theorem growTo_local (h : growTo p newsz s = .ok ((), s')) : ∃ own', Local p s own s' own' := by
  have hpt := I.used p hp
  have A := I.space p hpt
  obtain ⟨r, m', hm, h⟩ := onMem_bind_ok h
  obtain ⟨own', C, G, hcase⟩ := uvmalloc_spec (p := some p) I.counted hpt A.size A.valid_trapframe hm
  refine ⟨own', ?_⟩
  rcases hcase with ⟨rfl, b, hb, K, U⟩ | ⟨hr, hlim, K⟩
  · cases h
    exact I.unmap hb C G K U
  have A' : AddrSpace m' s.root (some p) (s.proc p).trapframe r :=
    (A.grow (by omega) hlim).of_keeps K fun k hk => hk.2.2
  have K' := K.mono fun _ h => h.1
  by_cases h0 : r = 0
  · rw [when_neg (by simpa using h0)] at h
    cases h
    have hsz : (s.proc p).sz = r := by omega
    exact I.of_local C G K' (fun _ _ => rfl) (.refl _) (fun _ => by rw [hsz]; exact A')
      (fun hu => (I.unused p hu).2) (I.vma p)
  · rw [when_pos h0] at h
    cases h
    exact I.resize hpt C G K' A'

theorem shrinkTo_local (h : shrinkTo p newsz s = .ok ((), s')) : Local p s own s' own := by
  have hpt := I.used p hp
  have A := I.space p hpt
  obtain ⟨r, m', hm, h⟩ := onMem_bind_ok h
  obtain ⟨hr, C, K, U⟩ := uvmdealloc_spec (p := some p) I.counted hpt A.size hm
  cases h
  exact I.resize hpt C (.refl _ _) (K.mono fun _ h => h.1) (A.shrink (by omega) K U)

end

/-- The steps that keep every address of a process where its teardown looks: no fault between
`p->sz` and `p->shm`, no size above `TRAPFRAME` and no `munmap` of a negative length. -/
def Tame (s : Sys) (x : ProcId × Action) : Prop :=
  match x.2 with
  | .load va | .store va _ => ¬ InShmWindow s x.1 va.toNat
  | .sbrk n => (s.proc x.1).sz + n.toInt.toNat ≤ TRAPFRAME
  | .mmap _ length _ _ _ _ => (s.proc x.1).sz + length.toInt.toNat ≤ TRAPFRAME
  | .munmap _ length => 0 ≤ length.toInt
  | _ => True

instance (s : Sys) (x : ProcId × Action) : Decidable (Tame s x) := by
  unfold Tame
  split <;> infer_instance

/-- The steps on the memory of the process alone. A `copyout` to a page that it may not write is
none of them: the kernel writes to it all the same, and other processes may have it too. -/
def OwnMemory (s : Sys) (p : ProcId) : Action → Prop
  | .copyout va src => (view s.mem s.root (some p)).Writable va.toNat src.length
  | .fork | .exec _ _ | .wait _ => False
  | _ => True

theorem Step.local {a : Action} (I : Inv s own) (ht : Tame s (p, a)) (ha : OwnMemory s p a)
    (h : Step s (p, a) s') : ∃ own', Local p s own s' own' := by
  obtain ⟨⟨hp, _⟩, h⟩ := h
  have hpt := I.used p hp
  cases a with
  | moveSp sp =>
    cases h
    exact ⟨own, I.of_proc ⟨.rfl, rfl, rfl, rfl⟩ rfl (I.vma p)⟩
  | load va => exact access_local I hp ht h
  | store va b => exact access_local I hp ht h
  | argaddr va =>
    obtain ⟨_, h1⟩ := ignore_ok h
    exact argaddr_local I hpt h1
  | copyout va src =>
    obtain ⟨_, s0, h0, h⟩ := bind_ok h
    cases h0
    obtain ⟨_, h1⟩ := ignore_ok h
    obtain ⟨hproc, I', _, _, K⟩ := copyout_inv I hpt h1
    exact ⟨own, I', .refl _ _, K ha, fun _ _ => by rw [hproc]; rfl, by rw [hproc]; exact .refl _⟩
  | grow newsz => exact growTo_local I hp h
  | shrink newsz => exact ⟨own, shrinkTo_local I hp h⟩
  | sbrk n =>
    obtain ⟨_, h1⟩ := ignore_ok h
    exact ⟨own, sys_sbrk_local I hpt ht h1⟩
  | mmap addr length prot flags vfile offset =>
    obtain ⟨_, h1⟩ := ignore_ok h
    exact ⟨own, sys_mmap_local I hpt BitVec.toInt_lt ht h1⟩
  | munmap addr length =>
    obtain ⟨_, h1⟩ := ignore_ok h
    exact ⟨own, sys_munmap_local I hpt addr.isLt ht h1⟩
  | exit status => exact ⟨own, (exit_spec I hp h).1⟩
  | fork | exec | wait => exact ha.elim

theorem Step.inv {x : ProcId × Action} (I : Inv s own) (ht : Tame s x) (h : Step s x s') :
    ∃ own', Inv s' own' := by
  obtain ⟨p, a⟩ := x
  have hlocal : OwnMemory s p a → ∃ own', Inv s' own' := fun ha =>
    (h.local I ht ha).imp fun _ L => L.inv
  obtain ⟨⟨hp, _⟩, h⟩ := h
  cases a with
  | copyout va src =>
    obtain ⟨_, s0, h0, h⟩ := bind_ok h
    cases h0
    obtain ⟨_, h1⟩ := ignore_ok h
    exact ⟨own, (copyout_inv I (I.used p hp) h1).2.1⟩
  | fork =>
    obtain ⟨_, h1⟩ := ignore_ok h
    rcases fork_spec I hp h1 with ⟨_, _, hI⟩ | ⟨c, own', _, F⟩
    · exact hI
    · exact ⟨own', F.inv⟩
  | exec gs argv =>
    obtain ⟨_, h1⟩ := ignore_ok h
    exact exec_inv I hp h1
  | wait addr =>
    obtain ⟨_, h1⟩ := ignore_ok h
    rcases wait_spec I hp h1 with ⟨I', _⟩ | ⟨c, own', _, W⟩
    · exact ⟨own, I'⟩
    · exact ⟨own', W.inv⟩
  | _ => exact hlocal trivial

theorem run_inv (h : Run (Guarded Tame Step) s xs s') (hs : ∃ own, Inv s own) :
    ∃ own, Inv s' own := by
  have hstep : ∀ s x s', Guarded Tame Step s x s' → (∃ own, Inv s own) → ∃ own, Inv s' own := by
    rintro s x s' ⟨ht, hst⟩ ⟨own, I⟩
    exact hst.inv I ht
  exact h.invariant hstep hs

/-! ### The first process is in order -/

theorem kinit_inv (h : onMem kinit (off page cpus file inode) = .ok ((), s)) :
    Inv s fun _ => .user := by
  obtain ⟨m', hm, rfl⟩ := onMem_ok h
  obtain ⟨m1, hk, hc, ha⟩ := kinit_spec page cpus
  have he : kinit (Phys.boot page cpus) = .ok ((), m') := hm
  rw [hk] at he
  cases he
  have hroot : ∀ q, (off page cpus file inode).root q = 0 := by
    intro q
    cases q <;> rfl
  have hleaf : ∀ q k, m'.leaf ((off page cpus file inode).root q) k = 0 := by
    intro q k
    rw [hroot, Phys.leaf, if_pos rfl]
  have htarget : ∀ x, target m' (off page cpus file inode).root x = none := by
    intro x
    rw [target, hleaf, if_neg]
    exact fun h => absurd h.2 (by decide)
  have hframe : ∀ x, (off page cpus file inode).frame x = 0 := by
    rintro ⟨q, b⟩
    cases b <;> rfl
  have S : Space m' (off page cpus file inode).root fun _ => .user :=
    ⟨ha, fun q hq => absurd (hroot q) hq, by simp, by simp, by simp, by simp, by simp⟩
  have C : Counted m' (off page cpus file inode).root fun _ => .user := by
    refine ⟨S, fun t _ _ => ?_, ?_, ?_⟩
    · rw [refs_eq_zero.mpr fun x => by rw [htarget x]; simp, Phys.count, hc]
      rfl
    · exact fun x t hx => absurd hx (by rw [htarget x]; simp)
    · exact fun x t hx => absurd hx (by rw [htarget x]; simp)
  refine ⟨⟨C, fun q hq => absurd rfl hq, fun x hx => absurd (hframe x) hx,
    fun x _ _ hx => absurd (hframe x) hx, fun _ _ => VmArea.inside_unused⟩, ?_, ?_⟩
  · exact fun _ _ => ⟨rfl, rfl⟩
  · exact fun _ hq => absurd rfl hq

/-- The page of the first process is in its place, or it belongs to the kernel for ever. -/
theorem uvminit_spec {m' : Phys} {src : List Byte} (C : Counted m root own) (hq : root q ≠ 0)
    (h : uvminit (root q) src m = .ok ((), m')) :
    ∃ own', Counted m' root own' ∧ (∀ t, own t = .held → own' t = .held) ∧
      Keeps root (· = (q, slot 0)) m m' := by
  obtain ⟨_, m0, h0, h⟩ := bind_ok h
  by_cases hlen : src.length ≥ PGSIZE
  · rw [when_pos hlen] at h0
    cases h0
  rw [when_neg hlen] at h0
  cases h0
  obtain ⟨r, m1, hk, hcase⟩ := C.kalloc_fill
  rw [bind_of_ok hk] at h
  rcases hcase with ⟨rfl, _⟩ | ⟨hr, ho, hfill⟩
  · cases h
  rw [when_neg hr, pure_bind_apply] at h
  obtain ⟨C1, K1⟩ := hfill fun _ => 0
  have hheld1 : ∀ t, own t = .held → update own r Owner.held t = .held := by
    intro t ht
    by_cases htr : t = r
    · rw [htr, update_self]
    · rw [update_of_ne htr, ht]
  have hr1 : update own r Owner.held r = .held := update_self _ _ _
  -- the page is new, so no other entry sees what is written to it
  have hnew : ∀ x t, target m root x = some t → t ≠ r := by
    rintro x t hx rfl
    rw [← K1.target id] at hx
    rw [(C1.user x t hx).2] at hr1
    cases hr1
  have hfinal : ∀ m2 own2, Counted m2 root own2 → Keeps root (· = (q, slot 0)) m m2 →
      (∀ p path, own2 r ≠ .table p path) → (Managed r → m2.count r ≠ 0) →
      Counted (m2.setPage r (setBytes (m2.page r) 0 src)) root own2 ∧
        Keeps root (· = (q, slot 0)) m (m2.setPage r (setBytes (m2.page r) 0 src)) := by
    intro m2 own2 C2 K2 hown hcnt
    obtain ⟨C3, hl⟩ := C2.setPage (setBytes (m2.page r) 0 src) hown hcnt
    refine ⟨C3, fun x hx => ⟨(hl x.1 x.2).trans (K2 x hx).1, fun t ht => ?_⟩⟩
    exact (update_of_ne (hnew x t ht) _ _).trans ((K2 x hx).2 t ht)
  obtain ⟨_, m2, h2, h⟩ := bind_ok h
  cases h2
  obtain ⟨e, m3, h3, h⟩ := bind_ok h
  cases h
  rcases C1.space.mappages_spec hq (show 0 < MAXVA by decide) (by decide) r
      (PTE_W ||| PTE_R ||| PTE_X ||| PTE_U) with
    ⟨m4, own4, h4, S4, F, hl⟩ | ⟨h4, _⟩ | ⟨hnv, m4, own4, h4, S4, F, P⟩
  · rw [h4] at h3
    cases h3
    have hown := F.held_kept hr1
    have C4 := C1.frame S4 F hl
    obtain ⟨C5, K5⟩ := hfinal m3 own4 C4
      ((K1.mono fun _ => False.elim).trans (C1.keeps_frame F fun x _ => hl x.1 x.2))
      (Owner.held_ne_table hown) fun _ => by rw [(C4.space.held r hown).2]; decide
    exact ⟨own4, C5, fun t ht => F.held_kept (hheld1 t ht), K5⟩
  · rw [h4] at h3
    cases h3
  rw [h4] at h3
  cases h3
  obtain ⟨hm, _⟩ := C1.space.held r hr1
  have hslot : (slot 0).va < TRAPFRAME := by decide
  have hpa : PTE2PA (PA2PTE r ||| (PTE_W ||| PTE_R ||| PTE_X ||| PTE_U) ||| PTE_V) = r :=
    PTE2PA_mk_V hm.1 hm.lt (by decide)
  have C4 := C1.map_held hr1 S4 F P hslot hnv (has_mk_V _) hpa
  have ht : target m3 root (q, slot 0) = some r := by
    refine target_eq_some.mpr ⟨hslot, ?_, ?_⟩
    · rw [P.self]
      exact has_mk_V _
    · rw [P.self, hpa]
  obtain ⟨C5, K5⟩ := hfinal m3 _ C4
    ((K1.mono fun _ => False.elim).trans (C1.keeps_frame F fun x hx => P.ne hx))
    (Owner.user_ne_table (update_self _ _ _)) fun _ => C4.count_ne_zero ht
  refine ⟨_, C5, fun t hheld => ?_, K5⟩
  have hne : t ≠ r := by
    rintro rfl
    rw [ho] at hheld
    cases hheld
  rw [update_of_ne hne]
  exact F.held_kept (hheld1 t hheld)

theorem userinit_inv (I : Inv s own) (h : userinit s = .ok ((), s')) : ∃ own', Inv s' own' := by
  obtain ⟨r, s1, ha, h⟩ := bind_ok h
  rcases allocproc_spec I ha with ⟨rfl, _⟩ | ⟨c, own1, rfl, B⟩
  · cases h
  obtain ⟨_, m2, hu, h⟩ := onMem_bind_ok h
  cases h
  obtain ⟨tf, al, pt, hpt, hborn⟩ := B.born
  have hpt1 : (s1.proc c).pagetable ≠ 0 := by
    rw [hborn]
    exact hpt
  have hsz : (s1.proc c).sz = 0 := by
    rw [hborn]
    exact (I.unused c B.free).2
  have M := B.inv
  obtain ⟨own2, C2, hheld, K2⟩ := uvminit_spec (q := some c) M.counted hpt1 hu
  refine ⟨own2, Inv.congr (s := { s1 with mem := m2 }.setProc c Proc.first) ?_ rfl rfl⟩
  have hself := setProc_self { s1 with mem := m2 } c Proc.first
  have hother : ∀ q ≠ c, ({ s1 with mem := m2 }.setProc c Proc.first).proc q = s.proc q :=
    fun q hq => (setProc_ne _ _ hq).trans (B.only.proc q hq)
  have hroot : ({ s1 with mem := m2 }.setProc c Proc.first).root = s1.root := by
    rw [root_setProc]
    exact update_eq_self _ _
  have hframe : ({ s1 with mem := m2 }.setProc c Proc.first).frame = s1.frame := by
    refine frame_congr_of_frames fun q => ?_
    by_cases hq : q = c
    · subst hq
      rw [hself]
      exact ⟨rfl, rfl⟩
    · rw [setProc_ne _ _ hq]
      exact ⟨rfl, rfl⟩
  have M2 : MemInv ({ s1 with mem := m2 }.setProc c Proc.first) own2 := by
    refine M.of_slot (by rw [hroot]; exact C2) (fun q hq => setProc_ne _ _ hq)
      (fun q hq => .of_keeps K2 fun k hk => hq (Option.some.inj (congrArg Prod.fst hk)))
      (fun q _ b hb => hheld _ (M.frame (q, b) hb)) ?_ ?_ ?_ ?_
    · intro _
      have A := M.space c hpt1
      rw [hsz] at A
      have A1 : AddrSpace s1.mem s1.root (some c) (s1.proc c).trapframe PGSIZE :=
        A.grow (Nat.zero_le _) (by decide)
      rw [hroot, hself]
      refine A1.of_keeps K2 fun k hk => ?_
      have hk : k = slot 0 := congrArg Prod.snd hk
      rw [hk]
      decide
    · rw [hframe]
      exact fun b hb => hheld _ (M.frame (c, b) hb)
    · rw [hframe]
      exact fun b x => M.frame_inj (c, b) x
    · rw [hself]
      exact M.vma c
  refine ⟨M2, fun q hq => ?_, fun q hq => ?_⟩
  · by_cases he : q = c
    · rw [he, hself] at hq
      cases hq
    · rw [hother q he] at hq ⊢
      exact I.unused q hq
  · by_cases he : q = c
    · rw [he, hself]
      exact hpt1
    · rw [hother q he] at hq ⊢
      exact I.used q hq

theorem main_inv (h : main (off page cpus file inode) = .ok ((), s)) : ∃ own, Inv s own := by
  obtain ⟨_, s1, hk, hu⟩ := bind_ok h
  exact userinit_inv (kinit_inv hk) hu

theorem run_of_steps {C : Sys → ProcId × Action → Prop} [∀ s x, Decidable (C s x)]
    (h : xs.foldlM (fun s x => if C s x then next s x else none) s = some s') :
    Run (Guarded C Step) s xs s' := by
  have hstep : (fun s x s' => next s x = some s') = Step := by
    funext s x s'
    exact propext next_eq_some
  rw [← hstep]
  exact Run.of_foldlM h

omit [Layout] in
/-- What the small machine does is a run from a machine in order. -/
theorem small_run {C : Sys → ProcId × Action → Prop} [∀ s x, Decidable (C s x)]
    (h : small file inode C xs = some s) : let := twentyPages
    ∃ s0, (∃ own, Inv s0 own) ∧ Run (Guarded C Step) s0 xs s := by
  let := twentyPages
  rw [small] at h
  split at h
  case h_1 s0 hm => exact ⟨s0, main_inv hm, run_of_steps h⟩
  case h_2 => cases h

end Yyds.Kernel
