import Yyds.Kernel.Sys

/-! How processes come and go: `fork`, `exec`, `exit` and `wait`. -/
namespace Yyds.Kernel

open Lib Mm

section
variable [Layout]

def proc_pagetable (trapframe : Nat) : Kern Phys Nat := do
  let pagetable ← uvmcreate
  if pagetable = 0 then pure 0
  else
    let r ← mappages pagetable TRAMPOLINE PGSIZE Layout.trampoline (PTE_R ||| PTE_X)
    if r < 0 then
      uvmfree pagetable 0
      pure 0
    else
      let r ← mappages pagetable TRAPFRAME PGSIZE trapframe (PTE_R ||| PTE_W)
      if r < 0 then
        uvmunmap pagetable TRAMPOLINE 1 false
        uvmfree pagetable 0
        pure 0
      else pure pagetable

def proc_freepagetable (pagetable sz : Nat) : Kern Phys Unit := do
  uvmunmap pagetable TRAMPOLINE 1 false
  uvmunmap pagetable TRAPFRAME 1 false
  uvmfree pagetable sz

/-- What `freeproc` leaves of the process. -/
def Proc.cleared (pr : Proc) : Proc :=
  { pr with
    state := .UNUSED, pid := 0, parent := none, killed := false, xstate := 0, pagetable := 0
    sz := 0, trapframe := 0, alarm_trapframe := 0, shm := KERNBASE }

/-- `shmrelease` has nothing to do for a process without shared memory. -/
def freeproc (p : ProcId) : Kern Sys Unit := do
  let s ← Kern.get
  let pr := s.proc p
  Kern.when (pr.trapframe ≠ 0) (onMem (kfree pr.trapframe))
  Kern.when (pr.pagetable ≠ 0) (onMem (proc_freepagetable pr.pagetable pr.sz))
  Kern.when (pr.alarm_trapframe ≠ 0) (onMem (kfree pr.alarm_trapframe))
  updProc p Proc.cleared

/-- `allocproc` for the slot `p` from the page table on. -/
def allocTable (p : ProcId) : Kern Sys (Option ProcId) := do
  let s ← Kern.get
  let pagetable ← onMem (proc_pagetable (s.proc p).trapframe)
  updProc p fun pr => { pr with pagetable := pagetable }
  if pagetable = 0 then
    freeproc p
    pure none
  else
    updProc p fun pr => { pr with vma := fun _ => VmArea.unused }
    pure (some p)

/-- One of the two pages that the kernel keeps for a process: the trapframe, or the trapframe
for its alarm handler. -/
def Proc.setFrame (b : Bool) (r : Nat) (pr : Proc) : Proc :=
  match b with
  | false => { pr with trapframe := r }
  | true => { pr with alarm_trapframe := r }

/-- `p->trapframe = kalloc()` or `p->alarm_trapframe = kalloc()` -/
def kallocFrame (p : ProcId) (b : Bool) : Kern Sys Nat := do
  let r ← onMem kalloc
  updProc p (Proc.setFrame b r)
  pure r

/-- The slot has been claimed for the process number `pid`. -/
def Proc.claimed (pid : Int) (pr : Proc) : Proc := { pr with pid := pid, shm := KERNBASE }

/-- The slot `p` gets the next process number. -/
def Sys.claim (s : Sys) (p : ProcId) : Sys :=
  { s.setProc p (Proc.claimed s.nextpid) with nextpid := int (s.nextpid + 1) }

/-- `allocproc` for the slot `p` that it has found. -/
def allocSlot (p : ProcId) : Kern Sys (Option ProcId) := do
  Kern.modify fun s => s.claim p
  let trapframe ← kallocFrame p false
  if trapframe = 0 then pure none
  else
    let alarm ← kallocFrame p true
    if alarm = 0 then pure none else allocTable p

def allocproc : Kern Sys (Option ProcId) := do
  let s ← Kern.get
  match (List.finRange NPROC).find? fun p => (s.proc p).state = .UNUSED with
  | none => pure none
  | some p => allocSlot p

/-- The child after `fork`, apart from what `allocproc` has set; `shm` comes from the first slot
of the table. -/
def Proc.child (np pr : Proc) (p : ProcId) (shm : Nat) : Proc :=
  { np with
    state := .RUNNABLE, parent := some p, sz := pr.sz, sp := pr.sp, shm := shm
    vma := fun i => if (pr.vma i).used then pr.vma i else np.vma i }

def fork (p : ProcId) : Kern Sys Int := do
  match ← allocproc with
  | none => pure (-1)
  | some c =>
    let s ← Kern.get
    let r ← onMem (uvmcopy (s.proc p).pagetable (s.proc c).pagetable (s.proc p).sz)
    if r < 0 then
      freeproc c
      pure (-1)
    else
      updProc c fun np => np.child (s.proc p) p (s.proc 0).shm
      pure (s.proc c).pid

/-- The part of `exit` for the mapped file `i`. -/
def exitVma (p : ProcId) (i : Fin NVMA) : Kern Sys Unit := do
  let s ← Kern.get
  let a := (s.proc p).vma i
  if a.used then
    writeBack p a a.addr a.len
    onMem (uvmunmap (s.proc p).pagetable a.addr (pages a.len) true)
    setVma p i { a with used := false }
  else pure ()

/-- The process table at the end of `exit`: the children go to `init`, and `p` waits for its
parent. -/
def Sys.exited (s : Sys) (p : ProcId) (status : Int) : Sys :=
  { s with proc := fun q =>
      let pr := s.proc q
      let pr := if pr.parent = some p then { pr with parent := some s.initproc } else pr
      if q = p then { pr with xstate := status, state := .ZOMBIE } else pr }

def exit (p : ProcId) (status : Int) : Kern Sys Unit := do
  let s ← Kern.get
  if p = s.initproc then Kern.panic "init exiting"
  else
    Kern.forEach (List.finRange NVMA) (exitVma p)
    Kern.modify fun s => s.exited p status

/-- The bytes of an `int` in memory -/
def intBytes (x : Int) : List Byte :=
  (List.range 4).map fun i => BitVec.ofNat 8 (uint x / 2 ^ (8 * i))

/-- The exit status for the caller of `wait`, unless `addr` is 0. -/
def copyStatus (pagetable addr : Nat) (xstate : Int) : Kern Sys Int :=
  if addr = 0 then pure 0 else onMem (copyout pagetable addr (intBytes xstate))

/-- `wait`; `none` means that the caller goes to sleep. -/
def wait (p : ProcId) (addr : Nat) : Kern Sys (Option Int) := do
  let s ← Kern.get
  match (List.finRange NPROC).find? fun q =>
      (s.proc q).parent = some p ∧ (s.proc q).state = .ZOMBIE with
  | some c =>
    let r ← copyStatus (s.proc p).pagetable addr (s.proc c).xstate
    if r < 0 then pure (some (-1))
    else
      freeproc c
      pure (some (s.proc c).pid)
  | none =>
    if (∀ q, (s.proc q).parent ≠ some p) ∨ (s.proc p).killed then pure (some (-1)) else pure none

/-- `usertrap` for a fault: a killed process does not return to user mode. -/
def usertrap (p : ProcId) (cause va : Nat) : Kern Sys Unit := do
  pageFault p cause va
  let s ← Kern.get
  if (s.proc p).killed then exit p (-1) else pure ()

/-! ### `exec` -/

/-- A program header of type `ELF_PROG_LOAD` and the bytes of its segment in the file. -/
structure Segment where
  vaddr : Nat
  memsz : Nat
  filesz : Nat
  bytes : List Byte

def uvmclear (pagetable va : Nat) : Kern Phys Unit := do
  match ← walk pagetable va false with
  | none => Kern.panic "uvmclear"
  | some x => Kern.modify fun s => s.setPte x (s.pte x &&& ~~~PTE_U)

/-- `loadseg`, `n` pages from page `i` of the segment on; a short file is an error. -/
def loadsegFrom (pagetable va : Nat) (bytes : List Byte) (sz : Nat) : Nat → Nat → Kern Phys Int
  | 0, _ => pure 0
  | n + 1, i => do
    let pa ← walkaddr pagetable (va + i)
    Kern.when (pa = 0) (Kern.panic "loadseg: address should exist")
    let m := min (sz - i) PGSIZE
    let part := (bytes.drop i).take m
    Kern.modify fun s => s.setPage pa (setBytes (s.page pa) 0 part)
    if part.length ≠ m then pure (-1) else loadsegFrom pagetable va bytes sz n (i + PGSIZE)

def loadseg (pagetable va : Nat) (bytes : List Byte) (sz : Nat) : Kern Phys Int :=
  loadsegFrom pagetable va bytes sz ((sz + PGSIZE - 1) / PGSIZE) 0

/-- The loop of `exec` over the segments; the result is `sz`, and whether all went well. -/
def loadSegments (pagetable : Nat) : List Segment → Nat → Kern Phys (Bool × Nat)
  | [], sz => pure (true, sz)
  | g :: gs, sz => do
    if g.memsz < g.filesz then pure (false, sz)
    else if (g.vaddr + g.memsz) % 2 ^ 64 < g.vaddr then pure (false, sz)
    else
      let sz1 ← uvmalloc pagetable sz ((g.vaddr + g.memsz) % 2 ^ 64)
      if sz1 = 0 then pure (false, sz)
      else if g.vaddr % PGSIZE ≠ 0 then pure (false, sz1)
      else
        let r ← loadseg pagetable g.vaddr g.bytes g.filesz
        if r < 0 then pure (false, sz1) else loadSegments pagetable gs sz1

/-- The stack of `exec`: two pages above the image, the lower one a guard. The result is `sz`,
and whether there was memory. -/
def allocStack (pagetable sz : Nat) : Kern Phys (Bool × Nat) := do
  let sz1 ← uvmalloc pagetable (PGROUNDUP sz) (PGROUNDUP sz + 2 * PGSIZE)
  if sz1 = 0 then pure (false, PGROUNDUP sz)
  else
    uvmclear pagetable (sz1 - 2 * PGSIZE)
    pure (true, sz1)

/-- `exec` makes room for `bytes` below `sp` and copies them there; `none` if it cannot. -/
def push (pagetable stackbase sp : Nat) (bytes : List Byte) : Kern Phys (Option Nat) := do
  let sp' := (sp - bytes.length) / 16 * 16
  if sp < bytes.length ∨ sp' < stackbase then pure none
  else
    let r ← copyout pagetable sp' bytes
    if r < 0 then pure none else pure (some sp')

/-- The argument strings, each with its final zero; `ustack` collects where they are. -/
def pushArgs (pagetable stackbase : Nat) : List (List Byte) → Nat → List Nat →
    Kern Phys (Option (Nat × List Nat))
  | [], sp, ustack => pure (some (sp, ustack))
  | arg :: argv, sp, ustack => do
    if ustack.length ≥ MAXARG then pure none
    else
      match ← push pagetable stackbase sp (arg ++ [0]) with
      | none => pure none
      | some sp' => pushArgs pagetable stackbase argv sp' (ustack ++ [sp'])

/-- The bytes of a `uint64` in memory -/
def longBytes (x : Nat) : List Byte := (List.range 8).map fun i => BitVec.ofNat 8 (x / 2 ^ (8 * i))

/-- The stack contents: the strings and then the pointers to them. -/
def pushStack (pagetable sz : Nat) (argv : List (List Byte)) : Kern Phys (Option Nat) := do
  match ← pushArgs pagetable (sz - PGSIZE) argv sz [] with
  | none => pure none
  | some (sp, ustack) => push pagetable (sz - PGSIZE) sp ((ustack ++ [0]).flatMap longBytes)

/-- The new image, from the empty page table on: `sz`, and `sp` if all went well. -/
def buildImage (pagetable : Nat) (gs : List Segment) (argv : List (List Byte)) :
    Kern Phys (Nat × Option Nat) := do
  let r ← loadSegments pagetable gs 0
  if r.1 = false then pure (r.2, none)
  else
    let r ← allocStack pagetable r.2
    if r.1 = false then pure (r.2, none)
    else
      let sp ← pushStack pagetable r.2 argv
      pure (r.2, sp)

/-- The end of `exec`, with the new image in place. -/
def execCommit (p : ProcId) (pagetable sz sp : Nat) : Kern Sys Unit := do
  let s ← Kern.get
  updProc p fun pr => { pr with pagetable := pagetable, sz := sz, sp := sp }
  onMem (proc_freepagetable (s.proc p).pagetable (s.proc p).sz)
  updProc 0 fun pr => { pr with shm := KERNBASE }

/-- `exec` of a program that was found and has an ELF header, with the segments `gs`. -/
def exec (p : ProcId) (gs : List Segment) (argv : List (List Byte)) : Kern Sys Int := do
  let s ← Kern.get
  let pagetable ← onMem (proc_pagetable (s.proc p).trapframe)
  if pagetable = 0 then pure (-1)
  else
    let r ← onMem (buildImage pagetable gs argv)
    match r.2 with
    | none =>
      onMem (proc_freepagetable pagetable r.1)
      pure (-1)
    | some sp =>
      execCommit p pagetable r.1 sp
      pure argv.length

end

end Yyds.Kernel
