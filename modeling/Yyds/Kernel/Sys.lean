import Yyds.Lib.Routine
import Yyds.Mm.PageTable

/-! Processes, their mapped files, and the system calls and page faults that change them. -/
namespace Yyds.Kernel

open Lib Mm Function

/-! ### C integers -/

/-- A value stored in an `int`. -/
def int (x : Int) : Int := x.bmod (2 ^ 32)

/-- An `int` taken as a `uint64`. -/
def uint64 (x : Int) : Nat := (x % 2 ^ 64).toNat

/-- An `int` taken as a `uint`. -/
def uint (x : Int) : Nat := (x % 2 ^ 32).toNat

def PROT_READ : BitVec 32 := 1
def PROT_WRITE : BitVec 32 := 2
def PROT_EXEC : BitVec 32 := 4
def MAP_SHARED : Int := 1
def MAP_PRIVATE : Int := 2

/-- `prot & bit` as a truth value -/
def allows (prot bit : BitVec 32) : Bool := prot &&& bit != 0

/-! ### State -/

inductive ProcState
  | UNUSED
  | SLEEPING
  | RUNNABLE
  | RUNNING
  | ZOMBIE
  deriving DecidableEq, Repr

/-- `struct vm_area`; `vfile` is the number of the open file. -/
structure VmArea where
  used : Bool
  addr : Nat
  len : Int
  prot : BitVec 32
  flags : Int
  vfile : Nat
  offset : Int

def VmArea.unused : VmArea := ⟨false, 0, 0, 0, 0, 0, 0⟩

/-- `struct proc`, as far as memory goes; `sp` is `trapframe->sp`. -/
structure Proc where
  state : ProcState
  pid : Int
  parent : Option ProcId
  killed : Bool
  xstate : Int
  pagetable : Nat
  sz : Nat
  trapframe : Nat
  alarm_trapframe : Nat
  sp : Nat
  shm : Nat
  vma : Fin NVMA → VmArea

/-- `struct file`; in one of a pipe or a socket `ip` is 0. -/
structure File where
  readable : Bool
  writable : Bool
  ip : Option Nat
  off : Nat

structure Inode where
  mode : BitVec 8
  data : List Byte

/-- The whole machine. An inode is its mode and its contents. -/
structure Sys where
  mem : Phys
  proc : ProcId → Proc
  file : Nat → File
  inode : Nat → Inode
  initproc : ProcId
  nextpid : Int

namespace Sys

def setProc (s : Sys) (p : ProcId) (f : Proc → Proc) : Sys :=
  { s with proc := update s.proc p (f (s.proc p)) }

def setData (s : Sys) (ip : Nat) (data : List Byte) : Sys :=
  { s with inode := update s.inode ip { s.inode ip with data := data } }

def setOff (s : Sys) (f off : Nat) : Sys :=
  { s with file := update s.file f { s.file f with off := off } }

/-- The contents of the inode of an open file. -/
def fileData (s : Sys) (f : Nat) : List Byte :=
  match (s.file f).ip with
  | some ip => (s.inode ip).data
  | none => []

/-- The page tables that processes have. -/
def root (s : Sys) : TableId → Nat
  | some p => (s.proc p).pagetable
  | none => 0

end Sys

/-- A routine that works on physical memory. -/
def onMem {α : Type} (x : Kern Phys α) : Kern Sys α :=
  Kern.zoom Sys.mem (fun s m => { s with mem := m }) x

def updProc (p : ProcId) (f : Proc → Proc) : Kern Sys Unit := Kern.modify fun s => s.setProc p f

/-- `p->killed = 1` -/
def kill (p : ProcId) : Kern Sys Unit := updProc p fun pr => { pr with killed := true }

/-! ### File contents -/

/-- The bytes that `readi` copies from an inode with these contents. -/
def readi (data : List Byte) (off n : Nat) : List Byte :=
  if off > data.length ∨ off + n ≥ 2 ^ 32 then [] else (data.drop off).take n

/-- The contents after `bytes` were written at `off`, inside the file or at its end. -/
def overwrite (data : List Byte) (off : Nat) (bytes : List Byte) : List Byte :=
  data.take off ++ bytes ++ data.drop (off + bytes.length)

/-- At most `fuel` rounds of the loop of `copyin`; a round copies at least one byte. -/
def copyinFrom (pagetable : Nat) : Nat → Nat → Nat → Kern Phys (Option (List Byte))
  | _, _, 0 => pure (some [])
  | 0, _, _ + 1 => pure (some [])
  | fuel + 1, srcva, len + 1 => do
    let va0 := PGROUNDDOWN srcva
    let pa0 ← walkaddr pagetable va0
    if pa0 = 0 then pure none
    else
      let s ← Kern.get
      let n := min (PGSIZE - (srcva - va0)) (len + 1)
      let bytes := (List.range n).map fun i => getByte (s.page pa0) (srcva - va0 + i)
      let rest ← copyinFrom pagetable fuel (va0 + PGSIZE) (len + 1 - n)
      pure (rest.map (bytes ++ ·))

/-- The bytes at `srcva`, or `none` where the kernel returns -1 -/
def copyin (pagetable srcva len : Nat) : Kern Phys (Option (List Byte)) :=
  copyinFrom pagetable len srcva len

/-- The loop of `writei`: the contents of the inode at its end. -/
def writeiLoop : Nat → Nat → Nat → Nat → List Byte → Routine Byte (List Byte)
  | 0, _, _, _, data => .done data
  | fuel + 1, src, off, n, data =>
    if n = 0 then .done data
    else
      let m := min n (BSIZE - off % BSIZE)
      .load src m fun r =>
        match r with
        | none => .done data
        | some bytes => writeiLoop fuel (src + m) (off + m) (n - m) (overwrite data off bytes)

/-- `writei` from the user address `src` -/
def writeiUser (data : List Byte) (src off n : Nat) : Routine Byte (Int × List Byte) :=
  if off > data.length ∨ off + n ≥ 2 ^ 32 then .done (-1, data)
  else if off + n > MAXFILE * BSIZE then .done (-1, data)
  else (writeiLoop n src off n data).bind fun data => .done (n, data)

/-- bytes that `filewrite` writes in one transaction -/
def filewriteMax : Nat := (MAXOPBLOCKS - 1 - 1 - 2) / 2 * BSIZE

/-- The loop of `filewrite`: `i` at its end, the contents and the offset. -/
def filewriteLoop (addr n : Nat) :
    Nat → Nat → List Byte → Nat → Routine Byte (Nat × List Byte × Nat)
  | 0, i, data, off => .done (i, data, off)
  | fuel + 1, i, data, off =>
    if i < n then
      (writeiUser data (addr + i) off (min (n - i) filewriteMax)).bind fun x =>
        if x.1 < 0 then .done (i, x.2, off)
        else filewriteLoop addr n fuel (i + x.1.toNat) x.2 (off + x.1.toNat)
    else .done (i, data, off)

section
variable [Layout]

/-- The copies that the kernel makes from and to the memory of a process. -/
def userOps (pagetable : Nat) : Routine.Ops Phys Byte where
  load va len := copyin pagetable va len
  store va bs := do
    let r ← copyout pagetable va bs
    pure (decide (r = 0))

/-- `filewrite` on a file of type `FD_INODE`; a pipe or a socket takes the bytes elsewhere. The
mode is that of every round of the loop. -/
def filewrite (pagetable f addr : Nat) (n : Int) : Kern Sys Int := do
  let s ← Kern.get
  let fl := s.file f
  if fl.writable = false then pure (-1)
  else if n ≤ 0 then pure (if n = 0 then 0 else -1)
  else
    match fl.ip with
    | none => pure (-1)
    | some ip =>
      if (s.inode ip).mode &&& 2 = 0 then pure (-1)
      else
        let (i, data, off) ← onMem
          ((filewriteLoop addr n.toNat n.toNat 0 (s.inode ip).data fl.off).exec (userOps pagetable))
        Kern.modify fun s => (s.setData ip data).setOff f off
        pure (if (i : Int) = n then n else -1)

/-! ### Page faults -/

def VmArea.pteFlags (a : VmArea) : Word :=
  PTE_U ||| (if allows a.prot PROT_READ then PTE_R else 0) |||
    (if allows a.prot PROT_WRITE then PTE_W else 0) |||
    (if allows a.prot PROT_EXEC then PTE_X else 0)

/-- The test of `mmap_handler`; `va` is an `int` there. -/
def VmArea.covers (a : VmArea) (va : Int) : Bool :=
  a.used && decide (a.addr ≤ uint64 va) &&
    decide (uint64 va ≤ (2 ^ 64 - 1 + uint64 a.len + a.addr) % 2 ^ 64)

def findVma (pr : Proc) (va : Int) : Option VmArea :=
  ((List.finRange NVMA).find? fun i => (pr.vma i).covers va).map pr.vma

/-- `offset` in `mmap_handler`, as `readi` takes it -/
def VmArea.fileOffset (a : VmArea) (va : Int) : Nat :=
  uint (int (a.offset + PGROUNDDOWN ((2 ^ 64 - a.addr + uint64 va) % 2 ^ 64)))

/-- `mmap_handler` from `kalloc` on, for the area it has found. -/
def mmapFill (p : ProcId) (a : VmArea) (va : Int) : Kern Sys Int := do
  let s ← Kern.get
  let pa ← onMem kalloc
  if pa = 0 then pure (-1)
  else
    onMem (memset pa 0)
    Kern.when ((s.file a.vfile).ip = none) (Kern.panic "ilock")
    let bytes := readi (s.fileData a.vfile) (a.fileOffset va) PGSIZE
    if bytes = [] then
      onMem (kfree pa)
      pure (-1)
    else
      onMem (Kern.modify fun m => m.setPage pa (setBytes (m.page pa) 0 bytes))
      let r ← onMem (mapOrFree (s.proc p).pagetable (PGROUNDDOWN (uint64 va)) pa a.pteFlags)
      if r ≠ 0 then pure (-1) else pure 0

def mmap_handler (p : ProcId) (va : Int) (cause : Nat) : Kern Sys Int := do
  let s ← Kern.get
  match findVma (s.proc p) va with
  | none => pure (-1)
  | some a =>
    if cause = 13 ∧ (s.file a.vfile).readable = false then pure (-1)
    else if cause = 15 ∧ (s.file a.vfile).writable = false then pure (-1)
    else mmapFill p a va

/-- `PGROUNDUP(p->trapframe->sp) - 1 < va`, where 0 - 1 is the largest `uint64` -/
def Proc.aboveStack (pr : Proc) (va : Nat) : Bool :=
  decide (PGROUNDUP pr.sp ≠ 0 ∧ PGROUNDUP pr.sp - 1 < va)

/-- The page `pa`, zeroed, for the page of `va`; without memory for the tables the process
is killed. -/
def mapZero (p : ProcId) (va pa : Nat) : Kern Sys Unit := do
  let s ← Kern.get
  onMem (memset pa 0)
  let r ← onMem (mapOrFree (s.proc p).pagetable (PGROUNDDOWN va) pa
    (PTE_R ||| PTE_W ||| PTE_X ||| PTE_U))
  Kern.when (r ≠ 0) (kill p)

/-- The call of `kalloc` at the end of a condition of `usertrap`. -/
def kallocIf (c : Bool) : Kern Sys Nat := if c then onMem kalloc else pure 0

/-- The last branch of the page-fault path of `usertrap`. -/
def lazyFault (p : ProcId) (va : Nat) : Kern Sys Unit := do
  let s ← Kern.get
  let pr := s.proc p
  let pa ← kallocIf (pr.aboveStack va && decide (va < pr.sz))
  if pa ≠ 0 then mapZero p va pa
  else
    let pa ← kallocIf (pr.aboveStack va && decide (va < pr.shm))
    if pa ≠ 0 then mapZero p va pa else kill p

/-- The first branch of the page-fault path of `usertrap`. -/
def cowFault (p : ProcId) (va : Nat) : Kern Sys Unit := do
  let s ← Kern.get
  if va ≥ (s.proc p).sz then kill p
  else
    let r ← onMem (cowalloc (s.proc p).pagetable (PGROUNDDOWN va))
    Kern.when (r = 0) (kill p)

/-- The call of `mmap_handler` in the second condition. -/
def mmapFault (p : ProcId) (cause va : Nat) : Kern Sys Int := do
  let s ← Kern.get
  if (s.proc p).aboveStack va ∧ va < (s.proc p).sz then mmap_handler p (int va) cause
  else pure (-1)

/-- `usertrap` for a load (`cause` 13) or a store (15) at `va` that faults -/
def pageFault (p : ProcId) (cause va : Nat) : Kern Sys Unit := do
  let s ← Kern.get
  let c ← onMem (cowpage (s.proc p).pagetable va)
  if c = 0 then cowFault p va
  else
    let r ← mmapFault p cause va
    if r = 0 then pure () else lazyFault p va

/-- `argaddr` for the pointer `va` -/
def argaddr (p : ProcId) (va : Nat) : Kern Sys Int := do
  let s ← Kern.get
  let pr := s.proc p
  let pa ← onMem (walkaddr pr.pagetable va)
  if pa ≠ 0 then pure 0
  else if pr.aboveStack va ∧ va < pr.sz then
    let pa ← onMem kalloc
    if pa = 0 then pure (-1)
    else
      onMem (memset pa 0)
      let r ← onMem (mapOrFree pr.pagetable (PGROUNDDOWN va) pa
        (PTE_R ||| PTE_W ||| PTE_X ||| PTE_U))
      if r ≠ 0 then pure (-1) else pure 0
  else pure (-1)

/-! ### System calls that move `p->sz` or the mapped files -/

def sys_sbrk (p : ProcId) (n : Int) : Kern Sys Int := do
  let s ← Kern.get
  let sz := (s.proc p).sz
  if n > 0 then
    updProc p fun pr => { pr with sz := (sz + uint64 n) % 2 ^ 64 }
    pure (int sz)
  else if (sz + uint64 n) % 2 ^ 64 > 0 then
    let sz' ← onMem (uvmdealloc (s.proc p).pagetable sz ((sz + uint64 n) % 2 ^ 64))
    updProc p fun pr => { pr with sz := sz' }
    pure (int sz)
  else pure (-1)

/-- `p->vma[i] = a` -/
def setVma (p : ProcId) (i : Fin NVMA) (a : VmArea) : Kern Sys Unit :=
  updProc p fun pr => { pr with vma := update pr.vma i a }

/-- The tests of `sys_mmap` for a file that is `writable` or not, and the slot that it takes. -/
def mmapSlot (vma : Fin NVMA → VmArea) (sz : Nat) (writable : Bool) (addr : Nat) (length : Int)
    (prot : BitVec 32) (flags offset : Int) : Option (Fin NVMA) :=
  if addr ≠ 0 ∨ offset ≠ 0 ∨ length < 0 then none
  else if writable = false ∧ allows prot PROT_WRITE ∧ flags = MAP_SHARED then none
  else if (sz + uint64 length) % 2 ^ 64 > MAXVA then none
  else (List.finRange NVMA).find? fun i => (vma i).used = false

/-- `sys_mmap` on the open file `vfile` that `argfd` has found; the result is the address, or
`none` for the error value. -/
def sys_mmap (p : ProcId) (addr : Nat) (length : Int) (prot : BitVec 32) (flags : Int)
    (vfile : Nat) (offset : Int) : Kern Sys (Option Nat) := do
  let s ← Kern.get
  let pr := s.proc p
  match mmapSlot pr.vma pr.sz (s.file vfile).writable addr length prot flags offset with
  | none => pure none
  | some i =>
    setVma p i ⟨true, pr.sz, length, prot, flags, vfile, offset⟩
    updProc p fun pr => { pr with sz := (pr.sz + uint64 length) % 2 ^ 64 }
    pure (some pr.sz)

/-- The area after `munmap` has cut `length` bytes off its start or its end, if they are. -/
def VmArea.cut (a : VmArea) (addr : Nat) (length : Int) : Option VmArea :=
  if a.used = false ∨ a.len < length then none
  else if a.addr = addr then
    some { a with addr := (a.addr + uint64 length) % 2 ^ 64, len := int (a.len - length) }
  else if (addr + uint64 length) % 2 ^ 64 = (a.addr + uint64 a.len) % 2 ^ 64 then
    some { a with len := int (a.len - length) }
  else none

/-- The first area that can be cut, and what is left of it. -/
def findCut (vma : Fin NVMA → VmArea) (addr : Nat) (length : Int) : Option (Fin NVMA × VmArea) :=
  (List.finRange NVMA).findSome? fun i => ((vma i).cut addr length).map (i, ·)

/-- The write-back of a shared mapping. -/
def writeBack (p : ProcId) (a : VmArea) (addr : Nat) (length : Int) : Kern Sys Unit := do
  let s ← Kern.get
  if a.flags = MAP_SHARED ∧ allows a.prot PROT_WRITE then
    let _ ← filewrite (s.proc p).pagetable a.vfile addr length
    pure ()
  else pure ()

/-- `length / PGSIZE` taken as a `uint64` -/
def pages (length : Int) : Nat := uint64 (length.tdiv PGSIZE)

def sys_munmap (p : ProcId) (addr : Nat) (length : Int) : Kern Sys Int := do
  let s ← Kern.get
  match findCut (s.proc p).vma addr length with
  | none => pure (-1)
  | some (i, a) =>
    setVma p i a
    writeBack p a addr length
    onMem (uvmunmap (s.proc p).pagetable addr (pages length) true)
    Kern.when (a.len = 0) (setVma p i { a with used := false })
    pure 0

end

end Yyds.Kernel
