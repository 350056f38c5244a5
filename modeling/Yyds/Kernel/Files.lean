import Yyds.Kernel.Sys

/-! The open files of the processes: the file table, the descriptors and the mapped files. -/
namespace Yyds.Files

open Lib Mm Kernel Function

/-- open files per process -/
def NOFILE : Nat := 16
/-- open files per system -/
def NFILE : Nat := 100

def O_WRONLY : BitVec 32 := 0x001
def O_RDWR : BitVec 32 := 0x002

/-- `struct proc`, as far as files go; `ofile` holds numbers of files. -/
structure FProc where
  state : ProcState
  sz : Nat
  ofile : Fin NOFILE → Option Nat
  vma : Fin NVMA → VmArea

/-- `ftable` and the processes. -/
structure FileSys where
  ref : Nat → Int
  writable : Nat → Bool
  proc : ProcId → FProc
  initproc : ProcId

def FileSys.setProc (s : FileSys) (p : ProcId) (f : FProc → FProc) : FileSys :=
  { s with proc := update s.proc p (f (s.proc p)) }

def setRef (f : Nat) (n : Int) : Kern FileSys Unit :=
  Kern.modify fun s => { s with ref := update s.ref f n }

def setWritable (f : Nat) (w : Bool) : Kern FileSys Unit :=
  Kern.modify fun s => { s with writable := update s.writable f w }

def setOfile (p : ProcId) (fd : Fin NOFILE) (f : Option Nat) : Kern FileSys Unit :=
  Kern.modify fun s => s.setProc p fun pr => { pr with ofile := update pr.ofile fd f }

def setVma (p : ProcId) (i : Fin NVMA) (a : VmArea) : Kern FileSys Unit :=
  Kern.modify fun s => s.setProc p fun pr => { pr with vma := update pr.vma i a }

/-! ### The file table -/

def filealloc : Kern FileSys (Option Nat) := do
  let s ← Kern.get
  match (List.range NFILE).find? fun f => s.ref f = 0 with
  | none => pure none
  | some f => do
    setRef f 1
    pure (some f)

def filedup (f : Nat) : Kern FileSys Unit := do
  let s ← Kern.get
  Kern.when (s.ref f < 1) (Kern.panic "filedup")
  setRef f (int (s.ref f + 1))

/-- What a closed file was (a pipe, an inode, a socket) does not matter for the references. -/
def fileclose (f : Nat) : Kern FileSys Unit := do
  let s ← Kern.get
  Kern.when (s.ref f < 1) (Kern.panic "fileclose")
  setRef f (int (s.ref f - 1))

/-- The slot of a descriptor number. -/
def slotOf (fd : Int) : Option (Fin NOFILE) :=
  if h : 0 ≤ fd ∧ fd < NOFILE then some ⟨fd.toNat, by omega⟩ else none

def argfd (pr : FProc) (fd : Int) : Option (Fin NOFILE × Nat) :=
  (slotOf fd).bind fun i => (pr.ofile i).map (i, ·)

def fdalloc (p : ProcId) (f : Nat) : Kern FileSys (Option (Fin NOFILE)) := do
  let s ← Kern.get
  match (List.finRange NOFILE).find? fun fd => (s.proc p).ofile fd = none with
  | none => pure none
  | some fd => do
    setOfile p fd (some f)
    pure (some fd)

/-! ### System calls -/

def sys_dup (p : ProcId) (fd : Int) : Kern FileSys Int := do
  let s ← Kern.get
  match argfd (s.proc p) fd with
  | none => pure (-1)
  | some (_, f) =>
    match ← fdalloc p f with
    | none => pure (-1)
    | some fd => do
      filedup f
      pure fd.val

def sys_close (p : ProcId) (fd : Int) : Kern FileSys Int := do
  let s ← Kern.get
  match argfd (s.proc p) fd with
  | none => pure (-1)
  | some (i, f) => do
    setOfile p i none
    fileclose f
    pure 0

/-- The descriptor `newfd` is closed, but the new one is the first free one. -/
def sys_dup_new (p : ProcId) (fd newfd : Int) : Kern FileSys Int := do
  let s ← Kern.get
  match argfd (s.proc p) fd with
  | none => pure (-1)
  | some (_, f) =>
    match slotOf newfd with
    | none => pure (-1)
    | some i => do
      match (s.proc p).ofile i with
      | none => pure ()
      | some g => fileclose g
      match ← fdalloc p f with
      | none => pure (-1)
      | some fd => do
        filedup f
        pure fd.val

def sys_dup2 (p : ProcId) (oldfd newfd : Int) : Kern FileSys Int := do
  let s ← Kern.get
  match slotOf oldfd, slotOf newfd with
  | some i, some j =>
    match (s.proc p).ofile i with
    | none => pure (-1)
    | some f =>
      if oldfd = newfd then pure newfd
      else do
        match (s.proc p).ofile j with
        | none => pure ()
        | some g => fileclose g
        setOfile p j (some f)
        filedup f
        pure newfd
  | _, _ => pure (-1)

/-- `found`: the path leads to an inode that may be opened with this mode. -/
def sys_open (p : ProcId) (found : Bool) (omode : BitVec 32) : Kern FileSys Int :=
  if found then do
    match ← filealloc with
    | none => pure (-1)
    | some f =>
      match ← fdalloc p f with
      | none => do
        fileclose f
        pure (-1)
      | some fd => do
        setWritable f (allows omode O_WRONLY || allows omode O_RDWR)
        pure fd.val
  else pure (-1)

/-- `mem`: there is a page for the pipe. -/
def pipealloc (mem : Bool) : Kern FileSys (Option (Nat × Nat)) := do
  match ← filealloc with
  | none => pure none
  | some f0 =>
    match ← filealloc with
    | none => do
      fileclose f0
      pure none
    | some f1 =>
      if mem then do
        setWritable f0 false
        setWritable f1 true
        pure (some (f0, f1))
      else do
        fileclose f0
        fileclose f1
        pure none

/-- `copied`: both numbers could be copied to the user. -/
def sys_pipe (p : ProcId) (mem copied : Bool) : Kern FileSys Int := do
  match ← pipealloc mem with
  | none => pure (-1)
  | some (rf, wf) =>
    match ← fdalloc p rf with
    | none => do
      fileclose rf
      fileclose wf
      pure (-1)
    | some fd0 =>
      match ← fdalloc p wf with
      | none => do
        setOfile p fd0 none
        fileclose rf
        fileclose wf
        pure (-1)
      | some fd1 =>
        if copied then pure 0
        else do
          setOfile p fd0 none
          setOfile p fd1 none
          fileclose rf
          fileclose wf
          pure (-1)

/-- The descriptor `i` of a child. -/
def forkFile (p np : ProcId) (i : Fin NOFILE) : Kern FileSys Unit := do
  let s ← Kern.get
  match (s.proc p).ofile i with
  | none => pure ()
  | some f => do
    filedup f
    setOfile np i (some f)

/-- The mapped file `i` of a child. -/
def forkVma (p np : ProcId) (i : Fin NVMA) : Kern FileSys Unit := do
  let s ← Kern.get
  Kern.when (((s.proc p).vma i).used = true) do
    setVma np i ((s.proc p).vma i)
    filedup ((s.proc p).vma i).vfile

/-- `alloc`: `allocproc` gets its pages; `copy`: `uvmcopy` does. The result is the child. -/
def fork (p : ProcId) (alloc copy : Bool) : Kern FileSys (Option ProcId) := do
  let s ← Kern.get
  match (List.finRange NPROC).find? fun q => (s.proc q).state = .UNUSED with
  | none => pure none
  | some np =>
    if alloc then do
      Kern.modify fun s => s.setProc np fun pr => { pr with vma := fun _ => VmArea.unused }
      if copy then do
        Kern.modify fun s => s.setProc np fun pr => { pr with sz := (s.proc p).sz }
        Kern.forEach (List.finRange NOFILE) (forkFile p np)
        Kern.forEach (List.finRange NVMA) (forkVma p np)
        Kern.modify fun s => s.setProc np fun pr => { pr with state := .RUNNABLE }
        pure (some np)
      else pure none
    else pure none

def exitFile (p : ProcId) (fd : Fin NOFILE) : Kern FileSys Unit := do
  let s ← Kern.get
  match (s.proc p).ofile fd with
  | none => pure ()
  | some f => do
    fileclose f
    setOfile p fd none

def exitVma (p : ProcId) (i : Fin NVMA) : Kern FileSys Unit := do
  let s ← Kern.get
  Kern.when (((s.proc p).vma i).used = true) do
    fileclose ((s.proc p).vma i).vfile
    setVma p i { (s.proc p).vma i with used := false }

def exit (p : ProcId) : Kern FileSys Unit := do
  let s ← Kern.get
  if p = s.initproc then Kern.panic "init exiting"
  else
    Kern.forEach (List.finRange NOFILE) (exitFile p)
    Kern.forEach (List.finRange NVMA) (exitVma p)
    Kern.modify fun s => s.setProc p fun pr => { pr with state := .ZOMBIE }

/-- A parent finds the child `q`. -/
def reap (q : ProcId) : Kern FileSys Unit := do
  let s ← Kern.get
  Kern.when ((s.proc q).state = .ZOMBIE)
    (Kern.modify fun s => s.setProc q fun pr => { pr with state := .UNUSED, sz := 0 })

def sys_mmap (p : ProcId) (addr : Nat) (length : Int) (prot : BitVec 32) (flags fd offset : Int) :
    Kern FileSys (Option Nat) := do
  let s ← Kern.get
  let pr := s.proc p
  match argfd pr fd with
  | none => pure none
  | some (_, vfile) =>
    match mmapSlot pr.vma pr.sz (s.writable vfile) addr length prot flags offset with
    | none => pure none
    | some i => do
      setVma p i ⟨true, pr.sz, length, prot, flags, vfile, offset⟩
      filedup vfile
      Kern.modify fun s =>
        s.setProc p fun pr => { pr with sz := (pr.sz + uint64 length) % 2 ^ 64 }
      pure (some pr.sz)

/-- Neither the write-back nor the page table matters for the references. -/
def sys_munmap (p : ProcId) (addr : Nat) (length : Int) : Kern FileSys Int := do
  let s ← Kern.get
  match findCut (s.proc p).vma addr length with
  | none => pure (-1)
  | some (i, a) => do
    setVma p i a
    Kern.when (a.len = 0) do
      fileclose a.vfile
      setVma p i { a with used := false }
    pure 0

/-! ### Runs -/

inductive Call
  | opens (found : Bool) (omode : BitVec 32)
  | close (fd : Int)
  | dup (fd : Int)
  | dup_new (fd newfd : Int)
  | dup2 (oldfd newfd : Int)
  | pipe (mem copied : Bool)
  | fork (alloc copy : Bool)
  | exit
  | wait (q : ProcId)
  | mmap (addr : Nat) (length : Int) (prot : BitVec 32) (flags fd offset : Int)
  | munmap (addr : Nat) (length : Int)
  | resize (sz : Nat)

/-- `resize` is any call that changes `p->sz` only. -/
def Call.run (p : ProcId) : Call → Kern FileSys Unit
  | opens found omode => sys_open p found omode >>= fun _ => pure ()
  | close fd => sys_close p fd >>= fun _ => pure ()
  | dup fd => sys_dup p fd >>= fun _ => pure ()
  | dup_new fd newfd => sys_dup_new p fd newfd >>= fun _ => pure ()
  | dup2 oldfd newfd => sys_dup2 p oldfd newfd >>= fun _ => pure ()
  | pipe mem copied => sys_pipe p mem copied >>= fun _ => pure ()
  | fork alloc copy => Files.fork p alloc copy >>= fun _ => pure ()
  | exit => Files.exit p
  | wait q => reap q
  | mmap addr length prot flags fd offset =>
    sys_mmap p addr length prot flags fd offset >>= fun _ => pure ()
  | munmap addr length => sys_munmap p addr length >>= fun _ => pure ()
  | resize sz => Kern.modify fun s => s.setProc p fun pr => { pr with sz := sz }

def FProc.Active (pr : FProc) : Prop := pr.state ≠ .UNUSED ∧ pr.state ≠ .ZOMBIE
  deriving Decidable

def FileSys.next (s : FileSys) (x : ProcId × Call) : Option FileSys :=
  if (s.proc x.1).Active then
    match x.2.run x.1 s with
    | .ok (_, t) => some t
    | .error _ => none
  else none

def FileSys.Steps (s : FileSys) (x : ProcId × Call) (t : FileSys) : Prop := s.next x = some t

def FProc.empty : FProc := ⟨.UNUSED, 0, fun _ => none, fun _ => VmArea.unused⟩

/-- No file is open, and only the first process is there. -/
def FileSys.boot (initproc : ProcId) : FileSys where
  ref _ := 0
  writable _ := false
  proc p := if p = initproc then { FProc.empty with state := .RUNNABLE } else .empty
  initproc := initproc

end Yyds.Files
