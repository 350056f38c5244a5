import Yyds.Kernel.Buffers
import Yyds.Kernel.Files

/-! `sys_access` and `sys_chmod` beside the tests of the mode in `fileread` and `filewrite`. -/
namespace Yyds.FileMode

open Kernel Mm
open Files (O_WRONLY O_RDWR)

def O_TRUNC : BitVec 32 := 0x400
def F_OK : BitVec 32 := 0
def X_OK : BitVec 32 := 1
def W_OK : BitVec 32 := 2
def R_OK : BitVec 32 := 4

/-- A descriptor that is open on the file. -/
structure Fd where
  readable : Bool
  writable : Bool
  off : Nat

/-- The devices that a device file may stand for. -/
inductive Device
  | console (c : Console) (later : List (Console × Bool)) (out : List Byte)
  | other

structure File where
  device : Option Device
  mode : BitVec 8
  data : List Byte
  fds : List Fd

namespace File

/-- What `ialloc` leaves. -/
def create (device : Option Device) : File := ⟨device, 3, [], []⟩

def object (s : File) (off : Nat) : Object :=
  match s.device with
  | none => .inode s.mode s.data off
  | some (.console c later out) => .console c later out
  | some .other => .device

/-- `sys_access` for a path that leads to the file -/
def sys_access (s : File) (mode : BitVec 32) : Int :=
  if mode = F_OK then 0
  else if mode &&& R_OK ≠ 0 ∧ s.mode &&& 4 = 0 then -1
  else if mode &&& W_OK ≠ 0 ∧ s.mode &&& 2 = 0 then -1
  else if mode &&& X_OK ≠ 0 ∧ s.mode &&& 1 = 0 then -1
  else 0

def sys_chmod (s : File) (mode : BitVec 32) : File := { s with mode := mode.setWidth 8 }

def sys_open (s : File) (omode : BitVec 32) : File :=
  { s with
    data := if omode &&& O_TRUNC ≠ 0 ∧ s.device.isNone then [] else s.data
    fds := s.fds ++ [⟨omode &&& O_WRONLY = 0, omode &&& O_WRONLY ≠ 0 ∨ omode &&& O_RDWR ≠ 0, 0⟩] }

/-- What `fileread` or `filewrite` through the descriptor `i` has made of the file. -/
def put (s : File) (i : Nat) : Outcome → File
  | some (_, .inode _ data off) => { s with data, fds := s.fds.modify i fun fd => { fd with off } }
  | _ => s

end File

/-- A call on the file; reads and writes with what they return. -/
inductive Op
  | chmod (mode : BitVec 32)
  | openWith (omode : BitVec 32)
  | read (i : Nat) (r : Outcome)
  | write (i : Nat) (r : Outcome)
  | access (mode : BitVec 32)

def File.next (s : File) : Op → File
  | .chmod mode => s.sys_chmod mode
  | .openWith omode => s.sys_open omode
  | .read i r | .write i r => s.put i r
  | .access _ => s

/-- `fileread` has no permission to read. -/
def ReadRefused (f : OpenFile) : Prop :=
  ∃ mode data off, f.object = .inode mode data off ∧ mode &&& 1 = 0

/-- `filewrite` of `n` bytes has no permission to write. -/
def WriteRefused (f : OpenFile) (n : Nat) : Prop :=
  n ≠ 0 ∧ ∃ mode data off, f.object = .inode mode data off ∧ mode &&& 2 = 0

section
variable {f : OpenFile} {mode : BitVec 8} {data : List Byte} {off addr n : Nat} {killed : Bool}
  (hf : f.object = .inode mode data off)
include hf

/-- A readable descriptor of an inode is refused exactly if `fileread` returns -1 at once. -/
theorem readRefused_iff_fileread (hr : f.readable = true) :
    ReadRefused f ↔ fileread f killed addr n = .done (some (-1, f.object)) := by
  have hmode : ReadRefused f ↔ mode &&& 1 = 0 := by simp [ReadRefused, hf]
  rw [hmode, fileread, hf, if_neg (by simp [hr])]
  dsimp only
  split
  · exact iff_of_true ‹_› rfl
  · refine iff_of_false ‹_› fun h => ?_
    cases hread : readiUser data addr off n <;> rw [hread] at h <;> cases h

/-- The same for a write that is not behind the end of the file. -/
theorem writeRefused_iff_filewrite (hw : f.writable = true) (hn : n ≠ 0) (hoff : off ≤ data.length)
    (hmax : off + n ≤ MAXFILE * BSIZE) :
    WriteRefused f n ↔ filewriteUser f killed addr n = .done (some (-1, f.object)) := by
  have hmode : WriteRefused f n ↔ mode &&& 2 = 0 := by simp [WriteRefused, hf, hn]
  rw [hmode, filewriteUser, hf, if_neg (by simp [hw])]
  dsimp only
  rw [if_neg hn]
  split
  · exact iff_of_true ‹_› rfl
  · obtain ⟨k, rfl⟩ := Nat.exists_eq_succ_of_ne_zero hn
    have hpos : filewriteMax = 3072 := rfl
    have hfile : MAXFILE * BSIZE < 2 ^ 32 := by decide
    obtain ⟨j, hj⟩ := Nat.exists_eq_succ_of_ne_zero (n := min (k + 1 - 0) filewriteMax) (by omega)
    refine iff_of_false ‹_› fun h => ?_
    rw [filewriteLoop, if_pos (by omega), writeiUser, if_neg (by omega), if_neg (by omega), hj] at h
    cases h

end

variable {s : File} {off : Nat}

theorem readRefused_iff {r w : Bool} :
    ReadRefused ⟨r, w, s.object off⟩ ↔ s.device = none ∧ s.mode &&& 1 = 0 := by
  unfold ReadRefused File.object
  split <;> simp_all

theorem writeRefused_iff {r w : Bool} {n : Nat} :
    WriteRefused ⟨r, w, s.object off⟩ n ↔ n ≠ 0 ∧ s.device = none ∧ s.mode &&& 2 = 0 := by
  unfold WriteRefused File.object
  split <;> simp_all

theorem access_read : s.sys_access R_OK = 0 ↔ s.mode &&& 4 ≠ 0 := by
  simp [File.sys_access, F_OK, R_OK, W_OK, X_OK]

theorem access_write : s.sys_access W_OK = 0 ↔ s.mode &&& 2 ≠ 0 := by
  simp [File.sys_access, F_OK, R_OK, W_OK, X_OK]

/-- After any calls, `access` agrees with a read if and only if bits 0 and 2 of the mode agree, or
bit 2 is set for a device, and with a write of some bytes to an inode. -/
theorem access_agrees_iff (device : Option Device) (as : List Op) (r w : Bool) (off n : Nat) :
    let s := as.foldl File.next (.create device)
    ((s.sys_access R_OK = 0 ↔ ¬ ReadRefused ⟨true, w, s.object off⟩) ↔
      if s.device = none then s.mode &&& 1 = 0 ↔ s.mode &&& 4 = 0 else s.mode &&& 4 ≠ 0) ∧
    ((s.sys_access W_OK = 0 ↔ ¬ WriteRefused ⟨r, true, s.object off⟩ n) ↔
      s.mode &&& 2 ≠ 0 ∨ n ≠ 0 ∧ s.device = none) := by
  intro s
  rw [access_read, access_write, readRefused_iff, writeRefused_iff]
  constructor
  · split <;> grind
  · grind

/-- A new file is read without permission, and after `chmod(path, 4)` it has a permission that is
not enough. -/
theorem new_file_denies_access :
    (let s := [Op.openWith O_RDWR].foldl File.next (.create none)
    s.sys_access R_OK = -1 ∧ ¬ ReadRefused ⟨true, true, s.object 0⟩) ∧
    let s := [Op.openWith O_RDWR, .chmod 4].foldl File.next (.create none)
    s.sys_access R_OK = 0 ∧ ReadRefused ⟨true, true, s.object 0⟩ := by
  simp only [readRefused_iff]
  decide

end Yyds.FileMode
