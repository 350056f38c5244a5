import Yyds.Lib.Run

/-! `sys_open`: which inodes become open files, through any chain of symbolic links. -/
namespace Yyds.OpenLinks

open Lib

def O_RDONLY : BitVec 32 := 0
def O_WRONLY : BitVec 32 := 1
def O_RDWR : BitVec 32 := 2
def O_NOFOLLOW : BitVec 32 := 4
def O_CREATE : BitVec 32 := 0x200
def NDEV : Int := 10
def MAX_SYMLINK_DEPTH : Nat := 10

inductive FileType
  | free
  | T_DIR
  | T_FILE
  | T_DEVICE
  | T_SYMLINK
  deriving DecidableEq

abbrev Path := List (BitVec 8)

/-- `target` is the path in a symbolic link, if `readi` reads `MAXPATH` bytes. -/
structure Inode where
  type : FileType
  major : Int
  target : Option Path

/-- `parent` tells for which paths `nameiparent` finds a directory. -/
structure Fs where
  inode : Nat → Inode
  namei : Path → Option Nat
  parent : Path → Bool

/-- `device` is `major` of a file of type `FD_DEVICE`; the others are of type `FD_INODE`. -/
structure File where
  ip : Nat
  device : Option Int
  readable : Bool
  writable : Bool

structure Sys where
  fs : Fs
  files : List File

/-! ### The code -/

namespace Fs

/-- `create(path, T_FILE, 0, 0)`, where `ialloc` would return `inum`. -/
def create (fs : Fs) (path : Path) (inum : Nat) : Option (Nat × Fs) :=
  if fs.parent path = false then none
  else
    match fs.namei path with
    | some ip =>
      if (fs.inode ip).type = .T_FILE ∨ (fs.inode ip).type = .T_DEVICE then some (ip, fs) else none
    | none =>
      -- without a free inode `create` panics
      if (fs.inode inum).type = .free then
        some (inum, { fs with
          inode := Function.update fs.inode inum ⟨.T_FILE, 0, none⟩
          namei := Function.update fs.namei path (some inum) })
      else none

/-- The loop that follows symbolic links, with `n` rounds to go. -/
def follow (fs : Fs) : Nat → Nat → Option Nat
  | 0, _ => none
  | n + 1, ip => (fs.inode ip).target.bind fun path => (fs.namei path).bind fun ip =>
    if (fs.inode ip).type = .T_SYMLINK then fs.follow n ip else some ip

/-- `namei` with the test for directories, or `create` -/
def found (fs : Fs) (path : Path) (omode : BitVec 32) (inum : Nat) : Option (Nat × Fs) :=
  if omode &&& O_CREATE ≠ 0 then fs.create path inum
  else (fs.namei path).bind fun ip =>
    if (fs.inode ip).type = .T_DIR ∧ omode ≠ O_RDONLY then none else some (ip, fs)

/-- `sys_open` up to `filealloc`: the inode that is opened. -/
def resolve (fs : Fs) (path : Path) (omode : BitVec 32) (inum : Nat) : Option (Nat × Fs) :=
  (fs.found path omode inum).bind fun (ip, fs) =>
    let i := fs.inode ip
    if i.type = .T_DEVICE ∧ (i.major < 0 ∨ NDEV ≤ i.major) then none
    else if i.type = .T_SYMLINK ∧ omode &&& O_NOFOLLOW = 0 then
      (fs.follow MAX_SYMLINK_DEPTH ip).map (·, fs)
    else some (ip, fs)

/-- The open file for the inode `ip` -/
def file (fs : Fs) (ip : Nat) (omode : BitVec 32) : File :=
  { ip
    device := if (fs.inode ip).type = .T_DEVICE then some (fs.inode ip).major else none
    readable := omode &&& O_WRONLY = 0
    writable := omode &&& O_WRONLY ≠ 0 ∨ omode &&& O_RDWR ≠ 0 }

end Fs

/-- `full` tells that `filealloc` or `fdalloc` fails. Other calls change the file system, but not
the type of an inode that is open. -/
inductive Act
  | opens (path : Path) (omode : BitVec 32) (inum : Nat) (full : Bool)
  | close (f : Nat)
  | change (fs : Fs)

def step (s : Sys) : Act → Option Sys
  | .opens path omode inum full =>
    match s.fs.resolve path omode inum with
    | none => some s
    | some (ip, fs) => some ⟨fs, if full then s.files else fs.file ip omode :: s.files⟩
  | .close f => some { s with files := s.files.eraseIdx f }
  | .change fs =>
    if ∀ f ∈ s.files, (fs.inode f.ip).type = (s.fs.inode f.ip).type then some { s with fs := fs }
    else none

/-! ### Directories and devices -/

def File.Safe (fs : Fs) (f : File) : Prop :=
  (f.writable → (fs.inode f.ip).type ≠ .T_DIR) ∧ ∀ m ∈ f.device, 0 ≤ m ∧ m < NDEV

/-- No directory is open for writing, and open devices have a major that exists. -/
def Sys.Safe (s : Sys) : Prop := ∀ f ∈ s.files, f.Safe s.fs

/-- The symbolic link that is followed, if there is one. -/
def Fs.link (fs : Fs) (path : Path) (omode : BitVec 32) : Option Nat :=
  if omode &&& O_CREATE = 0 ∧ omode &&& O_NOFOLLOW = 0 then
    (fs.namei path).filter fun ip => (fs.inode ip).type = .T_SYMLINK
  else none

/-- The path in the link `l` leads to `ip`. -/
def Fs.Points (fs : Fs) (l ip : Nat) : Prop :=
  ∃ path, (fs.inode l).target = some path ∧ fs.namei path = some ip

/-- A chain of at most `n` links leads from `l` to `ip`, which is none. -/
inductive Fs.Ends (fs : Fs) : Nat → Nat → Nat → Prop
  | last {n l ip : Nat} : fs.Points l ip → (fs.inode ip).type ≠ .T_SYMLINK → fs.Ends (n + 1) l ip
  | next {n l m ip : Nat} : fs.Points l m → (fs.inode m).type = .T_SYMLINK → fs.Ends n m ip →
      fs.Ends (n + 1) l ip

/-- A directory is opened only without the bits for writing, and a device has a driver table
entry. -/
def Fs.Allows (fs : Fs) (ip : Nat) (omode : BitVec 32) : Prop :=
  ((fs.inode ip).type = .T_DIR → omode &&& O_WRONLY = 0 ∧ omode &&& O_RDWR = 0) ∧
    ((fs.inode ip).type = .T_DEVICE → 0 ≤ (fs.inode ip).major ∧ (fs.inode ip).major < NDEV)

/-- A chain of links that is followed does not end at a directory that is opened for writing or at
a device without driver table entry. -/
def Clear (s : Sys) : Act → Prop
  | .opens path omode _ full => full = false → ∀ l ∈ s.fs.link path omode,
    ∀ ip, s.fs.Ends MAX_SYMLINK_DEPTH l ip → s.fs.Allows ip omode
  | _ => True

variable {fs fs' : Fs} {path : Path} {omode : BitVec 32} {inum ip l : Nat} {s t : Sys} {a : Act}

theorem ends_iff {n : Nat} : fs.Ends n l ip ↔ fs.follow n l = some ip := by
  refine ⟨fun h => ?_, fun h => ?_⟩
  · induction h with
    | last hp ht =>
      obtain ⟨path, htarget, hname⟩ := hp
      simp [Fs.follow, htarget, hname, ht]
    | next hp ht _ ih =>
      obtain ⟨path, htarget, hname⟩ := hp
      simpa [Fs.follow, htarget, hname, ht] using ih
  · induction n generalizing l with
    | zero => cases h
    | succ n ih =>
      obtain ⟨path, htarget, h⟩ := Option.bind_eq_some_iff.mp h
      obtain ⟨m, hname, h⟩ := Option.bind_eq_some_iff.mp h
      split_ifs at h with ht
      · exact .next ⟨path, htarget, hname⟩ ht (ih h)
      · cases h
        exact .last ⟨path, htarget, hname⟩ ht

theorem file_safe_iff : (fs.file ip omode).Safe fs ↔ fs.Allows ip omode := by
  simp only [File.Safe, Fs.file, Fs.Allows, Option.mem_def, Option.ite_none_right_eq_some,
    Option.some.injEq, and_imp]
  grind

/-- A new file does no harm to those that are open. -/
theorem create_cases (h : fs.create path inum = some (ip, fs')) :
    (∀ f : File, f.Safe fs → f.Safe fs') ∧
      ((fs'.inode ip).type = .T_FILE ∨ (fs'.inode ip).type = .T_DEVICE) := by
  obtain ⟨-, h⟩ := Option.ite_none_left_eq_some.mp h
  split at h
  · obtain ⟨htype, heq⟩ := Option.ite_none_right_eq_some.mp h
    cases heq
    exact ⟨fun _ => id, htype⟩
  obtain ⟨-, heq⟩ := Option.ite_none_right_eq_some.mp h
  cases heq
  refine ⟨fun f hf => ⟨fun hw => ?_, hf.2⟩, .inl (by simp)⟩
  by_cases hip : f.ip = inum
  · simp [hip]
  · simpa [hip] using hf.1 hw

theorem found_cases (h : fs.found path omode inum = some (ip, fs')) :
    (∀ f : File, f.Safe fs → f.Safe fs') ∧ ((fs'.inode ip).type = .T_DIR → omode = O_RDONLY) ∧
      ((fs'.inode ip).type = .T_SYMLINK → omode &&& O_NOFOLLOW = 0 →
        fs.link path omode = some ip) := by
  unfold Fs.found at h
  split_ifs at h with hcreate
  · obtain ⟨hsafe, htype⟩ := create_cases h
    refine ⟨hsafe, fun hd => ?_, fun hs => ?_⟩
    · rcases htype with ht | ht <;> cases ht.symm.trans hd
    · rcases htype with ht | ht <;> cases ht.symm.trans hs
  · obtain ⟨x, hname, h⟩ := Option.bind_eq_some_iff.mp h
    obtain ⟨hdir, heq⟩ := Option.ite_none_left_eq_some.mp h
    cases heq
    refine ⟨fun _ => id, fun hd => ?_, fun hs hf => ?_⟩
    · by_contra hne
      exact hdir ⟨hd, hne⟩
    · rw [Fs.link, if_pos ⟨not_not.mp hcreate, hf⟩, hname, Option.filter_some, if_pos (by simpa)]

theorem resolve_of_link (h : fs.link path omode = some l) :
    fs.resolve path omode inum = (fs.follow MAX_SYMLINK_DEPTH l).map (·, fs) := by
  obtain ⟨⟨hcreate, hfollow⟩, h⟩ := Option.ite_none_right_eq_some.mp h
  obtain ⟨hname, htype⟩ := Option.filter_eq_some_iff.mp h
  simp only [decide_eq_true_eq] at htype
  simp [Fs.resolve, Fs.found, hcreate, hfollow, hname, htype]

/-- What is opened without following a link has passed the tests. -/
theorem resolve_safe (hlink : fs.link path omode = none)
    (h : fs.resolve path omode inum = some (ip, fs')) :
    (fs'.file ip omode).Safe fs' ∧ ∀ f : File, f.Safe fs → f.Safe fs' := by
  obtain ⟨⟨x, fs1⟩, hfound, h⟩ := Option.bind_eq_some_iff.mp h
  obtain ⟨hsafe, hdir, hsym⟩ := found_cases hfound
  dsimp only at h
  split_ifs at h with hdev hfollow
  · rw [hsym hfollow.1 hfollow.2] at hlink
    cases hlink
  · cases h
    refine ⟨file_safe_iff.mpr ⟨fun ht => ?_, fun ht => ?_⟩, hsafe⟩
    · rw [hdir ht]
      decide
    · have hrange := not_and.mp hdev ht
      omega

theorem safe_add_iff {files : List File} {f : File} {full : Bool} (h : ∀ g ∈ files, g.Safe fs) :
    Sys.Safe ⟨fs, if full then files else f :: files⟩ ↔ (full = false → f.Safe fs) := by
  cases full with
  | true => exact ⟨fun _ hf => absurd hf (by decide), fun _ => h⟩
  | false => exact ⟨fun hs _ => hs f List.mem_cons_self, fun hf => List.forall_mem_cons.mpr ⟨hf rfl, h⟩⟩

theorem safe_iff_clear (h : s.Safe) (hstep : step s a = some t) : t.Safe ↔ Clear s a := by
  cases a with
  | opens path omode inum full =>
    simp only [step] at hstep
    cases hl : s.fs.link path omode with
    | some l =>
      rw [resolve_of_link hl] at hstep
      cases hf : s.fs.follow MAX_SYMLINK_DEPTH l with
      | none =>
        rw [hf] at hstep
        cases hstep
        exact ⟨fun _ => by simp [Clear, hl, ends_iff, hf], fun _ => h⟩
      | some ip =>
        rw [hf] at hstep
        cases hstep
        refine (safe_add_iff h).trans ?_
        simp [Clear, hl, ends_iff, hf, file_safe_iff]
    | none =>
      refine ⟨fun _ => by simp [Clear, hl], fun _ => ?_⟩
      split at hstep
      · cases hstep
        exact h
      · rename_i hr
        cases hstep
        obtain ⟨hfile, hkeep⟩ := resolve_safe hl hr
        exact (safe_add_iff fun g hg => hkeep g (h g hg)).mpr fun _ => hfile
  | close f =>
    cases hstep
    exact ⟨fun _ => trivial, fun _ g hg => h g (List.mem_of_mem_eraseIdx hg)⟩
  | change fs =>
    obtain ⟨hsame, heq⟩ := Option.ite_none_right_eq_some.mp hstep
    cases heq
    refine ⟨fun _ => trivial, fun _ f hf => ⟨fun hw => ?_, (h f hf).2⟩⟩
    rw [hsame f hf]
    exact (h f hf).1 hw

/-- The runs in which no directory is ever open for writing and every open device has a driver table
entry are those in which no chain of links leads `open` to anything else. -/
theorem open_safe_iff (fs : Fs) (as : List Act) (s : Sys) :
    Run (fun s a t => step s a = some t ∧ t.Safe) ⟨fs, []⟩ as s ↔
      Run (Guarded Clear fun s a t => step s a = some t) ⟨fs, []⟩ as s :=
  Run.right_iff_guarded (fun _ _ _ h hstep => safe_iff_clear h hstep) (fun _ _ _ _ ht => ht)
    fun _ hf => absurd hf List.not_mem_nil

/-- Link 2 leads to the directory 1, and link 4 to the device 3. -/
def linked : Fs where
  inode i := [⟨.free, 0, none⟩, ⟨.T_DIR, 0, none⟩, ⟨.T_SYMLINK, 0, some [1]⟩, ⟨.T_DEVICE, 99, none⟩,
    ⟨.T_SYMLINK, 0, some [3]⟩].getD i ⟨.free, 0, none⟩
  namei path := path.head?.map BitVec.toNat
  parent _ := true

/-- A directory is opened for writing through a link, and so is a device with major 99. -/
theorem open_through_link : ∃ s, Run (fun s a t => step s a = some t) ⟨linked, []⟩
    [.opens [2] O_RDWR 0 false, .opens [4] O_RDONLY 0 false] s ∧
      ∃ d m, s.files = [m, d] ∧ d.writable ∧ (s.fs.inode d.ip).type = .T_DIR ∧ m.device = some 99 :=
  ⟨_, .cons rfl (.cons rfl (.nil _)), _, _, rfl, by decide, by decide, by decide⟩

end Yyds.OpenLinks
