import Yyds.Kernel.Files

/-! `sys_flock` with the file table it works on. The lock is a field of the open file, and
`filealloc` does not clear it. -/
namespace Yyds.Flock

open Lib Files Function

def LOCK_SH : BitVec 32 := 1
def LOCK_EX : BitVec 32 := 2
def LOCK_UN : BitVec 32 := 4

inductive FdType
  | FD_NONE
  | FD_PIPE
  | FD_INODE
  | FD_DEVICE
  | FD_SOCK
  deriving DecidableEq

/-- `struct file`, as far as locks go. -/
structure File where
  type : FdType
  ref : Nat
  ip : Nat
  lock_type : BitVec 32

/-- `ftable.file`, read at indices below `NFILE`. -/
abbrev Table := Nat → File

def boot : Table := fun _ => ⟨.FD_NONE, 0, 0, 0⟩

/-! ### The code -/

/-- What is requested. -/
def request (operation : BitVec 32) : BitVec 32 := operation &&& (LOCK_SH ||| LOCK_EX ||| LOCK_UN)

/-- `sys_flock` on its file; with `LOCK_NB` and without, what cannot be had is refused. -/
def File.flock (f : File) (operation : BitVec 32) : Int × File :=
  if f.type ≠ .FD_INODE then (-1, f)
  else if request operation = LOCK_UN then (0, { f with lock_type := 0 })
  else if request operation = LOCK_SH then
    if f.lock_type = LOCK_EX then (-1, f) else (0, { f with lock_type := LOCK_SH })
  else if request operation = LOCK_EX then
    if f.lock_type ≠ 0 then (-1, f) else (0, { f with lock_type := LOCK_EX })
  else (0, f)

/-- The reference count goes down, and the file is closed with the last one. -/
def File.close (f : File) : File :=
  if 1 < f.ref then { f with ref := f.ref - 1 } else { f with ref := 0, type := .FD_NONE }

def filealloc (s : Table) : Option Nat :=
  (List.range NFILE).find? fun f => (s f).ref = 0

/-- A file is opened, with `FD_INODE` for regular files and directories; `dup` also stands for
`fork`, and a file that has no descriptor cannot be named. -/
inductive Act
  | opens (type : FdType) (ip : Nat)
  | dup (f : Nat)
  | close (f : Nat)
  | flock (f : Nat) (operation : BitVec 32)

def step (s : Table) : Act → Option Table
  | .opens type ip =>
    match filealloc s with
    | none => some s
    | some f => some (update s f { s f with ref := 1, type := type, ip := ip })
  | .dup f =>
    if (s f).ref = 0 then none
    else some (update s f { s f with ref := (s f).ref + 1 })
  | .close f => if (s f).ref = 0 then none else some (update s f (s f).close)
  | .flock f operation =>
    if (s f).ref = 0 then none else some (update s f ((s f).flock operation).2)

/-! ### Exclusion -/

def File.Open (f : File) : Prop := f.ref ≠ 0 ∧ f.type = .FD_INODE

/-- What two holders may have: nothing goes with an exclusive lock. -/
def Compatible (m n : BitVec 32) : Prop := (m = LOCK_EX → n = 0) ∧ (n = LOCK_EX → m = 0)

/-- Two open files of one inode with locks that exclude each other. -/
def Clash (f g : File) : Prop :=
  f.Open ∧ g.Open ∧ f.ip = g.ip ∧ ¬ Compatible f.lock_type g.lock_type

def Exclusive (s : Table) : Prop := ∀ f g, f ≠ g → ¬ Clash (s f) (s g)

/-- What a step must do: locks still exclude each other, a file that is opened has none, and unlock
clears the lock of its file and changes no other one. -/
def Right (s : Table) (a : Act) (t : Table) : Prop := Exclusive t ∧ match a with
  | .opens type _ => type = .FD_INODE → ∀ f ∈ filealloc s, (t f).lock_type = 0
  | .flock f operation => request operation = LOCK_UN →
    ((s f).type = .FD_INODE → (t f).lock_type = 0) ∧ ∀ g ≠ f, t g = s g
  | _ => True

/-- The lock that `f` has allows the request, and that of `g`, another open file of the inode, does
not: an exclusive one for `LOCK_SH`, any one for `LOCK_EX`. -/
def Intrudes (f : File) (operation : BitVec 32) (g : File) : Prop :=
  f.Open ∧ g.Open ∧ f.ip = g.ip ∧
    (request operation = LOCK_SH ∧ f.lock_type ≠ LOCK_EX ∧ g.lock_type = LOCK_EX ∨
      request operation = LOCK_EX ∧ f.lock_type = 0 ∧ g.lock_type ≠ 0)

/-- The entry that a file gets was left without a lock, and a lock is asked for only if no other
open file of the inode has one that excludes it. -/
def Clean (s : Table) : Act → Prop
  | .opens type _ => type = .FD_INODE → ∀ f ∈ filealloc s, (s f).lock_type = 0
  | .flock f operation => ∀ g ≠ f, ¬ Intrudes (s f) operation (s g)
  | _ => True

variable {s t : Table} {f : Nat} {x : File} {a : Act}

theorem Clash.symm {f g : File} (h : Clash f g) : Clash g f :=
  ⟨h.2.1, h.1, h.2.2.1.symm, fun hc => h.2.2.2 ⟨hc.2, hc.1⟩⟩

theorem clash_flock_iff {f g : File} {operation : BitVec 32} (h : ¬ Clash f g) :
    Clash (f.flock operation).2 g ↔ Intrudes f operation g := by
  unfold File.flock
  split
  · grind [Clash, Intrudes, File.Open]
  split
  · grind [Clash, Intrudes, Compatible, LOCK_SH, LOCK_EX, LOCK_UN]
  split
  · split <;> grind [Clash, Intrudes, Compatible, File.Open, LOCK_SH, LOCK_EX]
  split
  · split <;> grind [Clash, Intrudes, Compatible, File.Open, LOCK_SH, LOCK_EX]
  · grind [Clash, Intrudes]

theorem exclusive_update_iff (h : Exclusive s) :
    Exclusive (update s f x) ↔ ∀ g ≠ f, ¬ Clash x (s g) := by
  refine ⟨fun ht g hg hc => ?_, fun hx i j hij => ?_⟩
  · apply ht f g hg.symm
    rwa [update_self, update_of_ne hg]
  · by_cases hi : i = f
    · subst hi
      rw [update_self, update_of_ne hij.symm]
      exact hx j hij.symm
    rw [update_of_ne hi]
    by_cases hj : j = f
    · subst hj
      rw [update_self]
      exact fun hc => hx i hi hc.symm
    · rw [update_of_ne hj]
      exact h i j hij

/-- Nothing is wrong with a file that is as it was, or that is closed. -/
theorem Exclusive.keep (h : Exclusive s)
    (hx : x.Open → (s f).Open ∧ x.ip = (s f).ip ∧ x.lock_type = (s f).lock_type) :
    Exclusive (update s f x) := by
  rw [exclusive_update_iff h]
  rintro g hg ⟨hopen, hg', hip, hc⟩
  obtain ⟨ho, hi, hl⟩ := hx hopen
  exact h f g hg.symm ⟨ho, hg', hi ▸ hip, hl ▸ hc⟩

theorem right_iff_clean (h : Exclusive s) (hstep : step s a = some t) :
    Right s a t ↔ Clean s a := by
  cases a with
  | opens type ip =>
    cases hf : filealloc s with
    | none =>
      simp only [step, hf, Option.some.injEq] at hstep
      subst hstep
      simp [Right, Clean, hf, h]
    | some f =>
      simp only [step, hf, Option.some.injEq] at hstep
      subst hstep
      simp only [Right, Clean, hf, Option.mem_def, Option.some.injEq, forall_eq', update_self]
      refine ⟨fun hr => hr.2, fun hl => ⟨?_, hl⟩⟩
      rw [exclusive_update_iff h]
      rintro g - ⟨ho, -, -, hc⟩
      exact hc ⟨fun he => absurd ((hl ho.2).symm.trans he) (by decide), fun _ => hl ho.2⟩
  | dup f =>
    obtain ⟨href, rfl⟩ := Option.ite_none_left_eq_some.mp hstep |>.imp_right Option.some.inj
    refine ⟨fun _ => trivial, fun _ => ⟨h.keep ?_, trivial⟩⟩
    exact fun ho => ⟨⟨href, ho.2⟩, rfl, rfl⟩
  | close f =>
    obtain ⟨href, rfl⟩ := Option.ite_none_left_eq_some.mp hstep |>.imp_right Option.some.inj
    refine ⟨fun _ => trivial, fun _ => ⟨h.keep fun ho => ?_, trivial⟩⟩
    unfold File.close at ho ⊢
    split at ho
    · exact ⟨⟨href, ho.2⟩, by simp_all⟩
    · exact absurd rfl ho.1
  | flock f operation =>
    obtain ⟨href, rfl⟩ := Option.ite_none_left_eq_some.mp hstep |>.imp_right Option.some.inj
    have hiff : Exclusive (update s f ((s f).flock operation).2) ↔ Clean s (.flock f operation) := by
      rw [exclusive_update_iff h]
      exact forall₂_congr fun g hg => not_congr (clash_flock_iff (h f g hg.symm))
    refine ⟨fun hr => hiff.mp hr.1, fun hc => ⟨hiff.mpr hc, fun hun => ⟨?_, ?_⟩⟩⟩
    · intro ht
      simp [File.flock, ht, hun]
    · exact fun g hg => update_of_ne hg _ _

/-- The runs in which locks always exclude each other are those in which nobody asks for a lock
that clashes and no lock is left behind in the table. -/
theorem flock_exclusive_iff (as : List Act) (s : Table) :
    Run (fun s a t => step s a = some t ∧ Right s a t) boot as s ↔
      Run (Guarded Clean fun s a t => step s a = some t) boot as s :=
  Run.right_iff_guarded (fun _ _ _ h hstep => right_iff_clean h hstep) (fun _ _ _ _ hr => hr.1)
    fun _ _ _ hc => hc.1.1 rfl

/-- Two exclusive locks on the inode 1; and the inode 2 is opened with a lock. -/
theorem flock_not_exclusive :
    (∃ s, Run (fun s a t => step s a = some t) boot [.opens .FD_INODE 1, .opens .FD_INODE 1,
      .flock 0 LOCK_EX, .flock 1 LOCK_EX] s ∧ (s 0).ip = 1 ∧ (s 0).lock_type = LOCK_EX ∧
        (s 1).ip = 1 ∧ (s 1).lock_type = LOCK_EX) ∧
    ∃ s, Run (fun s a t => step s a = some t) boot [.opens .FD_INODE 1, .flock 0 LOCK_EX, .close 0,
      .opens .FD_INODE 2] s ∧ (s 0).ip = 2 ∧ (s 0).lock_type = LOCK_EX :=
  ⟨Run.exists_exec, Run.exists_exec⟩

end Yyds.Flock
