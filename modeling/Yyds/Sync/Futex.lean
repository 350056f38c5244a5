import Yyds.Kernel.Sys

/-! The waiters of `futex.c` and the calls that wake and requeue them. -/
namespace Yyds.Futex

open Function
open Mm (ProcId)
open Kernel (ProcState)

def MAX_FUTEX_QUEUES : Nat := 64
def FUTEX_HASH_SIZE : Nat := 32

/-- waiters in a bucket -/
def SLOTS : Nat := MAX_FUTEX_QUEUES / FUTEX_HASH_SIZE

instance : NeZero SLOTS := ⟨by decide⟩
instance : NeZero FUTEX_HASH_SIZE := ⟨by decide⟩

abbrev Addr := BitVec 64
abbrev Bucket := Fin FUTEX_HASH_SIZE
abbrev Slot := Fin SLOTS

/-- `struct futex_waiter`; `proc` means something while `used` is set. -/
structure Waiter where
  used : Bool
  proc : ProcId
  uaddr : Addr
  bitset : BitVec 32
  woken : Bool
  deriving DecidableEq

/-- `struct proc`, as far as sleeping goes. -/
structure FProc where
  state : ProcState
  chan : Addr
  deriving DecidableEq

structure FutexSys where
  waiters : Bucket → Slot → Waiter
  proc : ProcId → FProc

def futex_hash (uaddr : Addr) : Bucket := ⟨(uaddr >>> 2).toNat % FUTEX_HASH_SIZE,
  Nat.mod_lt _ (by decide)⟩

def FutexSys.setWaiter (s : FutexSys) (b : Bucket) (i : Slot) (w : Waiter) : FutexSys :=
  { s with waiters := update s.waiters b (update (s.waiters b) i w) }

def FutexSys.setState (s : FutexSys) (p : ProcId) (st : ProcState) : FutexSys :=
  { s with proc := update s.proc p { s.proc p with state := st } }

/-! ### Waking -/

/-- A waiter on `uaddr` that has not been woken. -/
def Waiter.On (w : Waiter) (uaddr : Addr) : Prop :=
  w.used = true ∧ w.uaddr = uaddr ∧ w.woken = false
  deriving Decidable

/-- A process that sleeps on `uaddr`. -/
def FProc.On (p : FProc) (uaddr : Addr) : Prop := p.state = .SLEEPING ∧ p.chan = uaddr
  deriving Decidable

/-- Mark a waiter, and make its process `RUNNABLE` if it is `asleep`. -/
def FutexSys.wake (s : FutexSys) (asleep : FProc → Bool) (b : Bucket) (i : Slot) : FutexSys :=
  let w := s.waiters b i
  let s := s.setWaiter b i { w with woken := true }
  if asleep (s.proc w.proc) then s.setState w.proc .RUNNABLE else s

/-- The loop of `futex_wake` over the places `is` of a bucket. -/
def wakeLoop (pick : Waiter → Bool) (asleep : FProc → Bool) (nr_wake : Int) (b : Bucket) :
    List Slot → Int → FutexSys → Int × FutexSys
  | [], woken, s => (woken, s)
  | i :: is, woken, s =>
    if woken < nr_wake then
      if pick (s.waiters b i) then wakeLoop pick asleep nr_wake b is (woken + 1) (s.wake asleep b i)
      else wakeLoop pick asleep nr_wake b is woken s
    else (woken, s)

def futex_wake (s : FutexSys) (uaddr : Addr) (nr_wake : Int) : Int × FutexSys :=
  wakeLoop (fun w => w.On uaddr) (fun p => p.On uaddr) nr_wake (futex_hash uaddr)
    (List.finRange SLOTS) 0 s

/-! ### Requeueing -/

/-- The waiter stays in its bucket. -/
def FutexSys.requeue (s : FutexSys) (uaddr2 : Addr) (b : Bucket) (i : Slot) : FutexSys :=
  s.setWaiter b i { s.waiters b i with uaddr := uaddr2 }

/-- The loop of `futex_requeue`. -/
def requeueLoop (uaddr uaddr2 : Addr) (nr_wake nr_requeue : Int) (b : Bucket) :
    List Slot → Int → Int → FutexSys → Int × FutexSys
  | [], woken, requeued, s => (woken + requeued, s)
  | i :: is, woken, requeued, s =>
    if (s.waiters b i).On uaddr then
      if woken < nr_wake then
        requeueLoop uaddr uaddr2 nr_wake nr_requeue b is (woken + 1) requeued
          (s.wake (fun p => p.state = .SLEEPING) b i)
      else if requeued < nr_requeue then
        requeueLoop uaddr uaddr2 nr_wake nr_requeue b is woken (requeued + 1) (s.requeue uaddr2 b i)
      else requeueLoop uaddr uaddr2 nr_wake nr_requeue b is woken requeued s
    else requeueLoop uaddr uaddr2 nr_wake nr_requeue b is woken requeued s

def futex_requeue (s : FutexSys) (uaddr uaddr2 : Addr) (nr_wake nr_requeue : Int) : Int × FutexSys :=
  requeueLoop uaddr uaddr2 nr_wake nr_requeue (futex_hash uaddr) (List.finRange SLOTS) 0 0 s

/-! ### One waiter -/

section Waiter

variable {s : FutexSys} {asleep : FProc → Bool} {b b' : Bucket} {i j : Slot} {p : ProcId} {w : Waiter}
  {uaddr2 : Addr}

@[simp] theorem setWaiter_self : (s.setWaiter b i w).waiters b i = w := by
  simp [FutexSys.setWaiter]

theorem setWaiter_of_ne (h : b' ≠ b ∨ j ≠ i) :
    (s.setWaiter b i w).waiters b' j = s.waiters b' j := by
  by_cases hb : b' = b
  · subst hb
    simp [FutexSys.setWaiter, h.resolve_left (not_not.mpr rfl)]
  · simp [FutexSys.setWaiter, hb]

theorem wake_waiters : (s.wake asleep b i).waiters =
    (s.setWaiter b i { s.waiters b i with woken := true }).waiters := by
  rw [FutexSys.wake]
  split
  · rfl
  · rfl

theorem wake_self : (s.wake asleep b i).waiters b i = { s.waiters b i with woken := true } := by
  rw [wake_waiters, setWaiter_self]

theorem wake_of_ne (h : b' ≠ b ∨ j ≠ i) : (s.wake asleep b i).waiters b' j = s.waiters b' j := by
  rw [wake_waiters, setWaiter_of_ne h]

theorem wake_proc : (s.wake asleep b i).proc = if asleep (s.proc (s.waiters b i).proc) then
    update s.proc (s.waiters b i).proc
      { s.proc (s.waiters b i).proc with state := .RUNNABLE } else s.proc := by
  by_cases h : asleep (s.proc (s.waiters b i).proc) = true
  · simp [FutexSys.wake, FutexSys.setWaiter, FutexSys.setState, h]
  · simp [FutexSys.wake, FutexSys.setWaiter, h]

theorem wake_proc_of_ne (h : p ≠ (s.waiters b i).proc) : (s.wake asleep b i).proc p = s.proc p := by
  rw [wake_proc]
  split
  · exact update_of_ne h _ _
  · rfl

theorem wake_proc_self (h : asleep (s.proc (s.waiters b i).proc) = true) :
    ((s.wake asleep b i).proc (s.waiters b i).proc).state = .RUNNABLE := by
  rw [wake_proc, if_pos h, update_self]

theorem wake_proc_cases (p : ProcId) : (s.wake asleep b i).proc p = s.proc p ∨
    ((s.wake asleep b i).proc p).state = .RUNNABLE := by
  by_cases hp : p = (s.waiters b i).proc
  · by_cases h : asleep (s.proc (s.waiters b i).proc) = true
    · exact .inr (hp ▸ wake_proc_self h)
    · rw [wake_proc, if_neg h]
      exact .inl rfl
  · exact .inl (wake_proc_of_ne hp)

theorem wake_proc_of_not_asleep (h : asleep (s.proc p) = false) :
    (s.wake asleep b i).proc p = s.proc p := by
  by_cases hp : p = (s.waiters b i).proc
  · subst hp
    rw [wake_proc, h]
    rfl
  · exact wake_proc_of_ne hp

theorem requeue_self :
    (s.requeue uaddr2 b i).waiters b i = { s.waiters b i with uaddr := uaddr2 } := setWaiter_self

theorem requeue_of_ne (h : b' ≠ b ∨ j ≠ i) :
    (s.requeue uaddr2 b i).waiters b' j = s.waiters b' j := setWaiter_of_ne h

end Waiter

end Yyds.Futex
