import Yyds.Lib.Locks
import Yyds.Kernel.Sys

/-! The scheduler of `proc.c` on every CPU, and the processes that it runs: each acquire, each
release and each switch is a step. `swtch` hands `p->lock` from the process to the scheduler of the
same CPU and back, so the locks are held by CPUs. -/
namespace Yyds.Sync

open Lib Kernel Mm Function

/-- `p->lock`, or another spin lock. -/
inductive SLock
  | proc (p : ProcId)
  | user (k : Nat)
  deriving DecidableEq

/-- The process table and `c->proc`. `saved p` is the lock of the `sleep` in which `p` has given up
its CPU, if it is not `p->lock`. `sleeps` counts such calls of `sleep`, and `lk` is the lock of the
last one. -/
structure SMem (C : Type) where
  state : ProcId → ProcState
  chan : ProcId → Option Nat
  killed : ProcId → Bool
  saved : ProcId → Option Nat
  cproc : C → Option ProcId
  sleeps : ProcId → Nat
  lk : ProcId → Nat

/-- What a process that has its own lock can do. -/
inductive OwnAct
  | yield
  | sleep (ch : Nat)
  | exit
  | release
  deriving DecidableEq

/-- What is done to another process under its lock. -/
inductive Change
  | kill
  | allocproc
  | freeproc
  deriving DecidableEq

/-- What the code of a CPU does next, where it has a choice. -/
inductive SIn
  | select (p : ProcId)
  | wakeup (ch : Nat)
  | change (q : ProcId) (k : Change)
  | own
  | act (a : OwnAct)
  | lock (k : Nat)
  | unlock (k : Nat)
  | sleep (ch k : Nat)
  deriving DecidableEq

/-- Who calls a routine: a process with the locks it has, or an interrupt in the scheduler loop. -/
abbrev Caller := Option (ProcId × Finset Nat)

inductive SPc
  | sched
  | selected (p : ProcId)
  | recheck (p : ProcId)
  | resume (p : ProcId)
  | back (p : ProcId)
  | unlockBack (p : ProcId)
  | run (p : ProcId) (locks : Finset Nat)
  | lockUser (p : ProcId) (locks : Finset Nat) (k : Nat)
  | unlockUser (p : ProcId) (locks : Finset Nat) (k : Nat)
  | ownLock (p : ProcId)
  | own (p : ProcId)
  | unlockOwn (p : ProcId)
  | sleepLock (p : ProcId) (ch k : Nat)
  | sleepDrop (p : ProcId) (ch k : Nat)
  | sleepSet (p : ProcId) (ch k : Nat)
  | sleepUnlock (p : ProcId) (k : Nat)
  | sleepRelock (p : ProcId) (k : Nat)
  | wake (who : Caller) (ch : Nat) (i : Nat)
  | wakeLock (who : Caller) (ch : Nat) (q : ProcId)
  | wakeSet (who : Caller) (ch : Nat) (q : ProcId)
  | wakeUnlock (who : Caller) (ch : Nat) (q : ProcId)
  | change (who : Caller) (q : ProcId) (k : Change)
  | changeSet (who : Caller) (q : ProcId) (k : Change)
  | changeUnlock (who : Caller) (q : ProcId)
  deriving DecidableEq

/-- Where a routine returns to. -/
def SPc.ret : Caller → SPc
  | none => .sched
  | some (p, locks) => .run p locks

namespace SMem

variable {C : Type}

def setState (m : SMem C) (p : ProcId) (st : ProcState) : SMem C :=
  { m with state := update m.state p st }

def setChan (m : SMem C) (p : ProcId) (ch : Option Nat) : SMem C :=
  { m with chan := update m.chan p ch }

def setSaved (m : SMem C) (p : ProcId) (k : Option Nat) : SMem C :=
  { m with saved := update m.saved p k }

def setCproc [DecidableEq C] (m : SMem C) (c : C) (p : Option ProcId) : SMem C :=
  { m with cproc := update m.cproc c p }

/-- The process calls `sleep` with the lock `k`. -/
def startSleep (m : SMem C) (p : ProcId) (k : Nat) : SMem C :=
  { m with
    sleeps := update m.sleeps p (m.sleeps p + 1)
    lk := update m.lk p k }

/-- The body of the loop of `wakeup` -/
def wakeup1 (m : SMem C) (ch : Nat) (q : ProcId) : SMem C :=
  if m.state q = .SLEEPING ∧ m.chan q = some ch then m.setState q .RUNNABLE else m

def change (m : SMem C) (q : ProcId) : Change → SMem C
  | .kill =>
    let m := { m with killed := update m.killed q true }
    if m.state q = .SLEEPING then m.setState q .RUNNABLE else m
  -- `allocproc`, up to the end of the `fork` that calls it; the process starts in `forkret`
  | .allocproc => if m.state q = .UNUSED then (m.setState q .RUNNABLE).setSaved q none else m
  | .freeproc =>
    if m.state q = .ZOMBIE then
      { (m.setState q .UNUSED).setChan q none with killed := update m.killed q false }
    else m

/-- A process gives up the CPU with its lock held; `none` for `release`. -/
def giveUp (m : SMem C) (p : ProcId) : OwnAct → Option (SMem C)
  | .yield => some ((m.setState p .RUNNABLE).setSaved p none)
  | .sleep ch => some (((m.setChan p (some ch)).setState p .SLEEPING).setSaved p none)
  | .exit => some (m.setState p .ZOMBIE)
  | .release => none

end SMem

/-- What CPU `c` executes. -/
def schedCode {C : Type} [DecidableEq C] (c : C) : SPc → Op SLock (SMem C) SPc SIn
  -- the scheduler: the selection is not protected by any lock when it is used
  | .sched => .act fun i m =>
    match i with
    | .select p => some (m, .selected p)
    | .wakeup ch => some (m, .wake none ch 0)
    | .change q k => some (m, .change none q k)
    | _ => none
  | .selected p => .acquire (.proc p) (.recheck p)
  | .recheck p => .act fun _ m =>
    if m.state p = .RUNNABLE then some ((m.setState p .RUNNING).setCproc c (some p), .resume p)
    else some (m, .unlockBack p)
  | .back p => .act fun _ m => some (m.setCproc c none, .unlockBack p)
  | .unlockBack p => .release (.proc p) .sched
  -- a process after `swtch`
  | .resume p => .act fun _ m =>
    match m.saved p with
    | none => some (m.setChan p none, .own p)
    | some k => some ((m.setChan p none).setSaved p none, .sleepUnlock p k)
  | .run p locks => .act fun i m =>
    match i with
    | .own => if locks = ∅ then some (m, .ownLock p) else none
    | .lock k => some (m, .lockUser p locks k)
    | .unlock k => if k ∈ locks then some (m, .unlockUser p locks k) else none
    -- with another lock held `sched` panics
    | .sleep ch k => if locks = {k} then some (m.startSleep p k, .sleepLock p ch k) else none
    | .wakeup ch => some (m, .wake (some (p, locks)) ch 0)
    | .change q k => some (m, .change (some (p, locks)) q k)
    | _ => none
  | .lockUser p locks k => .acquire (.user k) (.run p (insert k locks))
  | .unlockUser p locks k => .release (.user k) (.run p (locks.erase k))
  | .ownLock p => .acquire (.proc p) (.own p)
  | .own p => .act fun i m =>
    match i with
    | .act a =>
      match m.giveUp p a with
      | some m' => some (m', .back p)
      | none => some (m, .unlockOwn p)
    | _ => none
  | .unlockOwn p => .release (.proc p) (.run p ∅)
  -- sleep(ch, lk)
  | .sleepLock p ch k => .acquire (.proc p) (.sleepDrop p ch k)
  | .sleepDrop p ch k => .release (.user k) (.sleepSet p ch k)
  | .sleepSet p ch k => .act fun _ m =>
    some (((m.setChan p (some ch)).setState p .SLEEPING).setSaved p (some k), .back p)
  | .sleepUnlock p k => .release (.proc p) (.sleepRelock p k)
  | .sleepRelock p k => .acquire (.user k) (.run p {k})
  -- wakeup(ch)
  | .wake who ch i => .act fun _ m =>
    if h : i < NPROC then some (m, .wakeLock who ch ⟨i, h⟩) else some (m, .ret who)
  | .wakeLock who ch q => .acquire (.proc q) (.wakeSet who ch q)
  | .wakeSet who ch q => .act fun _ m => some (m.wakeup1 ch q, .wakeUnlock who ch q)
  | .wakeUnlock who ch q => .release (.proc q) (.wake who ch (q + 1))
  -- kill, allocproc, freeproc
  | .change who q k => .acquire (.proc q) (.changeSet who q k)
  | .changeSet who q k => .act fun _ m => some (m.change q k, .changeUnlock who q)
  | .changeUnlock who q => .release (.proc q) (.ret who)

abbrev SState (C : Type) := LockState C SLock (SMem C) SPc

/-- The locks of the caller of a routine. -/
def callerHolds : Caller → SLock → Prop
  | some (_, locks), .user k => k ∈ locks
  | _, _ => False

/-- The locks that a CPU has at each place. -/
def SPc.Holds : SPc → SLock → Prop
  | .recheck p, l | .resume p, l | .back p, l | .unlockBack p, l | .own p, l | .unlockOwn p, l
  | .sleepSet p _ _, l | .sleepUnlock p _, l => l = .proc p
  | .run p locks, l | .lockUser p locks _, l | .unlockUser p locks _, l =>
    callerHolds (some (p, locks)) l
  | .sleepLock _ _ k, l => l = .user k
  | .sleepDrop p _ k, l => l = .proc p ∨ l = .user k
  | .wake who _ _, l | .wakeLock who _ _, l | .change who _ _, l => callerHolds who l
  | .wakeSet who _ q, l | .wakeUnlock who _ q, l | .changeSet who q _, l | .changeUnlock who q, l =>
    l = .proc q ∨ callerHolds who l
  | .sched, _ | .selected _, _ | .ownLock _, _ | .sleepRelock _ _, _ => False

theorem holds_ret (who : Caller) (l : SLock) : (SPc.ret who).Holds l ↔ callerHolds who l := by
  cases who with
  | none => simp [SPc.ret, SPc.Holds, callerHolds]
  | some x => rfl

theorem not_callerHolds_proc (who : Caller) (p : ProcId) : ¬ callerHolds who (.proc p) := by
  cases who <;> simp [callerHolds]

/-- The process that runs on the CPU. -/
def SPc.cur : SPc → Option ProcId
  | .sched | .selected _ | .recheck _ | .unlockBack _ => none
  | .resume p | .back p | .run p _ | .lockUser p _ _ | .unlockUser p _ _ | .ownLock p | .own p
  | .unlockOwn p | .sleepLock p _ _ | .sleepDrop p _ _ | .sleepSet p _ _ | .sleepUnlock p _
  | .sleepRelock p _ => some p
  | .wake who _ _ | .wakeLock who _ _ | .wakeSet who _ _ | .wakeUnlock who _ _ | .change who _ _
  | .changeSet who _ _ | .changeUnlock who _ => who.map Prod.fst

/-- The scheduler is back, and `c->proc` is still set. -/
def SPc.isBack : SPc → Bool
  | .back _ => true
  | _ => false

theorem cur_ret (who : Caller) : (SPc.ret who).cur = who.map Prod.fst := by
  cases who <;> rfl

theorem isBack_ret (who : Caller) : (SPc.ret who).isBack = false := by
  cases who <;> rfl

section
variable {C : Type} {c : C} {p p' : SPc} {m m' : SMem C} {i : SIn}
  {f : SIn → SMem C → Option (SMem C × SPc)}

open SMem

theorem running_setState {q : ProcId} {st : ProcState} (hq : m.state q ≠ .RUNNING)
    (hst : st ≠ .RUNNING) (r : ProcId) :
    (m.setState q st).state r = .RUNNING ↔ m.state r = .RUNNING := by
  by_cases hr : r = q
  · subst hr
    simp [setState, hq, hst]
  · simp [setState, hr]

theorem running_wakeup1 (ch : Nat) (q r : ProcId) :
    (m.wakeup1 ch q).state r = .RUNNING ↔ m.state r = .RUNNING := by
  unfold wakeup1
  split
  · rename_i h
    exact running_setState (by simp [h.1]) (by simp) r
  · rfl

theorem running_change (q : ProcId) (k : Change) (r : ProcId) :
    (m.change q k).state r = .RUNNING ↔ m.state r = .RUNNING := by
  cases k <;> dsimp only [change] <;> split
  · rename_i h
    exact running_setState (by simp [h]) (by simp) r
  · rfl
  · rename_i h
    exact running_setState (by simp [h]) (by simp) r
  · rfl
  · rename_i h
    exact running_setState (by simp [h]) (by simp) r
  · rfl

theorem cproc_change (q : ProcId) (k : Change) : (m.change q k).cproc = m.cproc := by
  cases k <;> dsimp only [change] <;> split <;> rfl

theorem cproc_wakeup1 (ch : Nat) (q : ProcId) : (m.wakeup1 ch q).cproc = m.cproc := by
  unfold wakeup1
  split <;> rfl

theorem giveUp_spec {q : ProcId} {a : OwnAct} (h : m.giveUp q a = some m') :
    m'.state q ≠ .RUNNING ∧ (∀ r, r ≠ q → m'.state r = m.state r) ∧ m'.cproc = m.cproc := by
  cases a <;> cases h <;> refine ⟨?_, ?_, rfl⟩
  all_goals first
    | (intro r hr; simp [setState, setSaved, setChan, hr])
    | simp [setState, setSaved, setChan]

variable [DecidableEq C]

/-- The scheduler dispatches `q`. -/
def Dispatches (c : C) (p : SPc) (m : SMem C) (p' : SPc) (m' : SMem C) : Prop :=
  ∃ q, p = .recheck q ∧ p' = .resume q ∧ m.state q = .RUNNABLE ∧
    m' = (m.setState q .RUNNING).setCproc c (some q)

/-- The process on the CPU gives it up. -/
def GivesUp (p : SPc) (m : SMem C) (p' : SPc) (m' : SMem C) : Prop :=
  ∃ q, p.cur = some q ∧ p.isBack = false ∧ (∀ l, p.Holds l ↔ l = .proc q) ∧ p' = .back q ∧
    m'.state q ≠ .RUNNING ∧ (∀ r, r ≠ q → m'.state r = m.state r) ∧ m'.cproc = m.cproc

/-- The scheduler takes note that the CPU is free. -/
def Clears (c : C) (p : SPc) (m : SMem C) (p' : SPc) (m' : SMem C) : Prop :=
  ∃ q, p = .back q ∧ p' = .unlockBack q ∧ m' = m.setCproc c none

/-- Anything else. -/
def GoesOn (p : SPc) (m : SMem C) (p' : SPc) (m' : SMem C) : Prop :=
  p'.cur = p.cur ∧ p.isBack = false ∧ p'.isBack = false ∧ (∀ l, p'.Holds l ↔ p.Holds l) ∧
    m'.cproc = m.cproc ∧ ∀ q, m'.state q = .RUNNING ↔ m.state q = .RUNNING

omit [DecidableEq C] in
theorem GoesOn.still (hholds : ∀ l, p'.Holds l ↔ p.Holds l := by exact fun _ => Iff.rfl)
    (hcproc : m'.cproc = m.cproc := by rfl)
    (hrun : ∀ q, m'.state q = .RUNNING ↔ m.state q = .RUNNING := by exact fun _ => Iff.rfl)
    (hcur : p'.cur = p.cur := by rfl) (hp : p.isBack = false := by rfl)
    (hp' : p'.isBack = false := by rfl) : GoesOn p m p' m' :=
  ⟨hcur, hp, hp', hholds, hcproc, hrun⟩

theorem schedCode_act (hc : schedCode c p = .act f) (hf : f i m = some (m', p')) :
    Dispatches c p m p' m' ∨ GivesUp p m p' m' ∨ Clears c p m p' m' ∨ GoesOn p m p' m' := by
  cases p with
  | recheck q =>
    cases hc
    dsimp only at hf
    split at hf <;> cases hf
    · exact .inl ⟨q, rfl, rfl, ‹_›, rfl⟩
    · exact .inr (.inr (.inr .still))
  | back q =>
    cases hc
    cases hf
    exact .inr (.inr (.inl ⟨q, rfl, rfl, rfl⟩))
  | own q =>
    cases hc
    cases i with
    | act a =>
      dsimp only at hf
      split at hf <;> cases hf
      · rename_i hg
        exact .inr (.inl ⟨q, rfl, rfl, fun _ => Iff.rfl, rfl, giveUp_spec hg⟩)
      · exact .inr (.inr (.inr .still))
    | _ => cases hf
  | sleepSet q ch k =>
    cases hc
    cases hf
    refine .inr (.inl ⟨q, rfl, rfl, fun _ => Iff.rfl, rfl, ?_, ?_, rfl⟩)
    · simp [setState, setSaved, setChan]
    · intro r hr
      simp [setState, setSaved, setChan, hr]
  | sched =>
    cases hc
    refine .inr (.inr (.inr ?_))
    cases i <;> cases hf <;> exact .still (by simp [SPc.Holds, callerHolds])
  | resume q =>
    cases hc
    refine .inr (.inr (.inr ?_))
    dsimp only at hf
    split at hf <;> cases hf <;> exact .still
  | run q locks =>
    cases hc
    refine .inr (.inr (.inr ?_))
    cases i with
    | own =>
      split at hf <;> cases hf
      rename_i h
      refine .still ?_
      intro l
      cases l <;> simp [SPc.Holds, callerHolds, h]
    | sleep ch k =>
      dsimp only at hf
      split at hf <;> cases hf
      rename_i h
      refine .still ?_
      intro l
      cases l <;> simp [SPc.Holds, callerHolds, h]
    | unlock k =>
      dsimp only at hf
      split at hf <;> cases hf
      exact .still
    | lock k | wakeup ch | change r k =>
      cases hf
      exact .still
    | _ => cases hf
  | wake who ch n =>
    cases hc
    refine .inr (.inr (.inr ?_))
    split at hf <;> cases hf
    · exact .still
    · exact ⟨cur_ret who, rfl, isBack_ret who, fun l => holds_ret who l, rfl, fun _ => Iff.rfl⟩
  | wakeSet who ch q =>
    cases hc
    cases hf
    exact .inr (.inr (.inr (.still (fun _ => Iff.rfl) (cproc_wakeup1 ch q)
      (running_wakeup1 ch q))))
  | changeSet who q k =>
    cases hc
    cases hf
    exact .inr (.inr (.inr (.still (fun _ => Iff.rfl) (cproc_change q k)
      (running_change q k))))
  | _ => cases hc

theorem holds_of_act (hc : schedCode c p = .act f) (hf : f i m = some (m', p')) (l : SLock) :
    p'.Holds l ↔ p.Holds l := by
  rcases schedCode_act hc hf with ⟨q, rfl, rfl, -⟩ | ⟨q, -, -, hl, rfl, -⟩ | ⟨q, rfl, rfl, -⟩ |
    ⟨-, -, -, hl, -⟩
  · exact Iff.rfl
  · exact (hl l).symm
  · exact Iff.rfl
  · exact hl l

theorem schedCode_annotation :
    Annotation (schedCode (C := C)) (fun _ _ => True) fun _ p l => p.Holds l where
  acquire := by
    intro c p l p' _ _ hc
    refine ⟨trivial, ?_⟩
    intro k
    cases p <;> cases hc <;> cases k <;> simp [SPc.Holds, callerHolds]
  release := by
    intro c p l p' _ hc
    refine ⟨trivial, ?_⟩
    intro k
    cases p <;> cases hc
    case changeUnlock who q =>
      rw [holds_ret]
      cases k <;> simp [SPc.Holds, not_callerHolds_proc]
    all_goals cases k <;> simp [SPc.Holds, callerHolds]
  holding := by
    intro c p l yes no _ hc
    cases p <;> cases hc
  act := by
    intro c p f i m m' p' _ hc hf
    exact ⟨trivial, holds_of_act hc hf⟩

/-- A lock is taken or released. -/
def LockStep (c : C) (p p' : SPc) : Prop :=
  ∃ l, schedCode c p = .acquire l p' ∨ schedCode c p = .release l p'

theorem LockStep.cur (h : LockStep c p p') :
    p'.cur = p.cur ∧ p.isBack = false ∧ p'.isBack = false := by
  obtain ⟨l, hc | hc⟩ := h <;> cases p <;> cases hc <;> first
    | exact ⟨rfl, rfl, rfl⟩
    | exact ⟨cur_ret _, rfl, isBack_ret _⟩

theorem sched_cases {s s' : SState C} (h : LockState.Steps schedCode s (c, i) s') :
    LockStep c (s.pc c) (s'.pc c) ∧ s'.mem = s.mem ∨
    ∃ f m p, schedCode c (s.pc c) = .act f ∧ f i s.mem = some (m, p) ∧
      s' = { s with mem := m }.goto c p := by
  obtain ⟨l, p, hc, -, rfl⟩ | ⟨l, p, hc, -, rfl⟩ | ⟨l, yes, no, hc, rfl⟩ | hact := h.cases
  · exact .inl ⟨⟨l, .inl (by simpa using hc)⟩, rfl⟩
  · exact .inl ⟨⟨l, .inr (by simpa using hc)⟩, rfl⟩
  · generalize s.pc c = q at hc
    cases q <;> cases hc
  · exact .inr hact

end

end Yyds.Sync
