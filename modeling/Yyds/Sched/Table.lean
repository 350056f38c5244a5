import Yyds.Lib.Scan
import Yyds.Kernel.Sys

/-! The scheduler of `proc.c`: the process table as far as scheduling goes, the calls that set
policies, and the loop of `scheduler` on every CPU. -/
namespace Yyds.Sched

open Lib Function
open Kernel (ProcState int)
open Mm (ProcId)

abbrev CpuId := Fin NCPU

/-- number of levels of the feedback queue -/
def MLFQ_LEVELS : Nat := 4
/-- loop iterations between two boosts -/
def MLFQ_BOOST_INTERVAL : Nat := 100

/-- dispatches a process may have at a level -/
def mlfq_allotment_init (level : Int) : Int := [5, 10, 20, 40].getD level.toNat 0

/-- `sched_policy` -/
inductive Policy
  | SCHED_NORMAL
  | SCHED_FIFO
  | SCHED_RR
  | SCHED_DEADLINE
  deriving DecidableEq, Repr

/-- The policy with this number; the others are refused. -/
def Policy.ofInt (policy : Int) : Option Policy :=
  if policy = 0 then some .SCHED_NORMAL
  else if policy = 1 then some .SCHED_FIFO
  else if policy = 2 then some .SCHED_RR
  else if policy = 3 then some .SCHED_DEADLINE
  else none

def Policy.RealTime (policy : Policy) : Prop := policy = .SCHED_FIFO ∨ policy = .SCHED_RR
  deriving Decidable

/-- `struct proc`, as far as scheduling goes. -/
structure Proc where
  state : ProcState
  pid : Int
  mlfq_level : Int
  mlfq_allotment : Int
  sched_policy : Policy
  rt_priority : Int
  deadline : BitVec 64
  period : BitVec 64
  runtime : BitVec 64
  runtime_remaining : BitVec 64
  cpu_affinity : BitVec 32
  frozen : Bool
  freeze_reason : Int

abbrev Table := ProcId → Proc

/-- An entry of the table that `procinit` leaves: all zero. -/
def Proc.zero : Proc := ⟨.UNUSED, 0, 0, 0, .SCHED_NORMAL, 0, 0, 0, 0, 0, 0, false, 0⟩

/-- The loop `for (p = proc; p < &proc[NPROC]; p++)` up to the first `p` with `f p`. -/
def firstProc (f : ProcId → Bool) : Option ProcId := (List.finRange NPROC).find? f

/-! ### Policies -/

/-- What `sched_setscheduler` sets. -/
def Proc.setPolicy (policy : Policy) (priority : Int) (q : Proc) : Proc :=
  if policy.RealTime then { q with sched_policy := policy, rt_priority := priority }
  else { q with sched_policy := policy }

/-- What `sched_setdeadline` sets. -/
def Proc.setDeadline (runtime deadline period : BitVec 64) (q : Proc) : Proc :=
  { q with
    sched_policy := .SCHED_DEADLINE
    runtime, runtime_remaining := runtime, period, deadline }

/-- What `allocproc` sets. -/
def Proc.fresh (pid : Int) : Proc :=
  { state := .UNUSED, pid, mlfq_level := 0, mlfq_allotment := 5, sched_policy := .SCHED_NORMAL
    rt_priority := 0, deadline := 0, period := 0, runtime := 0, runtime_remaining := 0
    cpu_affinity := 0xFF, frozen := false, freeze_reason := 0 }

def sched_setscheduler (pid policy priority : Int) (proc : Table) : Int × Table :=
  match Policy.ofInt policy with
  | none => (-1, proc)
  | some policy =>
    if policy.RealTime ∧ (priority < 0 ∨ priority > 99) then (-1, proc)
    else
      match firstProc fun p => (proc p).pid = pid with
      | none => (-1, proc)
      | some p => (0, update proc p ((proc p).setPolicy policy priority))

def sched_setdeadline (pid : Int) (runtime deadline period : BitVec 64) (ticks : BitVec 32)
    (proc : Table) : Int × Table :=
  if runtime = 0 ∨ period = 0 ∨ period < runtime then (-1, proc)
  else
    match firstProc fun p => (proc p).pid = pid with
    | none => (-1, proc)
    | some p =>
      (0, update proc p
        ((proc p).setDeadline runtime (ticks.setWidth 64 + deadline) period))

/-! ### Selection -/

def Proc.boost (q : Proc) : Proc :=
  if q.state ≠ .UNUSED then
    { q with mlfq_level := 0, mlfq_allotment := mlfq_allotment_init 0 }
  else q

def mlfq_priority_boost (proc : Table) : Table := fun p => (proc p).boost

/-- `update_deadline_periods` begins a new period for `q`. -/
def Proc.PeriodOver (ticks : BitVec 32) (q : Proc) : Prop :=
  q.state ≠ .UNUSED ∧ q.sched_policy = .SCHED_DEADLINE ∧ q.deadline ≤ ticks.setWidth 64
  deriving Decidable

def Proc.newPeriod (ticks : BitVec 32) (q : Proc) : Proc :=
  if q.PeriodOver ticks then
    { q with deadline := ticks.setWidth 64 + q.period, runtime_remaining := q.runtime }
  else q

def update_deadline_periods (ticks : BitVec 32) (proc : Table) : Table :=
  fun p => (proc p).newPeriod ticks

/-- A process `find_deadline_process` may take. -/
def Proc.Eligible (q : Proc) : Prop :=
  q.state = .RUNNABLE ∧ q.sched_policy = .SCHED_DEADLINE ∧ 0 < q.runtime_remaining
  deriving Decidable

/-- A process `find_rt_process` may take. -/
def Proc.RealTime (q : Proc) : Prop := q.state = .RUNNABLE ∧ q.sched_policy.RealTime
  deriving Decidable

/-- A process of the feedback queue that can run. -/
def Proc.Normal (q : Proc) : Prop := q.state = .RUNNABLE ∧ q.sched_policy = .SCHED_NORMAL
  deriving Decidable

def find_deadline_process (proc : Table) : Option ProcId :=
  scanMin (fun p => (proc p).Eligible) (fun p => (proc p).deadline.toNat)
    0xFFFFFFFFFFFFFFFF (List.finRange NPROC)

/-- The highest priority wins, so the scan is over the opposite order. -/
def find_rt_process (proc : Table) : Option ProcId :=
  scanMin (fun p => (proc p).RealTime) (fun p => OrderDual.toDual (proc p).rt_priority)
    (OrderDual.toDual (-1)) (List.finRange NPROC)

/-- The third part of the selection in `scheduler`: level by level, in the order of the table. -/
def find_mlfq_process (proc : Table) : Option ProcId :=
  (List.range MLFQ_LEVELS).findSome? fun (level : Nat) =>
    firstProc fun p => (proc p).Normal ∧ (proc p).mlfq_level = level

/-- Deadline processes come before real-time ones, and those before the feedback queue. -/
def select (proc : Table) : Option ProcId :=
  find_deadline_process proc <|> find_rt_process proc <|> find_mlfq_process proc

/-- What `scheduler` does to a process that has come back with the state `st`. -/
def Proc.charge (st : ProcState) (q : Proc) : Proc :=
  let q := { q with state := st }
  if st = .RUNNABLE then
    match q.sched_policy with
    | .SCHED_DEADLINE =>
      if 0 < q.runtime_remaining then { q with runtime_remaining := q.runtime_remaining - 1 }
      else q
    | .SCHED_NORMAL =>
      let q := { q with mlfq_allotment := q.mlfq_allotment - 1 }
      if q.mlfq_allotment ≤ 0 ∧ q.mlfq_level < (MLFQ_LEVELS : Int) - 1 then
        { q with
          mlfq_level := q.mlfq_level + 1
          mlfq_allotment := mlfq_allotment_init (q.mlfq_level + 1) }
      else q
    | .SCHED_FIFO | .SCHED_RR => q
  else q

/-! ### The machine -/

/-- The table, the counters, and for every CPU the local `selected` of its scheduler and
`c->proc`. -/
structure State where
  proc : Table
  nextpid : Int
  mlfq_boost_counter : Nat
  selected : CpuId → Option ProcId
  cproc : CpuId → Option ProcId

/-- How a call of `allocproc` ends: its caller makes the process `RUNNABLE`, or a page for it is
missing, or its address space is missing and `freeproc` undoes it. -/
inductive AllocEnd
  | runnable
  | noPage
  | freed
  deriving DecidableEq

inductive Act
  | allocproc (r : AllocEnd)
  | freeproc (p : ProcId)
  | wakeup (p : ProcId)
  | setscheduler (pid policy priority : Int)
  | setdeadline (pid : Int) (runtime deadline period : BitVec 64) (ticks : BitVec 32)
  /-- the loop of `scheduler` up to the label `run_process` -/
  | select (c : CpuId) (ticks : BitVec 32)
  /-- the switch to the selected process -/
  | run (c : CpuId)
  /-- the switch back from it, with the state `yield`, `sleep` or `exit` gave it -/
  | back (c : CpuId) (st : ProcState)
  deriving DecidableEq

def State.set (s : State) (p : ProcId) (q : Proc) : State :=
  { s with proc := update s.proc p q }

def Proc.allocated (q : Proc) (pid : Int) : AllocEnd → Proc
  | .runnable => { Proc.fresh pid with state := .RUNNABLE }
  -- `allocproc` returns before it sets the rest
  | .noPage => { q with pid }
  | .freed => { Proc.fresh pid with pid := 0 }

def allocproc (r : AllocEnd) (s : State) : Option State :=
  (firstProc fun p => (s.proc p).state = .UNUSED).map fun p =>
    { s with nextpid := int (s.nextpid + 1) }.set p ((s.proc p).allocated s.nextpid r)

/-- The boost, the new periods and the choice. -/
def State.selects (c : CpuId) (ticks : BitVec 32) (s : State) : State :=
  let count := s.mlfq_boost_counter + 1
  let boost := count ≥ MLFQ_BOOST_INTERVAL
  let proc := update_deadline_periods ticks (if boost then mlfq_priority_boost s.proc else s.proc)
  { s with
    proc
    mlfq_boost_counter := if boost then 0 else count
    selected := update s.selected c (Sched.select proc) }

/-- The part of `scheduler` from `run_process` on, up to `swtch`. -/
def State.runs (c : CpuId) (p : ProcId) (s : State) : State :=
  let s := { s with selected := update s.selected c none }
  if (s.proc p).state = .RUNNABLE then
    { s.set p { s.proc p with state := .RUNNING } with cproc := update s.cproc c (some p) }
  else s

/-- The part of `scheduler` after `swtch`. -/
def State.returns (c : CpuId) (p : ProcId) (st : ProcState) (s : State) : State :=
  { s.set p ((s.proc p).charge st) with cproc := update s.cproc c none }

def step (s : State) : Act → Option State
  | .allocproc r => allocproc r s
  | .freeproc p =>
    if (s.proc p).state = .ZOMBIE then some (s.set p { s.proc p with state := .UNUSED, pid := 0 })
    else none
  | .wakeup p =>
    if (s.proc p).state = .SLEEPING then some (s.set p { s.proc p with state := .RUNNABLE })
    else none
  | .setscheduler pid policy priority =>
    some { s with proc := (sched_setscheduler pid policy priority s.proc).2 }
  | .setdeadline pid runtime deadline period ticks =>
    some { s with proc := (sched_setdeadline pid runtime deadline period ticks s.proc).2 }
  | .select c ticks =>
    if s.cproc c = none ∧ s.selected c = none then some (s.selects c ticks) else none
  | .run c => (s.selected c).map fun p => s.runs c p
  | .back c st =>
    if st = .RUNNABLE ∨ st = .SLEEPING ∨ st = .ZOMBIE then
      (s.cproc c).map fun p => s.returns c p st
    else none

def Steps (s : State) (a : Act) (t : State) : Prop := step s a = some t

/-- The table after `procinit`. -/
def State.init : State :=
  { proc := fun _ => .zero, nextpid := 1, mlfq_boost_counter := 0
    selected := fun _ => none, cproc := fun _ => none }

/-! ### What a step does to one process -/

theorem Proc.boost_with (q : Proc) :
    ∃ l m, q.boost = { q with mlfq_level := l, mlfq_allotment := m } := by
  unfold Proc.boost
  split
  · exact ⟨_, _, rfl⟩
  · exact ⟨q.mlfq_level, q.mlfq_allotment, rfl⟩

theorem Proc.newPeriod_with (ticks : BitVec 32) (q : Proc) :
    ∃ d r, q.newPeriod ticks = { q with deadline := d, runtime_remaining := r } := by
  unfold Proc.newPeriod
  split
  · exact ⟨_, _, rfl⟩
  · exact ⟨q.deadline, q.runtime_remaining, rfl⟩

theorem Proc.charge_with (q : Proc) (st : ProcState) :
    ∃ l m r, q.charge st =
      { q with state := st, mlfq_level := l, mlfq_allotment := m, runtime_remaining := r } := by
  unfold Proc.charge
  dsimp only
  split
  · split
    · split <;> exact ⟨_, _, _, rfl⟩
    · split <;> exact ⟨_, _, _, rfl⟩
    · exact ⟨_, _, _, rfl⟩
    · exact ⟨_, _, _, rfl⟩
  · exact ⟨_, _, _, rfl⟩

/-- The new entry of `p`, when a step changes it. -/
inductive Touch (s : State) (p : ProcId) : Act → Proc → Prop
  | allocproc (r : AllocEnd) : (s.proc p).state = .UNUSED →
      Touch s p (.allocproc r) ((s.proc p).allocated s.nextpid r)
  | freeproc : (s.proc p).state = .ZOMBIE →
      Touch s p (.freeproc p) { s.proc p with state := .UNUSED, pid := 0 }
  | wakeup : (s.proc p).state = .SLEEPING →
      Touch s p (.wakeup p) { s.proc p with state := .RUNNABLE }
  | setscheduler {policy priority : Int} {pol : Policy} : Policy.ofInt policy = some pol →
      (pol.RealTime → 0 ≤ priority) →
      Touch s p (.setscheduler (s.proc p).pid policy priority) ((s.proc p).setPolicy pol priority)
  | setdeadline {runtime deadline period : BitVec 64} {ticks : BitVec 32} :
      0 < runtime → runtime ≤ period →
      Touch s p (.setdeadline (s.proc p).pid runtime deadline period ticks)
        ((s.proc p).setDeadline runtime (ticks.setWidth 64 + deadline) period)
  | select (c : CpuId) (ticks : BitVec 32) : MLFQ_BOOST_INTERVAL > s.mlfq_boost_counter + 1 →
      Touch s p (.select c ticks) ((s.proc p).newPeriod ticks)
  | boost (c : CpuId) (ticks : BitVec 32) : MLFQ_BOOST_INTERVAL ≤ s.mlfq_boost_counter + 1 →
      Touch s p (.select c ticks) ((s.proc p).boost.newPeriod ticks)
  | run {c : CpuId} : s.selected c = some p → (s.proc p).state = .RUNNABLE →
      Touch s p (.run c) { s.proc p with state := .RUNNING }
  | back {c : CpuId} {st : ProcState} : s.cproc c = some p →
      st = .RUNNABLE ∨ st = .SLEEPING ∨ st = .ZOMBIE →
      Touch s p (.back c st) ((s.proc p).charge st)

variable {s : State} {a : Act} {c : CpuId} {ticks : BitVec 32}

theorem Touch.update {x : ProcId} {q : Proc} (h : Touch s x a q) (p : ProcId) :
    update s.proc x q p = s.proc p ∨ Touch s p a (update s.proc x q p) := by
  by_cases hp : p = x
  · subst hp
    rw [update_self]
    exact .inr h
  · exact .inl (update_of_ne hp ..)

theorem firstProc_some {f : ProcId → Bool} {p : ProcId} (h : firstProc f = some p) : f p = true :=
  List.find?_some h

theorem sched_setscheduler_cases (pid policy priority : Int) (proc : Table) :
    (sched_setscheduler pid policy priority proc).2 = proc ∨
    ∃ pol x, Policy.ofInt policy = some pol ∧ (pol.RealTime → 0 ≤ priority) ∧ (proc x).pid = pid ∧
      (sched_setscheduler pid policy priority proc).2 =
        update proc x ((proc x).setPolicy pol priority) := by
  unfold sched_setscheduler
  split
  · exact .inl rfl
  rename_i pol hpol
  split
  · exact .inl rfl
  rename_i hprio
  split
  · exact .inl rfl
  · rename_i x hx
    refine .inr ⟨pol, x, hpol, fun hrt => ?_, by simpa using firstProc_some hx, rfl⟩
    exact Int.not_lt.mp fun hlt => hprio ⟨hrt, .inl hlt⟩

theorem sched_setdeadline_cases (pid : Int) (runtime deadline period : BitVec 64)
    (ticks : BitVec 32) (proc : Table) :
    (sched_setdeadline pid runtime deadline period ticks proc).2 = proc ∨
    ∃ x, 0 < runtime ∧ runtime ≤ period ∧ (proc x).pid = pid ∧
      (sched_setdeadline pid runtime deadline period ticks proc).2 =
        update proc x
          ((proc x).setDeadline runtime (ticks.setWidth 64 + deadline) period) := by
  unfold sched_setdeadline
  split
  · exact .inl rfl
  rename_i hargs
  split
  · exact .inl rfl
  · rename_i x hx
    refine .inr ⟨x, ?_, ?_, by simpa using firstProc_some hx, rfl⟩
    · bv_omega
    · exact BitVec.not_lt.mp fun hlt => hargs (.inr (.inr hlt))

theorem selects_quiet (h : s.mlfq_boost_counter + 1 < MLFQ_BOOST_INTERVAL) (p : ProcId) :
    (s.selects c ticks).proc p = (s.proc p).newPeriod ticks := by
  simp only [State.selects, ge_iff_le, if_neg (Nat.not_le.mpr h)]
  rfl

theorem selects_boost (h : MLFQ_BOOST_INTERVAL ≤ s.mlfq_boost_counter + 1) (p : ProcId) :
    (s.selects c ticks).proc p = (s.proc p).boost.newPeriod ticks := by
  simp only [State.selects, ge_iff_le, if_pos h]
  rfl

theorem selects_touch (s : State) (c : CpuId) (ticks : BitVec 32) (p : ProcId) :
    Touch s p (.select c ticks) ((s.selects c ticks).proc p) := by
  by_cases hboost : MLFQ_BOOST_INTERVAL ≤ s.mlfq_boost_counter + 1
  · rw [selects_boost hboost]
    exact .boost c ticks hboost
  · rw [selects_quiet (by omega)]
    exact .select c ticks (by omega)

theorem step_proc {t : State} (h : Steps s a t) (p : ProcId) :
    t.proc p = s.proc p ∨ Touch s p a (t.proc p) := by
  cases a with
  | allocproc r =>
    obtain ⟨x, hx, rfl⟩ := Option.map_eq_some_iff.mp h
    exact Touch.update (.allocproc r (by simpa using firstProc_some hx)) p
  | freeproc x =>
    obtain ⟨hst, ht⟩ := Option.ite_none_right_eq_some.mp h
    cases ht
    exact Touch.update (.freeproc hst) p
  | wakeup x =>
    obtain ⟨hst, ht⟩ := Option.ite_none_right_eq_some.mp h
    cases ht
    exact Touch.update (.wakeup hst) p
  | setscheduler pid policy priority =>
    cases h
    rcases sched_setscheduler_cases pid policy priority s.proc with hs | ⟨pol, x, hpol, hrt, rfl, hs⟩
    · exact .inl (congrFun hs p)
    · rw [hs]
      exact Touch.update (.setscheduler hpol hrt) p
  | setdeadline pid runtime deadline period ticks =>
    cases h
    rcases sched_setdeadline_cases pid runtime deadline period ticks s.proc with
      hs | ⟨x, hpos, hle, rfl, hs⟩
    · exact .inl (congrFun hs p)
    · rw [hs]
      exact Touch.update (.setdeadline hpos hle) p
  | select c ticks =>
    obtain ⟨_, ht⟩ := Option.ite_none_right_eq_some.mp h
    cases ht
    exact .inr (selects_touch s c ticks p)
  | run c =>
    obtain ⟨x, hx, rfl⟩ := Option.map_eq_some_iff.mp h
    by_cases hst : (s.proc x).state = .RUNNABLE
    · simp only [State.runs, if_pos hst]
      exact Touch.update (.run hx hst) p
    · exact .inl (by simp only [State.runs, if_neg hst])
  | back c st =>
    obtain ⟨hst, ht⟩ := Option.ite_none_right_eq_some.mp h
    obtain ⟨x, hx, rfl⟩ := Option.map_eq_some_iff.mp ht
    exact Touch.update (.back hx hst) p

end Yyds.Sched
