import Yyds.Kernel.Sys

/-! The QoS queues (`qos.c`): a pool of tasks, linked into one queue for each level. -/
namespace Yyds.Qos

open Function
open Mm (ProcId)
open Kernel (int)

def QOS_LEVELS : Nat := 6
def MAX_QOS_TASKS : Nat := 128

instance : NeZero QOS_LEVELS := ⟨by decide⟩
instance : NeZero MAX_QOS_TASKS := ⟨by decide⟩

abbrev Level := Fin QOS_LEVELS
abbrev TaskId := Fin MAX_QOS_TASKS

def QOS_USER_INTERACTIVE : Level := 0
def QOS_DEADLINE_REQUEST : Level := 1
def QOS_USER_INITIATED : Level := 2
def QOS_DEFAULT : Level := 3

/-- ticks of a time slice -/
def qos_timeslice : Level → Int := ![2, 4, 8, 16, 32, 64]

/-- ticks after which a task that waits goes up -/
def qos_boost_threshold : Level → Int := ![0, 50, 100, 200, 400, 800]

/-- `struct qos_task`; the code never stores a level out of range. -/
structure Task where
  p : Option ProcId
  qos_level : Level
  base_qos : Level
  remaining_slice : Int
  wait_ticks : Int
  cpu_usage : Int
  io_wait : Int
  deadline : BitVec 64
  boosted : Bool
  next : Option TaskId

def Task.zero : Task := ⟨none, 0, 0, 0, 0, 0, 0, 0, false, none⟩

/-- `struct qos_config` -/
structure Config where
  enabled : Bool
  auto_boost : Bool
  deadline_aware : Bool
  io_boost : Bool

/-- The pool, the queues and the configuration. -/
structure QosSys where
  pool : TaskId → Task
  head : Level → Option TaskId
  tail : Level → Option TaskId
  count : Level → Int
  config : Config

def qos_init : QosSys where
  pool _ := .zero
  head _ := none
  tail _ := none
  count _ := 0
  config := ⟨true, true, true, true⟩

def QosSys.setTask (s : QosSys) (t : TaskId) (x : Task) : QosSys :=
  { s with pool := update s.pool t x }

def QosSys.setNext (s : QosSys) (t : TaskId) (next : Option TaskId) : QosSys :=
  s.setTask t { s.pool t with next }

/-! ### Tasks -/

/-- The entry that `qos_task_alloc` takes and clears. -/
def qos_task_alloc (s : QosSys) : Option TaskId :=
  (List.finRange _).find? fun t => (s.pool t).p.isNone

/-- The entry keeps its place in a queue. -/
def qos_task_free (s : QosSys) (t : TaskId) : QosSys := s.setTask t { s.pool t with p := none }

def qos_find_task (s : QosSys) (p : ProcId) : Option TaskId :=
  (List.finRange _).find? fun t => (s.pool t).p = some p

/-- The level meant by an argument. -/
def level (qos_level : Int) : Option Level :=
  if h : 0 ≤ qos_level ∧ qos_level < QOS_LEVELS then some ⟨qos_level.toNat, by omega⟩ else none

/-- What `qos_register` writes into the entry `x`. -/
def Task.register (x : Task) (p : ProcId) (l : Level) : Task :=
  { x with
    p := some p, qos_level := l, base_qos := l, remaining_slice := qos_timeslice l, wait_ticks := 0
    cpu_usage := 0, io_wait := 0, deadline := 0, boosted := false }

def qos_register (s : QosSys) (p : ProcId) (qos_level : Int) : Int × QosSys :=
  if !s.config.enabled then (-1, s)
  else
    let l := (level qos_level).getD QOS_DEFAULT
    match qos_find_task s p with
    | some t => (0, s.setTask t ((s.pool t).register p l))
    | none =>
      match qos_task_alloc s with
      | none => (-1, s)
      | some t => (0, s.setTask t (Task.zero.register p l))

def qos_unregister (s : QosSys) (p : ProcId) : QosSys :=
  match qos_find_task s p with
  | none => s
  | some t => qos_task_free s t

def qos_set_level (s : QosSys) (p : ProcId) (qos_level : Int) : Int × QosSys :=
  match level qos_level with
  | none => (-1, s)
  | some l =>
    match qos_find_task s p with
    | none => qos_register s p qos_level
    | some t =>
      (0, s.setTask t { s.pool t with
        qos_level := l, base_qos := l, remaining_slice := qos_timeslice l, boosted := false })

def qos_set_deadline (s : QosSys) (p : ProcId) (deadline : BitVec 64) : Int × QosSys :=
  match qos_find_task s p with
  | none => (-1, s)
  | some t =>
    let x := s.pool t
    (0, s.setTask t { x with
      deadline
      qos_level :=
        if deadline > 0 ∧ x.qos_level > QOS_DEADLINE_REQUEST then QOS_DEADLINE_REQUEST
        else x.qos_level })

def qos_io_complete (s : QosSys) (p : ProcId) : QosSys :=
  if !s.config.io_boost then s
  else
    match qos_find_task s p with
    | none => s
    | some t =>
      let x := s.pool t
      if x.qos_level > QOS_USER_INITIATED then
        s.setTask t { x with qos_level := QOS_USER_INITIATED, boosted := true }
      else s

/-! ### Queues -/

/-- The task is linked behind `tail` of its level. -/
def qos_enqueue (s : QosSys) (t : TaskId) : QosSys :=
  let l := (s.pool t).qos_level
  let s := s.setNext t none
  let s :=
    match s.tail l with
    | some b => s.setNext b (some t)
    | none => { s with head := update s.head l (some t) }
  { s with
    tail := update s.tail l (some t)
    count := update s.count l (s.count l + 1) }

def qos_dequeue (s : QosSys) (l : Level) : Option TaskId × QosSys :=
  match s.head l with
  | none => (none, s)
  | some t =>
    let next := (s.pool t).next
    (some t,
      { s with
        head := update s.head l next
        tail := if next = none then update s.tail l none else s.tail
        count := update s.count l (s.count l - 1) }.setNext t none)

def qos_yield (s : QosSys) (p : ProcId) : QosSys :=
  match qos_find_task s p with
  | none => s
  | some t => qos_enqueue s t

def qos_restore_priority (x : Task) : Task :=
  if x.boosted = true ∧ x.qos_level < x.base_qos then
    { x with
      qos_level := x.base_qos, remaining_slice := qos_timeslice x.base_qos, boosted := false }
  else x

/-- The loop of `qos_schedule` over the levels: one task is taken from each, until one can run. -/
def scheduleLoop (runnable : ProcId → Bool) : List Level → QosSys → Option ProcId × QosSys
  | [], s => (none, s)
  | l :: ls, s =>
    match qos_dequeue s l with
    | (none, s) => scheduleLoop runnable ls s
    | (some t, s) =>
      match (s.pool t).p with
      | none => scheduleLoop runnable ls s
      | some p =>
        if runnable p then
          (some p, s.setTask t (qos_restore_priority
            { s.pool t with remaining_slice := qos_timeslice l, wait_ticks := 0 }))
        else scheduleLoop runnable ls s

/-- `runnable` says which processes are `RUNNABLE`. -/
def qos_schedule (s : QosSys) (runnable : ProcId → Bool) : Option ProcId × QosSys :=
  if !s.config.enabled then (none, s) else scheduleLoop runnable (List.finRange _) s

/-! ### The clock -/

def qos_check_boost (config : Config) (x : Task) : Task :=
  if !config.auto_boost ∨ x.qos_level ≤ QOS_USER_INTERACTIVE then x
  else if x.wait_ticks ≥ qos_boost_threshold x.qos_level then
    let l : Level := ⟨x.qos_level.val - 1, by omega⟩
    { x with
      qos_level := l, remaining_slice := qos_timeslice l, wait_ticks := 0, boosted := true }
  else x

/-- A task that waits is visited. -/
def QosSys.visit (s : QosSys) (t : TaskId) : QosSys :=
  let x := s.pool t
  s.setTask t (qos_check_boost s.config { x with wait_ticks := int (x.wait_ticks + 1) })

/-- The loop of `qos_tick` over a queue, from `t` on; `none`: it has not come to an end after
`fuel` tasks. -/
def tickQueue : Nat → QosSys → Option TaskId → Option QosSys
  | _, s, none => some s
  | 0, _, some _ => none
  | fuel + 1, s, some t => tickQueue fuel (s.visit t) ((s.visit t).pool t).next

def Task.tick (config : Config) (ticks : BitVec 32) (x : Task) : Task :=
  { x with
    remaining_slice := if x.remaining_slice > 0 then x.remaining_slice - 1 else x.remaining_slice
    cpu_usage := int (x.cpu_usage + 1)
    deadline :=
      if config.deadline_aware = true ∧ x.deadline > 0 ∧ ticks.setWidth 64 ≥ x.deadline then 0
      else x.deadline }

def qos_tick (fuel : Nat) (s : QosSys) (p : ProcId) (ticks : BitVec 32) : Option QosSys :=
  if !s.config.enabled then some s
  else
    match qos_find_task s p with
    | none => some s
    | some t =>
      (List.finRange QOS_LEVELS).foldlM (fun s l => tickQueue fuel s (s.head l))
        (s.setTask t ((s.pool t).tick s.config ticks))

inductive Op
  | register (p : ProcId) (qos_level : Int)
  | unregister (p : ProcId)
  | setLevel (p : ProcId) (qos_level : Int)
  | setDeadline (p : ProcId) (deadline : BitVec 64)
  | ioComplete (p : ProcId)
  | yield (p : ProcId)
  | schedule (runnable : ProcId → Bool)
  | tick (p : ProcId) (ticks : BitVec 32)
  | configure (config : Config)

/-- A call; `none` if it does not return. A queue without a circle has at most `MAX_QOS_TASKS`
tasks. -/
def QosSys.next (s : QosSys) : Op → Option QosSys
  | .register p qos_level => some (qos_register s p qos_level).2
  | .unregister p => some (qos_unregister s p)
  | .setLevel p qos_level => some (qos_set_level s p qos_level).2
  | .setDeadline p deadline => some (qos_set_deadline s p deadline).2
  | .ioComplete p => some (qos_io_complete s p)
  | .yield p => some (qos_yield s p)
  | .schedule runnable => some (qos_schedule s runnable).2
  | .tick p ticks => qos_tick MAX_QOS_TASKS s p ticks
  | .configure config => some { s with config }

def QosSys.Steps (s : QosSys) (op : Op) (t : QosSys) : Prop := s.next op = some t

end Yyds.Qos
