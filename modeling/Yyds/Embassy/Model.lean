import Yyds.Kernel.Sys

/-! The task scheduler of `embassy.c`: six singly linked lists through the pages of the tasks. An
access to a page that holds no task, or past the end of `ready_queues`, stops the machine. -/
namespace Yyds.Embassy

open Lib Function

def EMBASSY_MAX_TASKS : Int := 64
def EMBASSY_MAX_DEPS : Nat := 8
/-- `EMBASSY_NORMAL` -/
def EMBASSY_NORMAL : Fin 4 := 2
/-- `priority_boost_interval` -/
def BOOST_INTERVAL : BitVec 64 := 100
/-- pages of physical memory; no list without a cycle is longer -/
def NPAGE : Nat := (PHYSTOP - KERNBASE) / PGSIZE

inductive TaskState
  | READY
  | RUNNING
  | WAITING
  | BLOCKED
  | COMPLETED
  deriving DecidableEq, Repr

/-- `struct embassy_task` without its link. The enumeration of priorities has no negative member, so
the compiler makes it unsigned. -/
structure Task where
  task_id : Int
  state : TaskState
  priority : BitVec 32
  wake_time : BitVec 64
  dep_count : Nat
  completed_deps : Nat
  dep_task_ids : Nat → Int

inductive Queue
  | ready (i : Fin 4)
  | waiting
  | blocked
  deriving DecidableEq, Repr

/-- The order in which the lists are searched. -/
def Queue.all : List Queue := [.ready 0, .ready 1, .ready 2, .ready 3, .waiting, .blocked]

/-- The scheduler apart from its lists; `alloc` tells the pages that hold a task, and `frames` are
the tasks whose functions `embassy_schedule` has called and that have not returned. -/
structure Core where
  alloc : Nat → Bool
  task : Nat → Task
  current_task : Nat
  task_counter : Int
  current_active_tasks : Int
  last_boost_time : BitVec 64
  frames : List Nat

/-- `next t` is `t->next`, and `head` are `ready_queues`, `waiting_queue` and `blocked_queue`. -/
structure State extends Core where
  next : Nat → Nat
  head : Queue → Nat

/-! ### Memory -/

def load (t : Nat) : Kern State (Task × Nat) := do
  let s ← Kern.get
  if s.alloc t then pure (s.task t, s.next t) else Kern.panic "wild pointer"

def store (t : Nat) (f : Task → Task) : Kern State Unit := do
  let s ← Kern.get
  if s.alloc t then Kern.modify fun s => { s with task := update s.task t (f (s.task t)) }
  else Kern.panic "wild pointer"

def setNext (t n : Nat) : Kern State Unit := do
  let s ← Kern.get
  if s.alloc t then Kern.modify fun s => { s with next := update s.next t n }
  else Kern.panic "wild pointer"

def setHead (q : Queue) (t : Nat) : Kern State Unit :=
  Kern.modify fun s => { s with head := update s.head q t }

def kfree (t : Nat) : Kern State Unit := do
  let s ← Kern.get
  if s.alloc t then Kern.modify fun s => { s with alloc := update s.alloc t false }
  else Kern.panic "kfree"

/-! ### Lists -/

/-- The queue for a task of this priority. -/
def readyIndex (priority : BitVec 32) : Fin 4 :=
  if h : 0 ≤ priority.toInt ∧ priority.toInt < 4 then ⟨priority.toInt.toNat, by omega⟩
  else EMBASSY_NORMAL

/-- `while (current->next) current = current->next;` -/
def lastOf : Nat → Nat → Kern State Nat
  | 0, _ => Kern.panic "endless loop"
  | fuel + 1, cur => do
    let (_, next) ← load cur
    if next = 0 then pure cur else lastOf fuel next

/-- A task is put at the end of a list. -/
def append (q : Queue) (t : Nat) : Kern State Unit := do
  setNext t 0
  let s ← Kern.get
  if s.head q = 0 then setHead q t
  else do
    let last ← lastOf NPAGE (s.head q)
    setNext last t

/-- A task is put at the front of a list. -/
def push (q : Queue) (t : Nat) : Kern State Unit := do
  let s ← Kern.get
  setNext t (s.head q)
  setHead q t

def embassy_add_to_ready_queue_locked (t : Nat) : Kern State Unit := do
  let (k, _) ← load t
  append (.ready (readyIndex k.priority)) t
  store t fun k => { k with state := .READY }

/-- The first task with this id from `cur` on, and the one before it. -/
def walkTo (task_id : Int) : Nat → Nat → Nat → Kern State (Option (Nat × Nat))
  | 0, _, _ => Kern.panic "endless loop"
  | fuel + 1, prev, cur =>
    if cur = 0 then pure none
    else do
      let (k, next) ← load cur
      if k.task_id = task_id then pure (some (prev, cur)) else walkTo task_id fuel cur next

def findIn (q : Queue) (task_id : Int) : Kern State (Option (Nat × Nat)) := do
  let s ← Kern.get
  walkTo task_id NPAGE 0 (s.head q)

/-- `if (prev) prev->next = next; else` the head of the list is `next`. -/
def unlink (q : Queue) (prev next : Nat) : Kern State Unit :=
  if prev ≠ 0 then setNext prev next else setHead q next

/-- The loop of `embassy_check_dependencies` and of `embassy_update_waiting_tasks`: the tasks for
which `visit` returns true move to a ready queue. -/
def sweep (q : Queue) (visit : Nat → Kern State Bool) : Nat → Nat → Nat → Kern State Unit
  | 0, _, _ => Kern.panic "endless loop"
  | fuel + 1, prev, cur =>
    if cur = 0 then pure ()
    else do
      let (_, next) ← load cur
      let done ← visit cur
      if done then do
        unlink q prev next
        embassy_add_to_ready_queue_locked cur
        sweep q visit fuel prev next
      else sweep q visit fuel cur next

/-- The place of an open dependency on `task_id`. -/
def Task.depIndex (k : Task) (task_id : Int) : Option Nat :=
  (List.range k.dep_count).find? fun i => k.dep_task_ids i = task_id

/-- The task after one of its dependencies has ended. -/
def Task.depDone (k : Task) (i : Nat) : Task :=
  { k with
    completed_deps := k.completed_deps + 1
    dep_task_ids := update k.dep_task_ids i (-1) }

def checkTask (completed_task_id : Int) (t : Nat) : Kern State Bool := do
  let (k, _) ← load t
  match k.depIndex completed_task_id with
  | none => pure false
  | some i => do
    store t fun k => k.depDone i
    pure (decide (k.completed_deps + 1 ≥ k.dep_count))

def embassy_check_dependencies (completed_task_id : Int) : Kern State Unit := do
  let s ← Kern.get
  sweep .blocked (checkTask completed_task_id) NPAGE 0 (s.head .blocked)

def wakeTask (ticks : BitVec 32) (t : Nat) : Kern State Bool := do
  let (k, _) ← load t
  pure (decide (k.wake_time ≤ ticks.setWidth 64))

def embassy_update_waiting_tasks (ticks : BitVec 32) : Kern State Unit := do
  let s ← Kern.get
  sweep .waiting (wakeTask ticks) NPAGE 0 (s.head .waiting)

/-! ### Calls -/

/-- What `embassy_create_task_named` puts into a new task. -/
def Task.fresh (task_id : Int) (priority : Int) : Task :=
  { task_id, state := .READY, priority := BitVec.ofInt 32 priority, wake_time := 0
    dep_count := 0, completed_deps := 0, dep_task_ids := fun _ => -1 }

/-- `page` is the page `kalloc` returns. -/
def embassy_create_task (page : Nat) (priority : Int) : Kern State Int := do
  let s ← Kern.get
  if s.current_active_tasks ≥ EMBASSY_MAX_TASKS then pure (-1)
  else if page = 0 then pure (-1)
  else do
    Kern.modify fun s =>
      { s with
        alloc := update s.alloc page true
        task := update s.task page (.fresh s.task_counter priority)
        task_counter := Kernel.int (s.task_counter + 1) }
    embassy_add_to_ready_queue_locked page
    Kern.modify fun s => { s with current_active_tasks := s.current_active_tasks + 1 }
    pure s.task_counter

/-- A task on the list `q` is destroyed; `check` tells whether its dependents are told. -/
def destroyIn (q : Queue) (check : Bool) (task_id : Int) : Kern State Bool := do
  match ← findIn q task_id with
  | none => pure false
  | some (prev, t) => do
    let (_, next) ← load t
    unlink q prev next
    Kern.modify fun s => { s with current_active_tasks := s.current_active_tasks - 1 }
    Kern.when check (embassy_check_dependencies task_id)
    kfree t
    pure true

def destroyFrom (task_id : Int) : List Queue → Kern State Unit
  | [] => pure ()
  | q :: qs => do
    -- the search in `blocked_queue` does not call `embassy_check_dependencies`
    if ← destroyIn q (q ≠ .blocked) task_id then pure () else destroyFrom task_id qs

def embassy_destroy_task (task_id : Int) : Kern State Unit := destroyFrom task_id Queue.all

def findFrom (task_id : Int) : List Queue → Kern State Nat
  | [] => pure 0
  | q :: qs => do
    match ← findIn q task_id with
    | some (_, t) => pure t
    | none => findFrom task_id qs

def embassy_find_task (task_id : Int) : Kern State Nat := findFrom task_id Queue.all

/-- The first free place of `dep_task_ids` is taken. -/
def Task.depend (k : Task) (dep_task_id : Int) : Task :=
  { k with
    dep_task_ids := update k.dep_task_ids k.dep_count dep_task_id
    dep_count := k.dep_count + 1 }

/-- A task leaves the ready queue that its priority names, if it is there. -/
def leaveReady (task_id : Int) (priority : BitVec 32) : Kern State Unit :=
  if h : 0 ≤ priority.toInt ∧ priority.toInt < 4 then do
    let q := Queue.ready ⟨priority.toInt.toNat, by omega⟩
    match ← findIn q task_id with
    | none => pure ()
    | some (prev, cur) => do
      let (_, next) ← load cur
      unlink q prev next
  else Kern.panic "ready_queues"

/-- A ready task is put on the blocked list. -/
def blockTask (task_id : Int) (t : Nat) (priority : BitVec 32) : Kern State Unit := do
  leaveReady task_id priority
  store t fun k => { k with state := .BLOCKED }
  push .blocked t

def embassy_add_dependency (task_id dep_task_id : Int) : Kern State Int := do
  let t ← embassy_find_task task_id
  if t = 0 then pure (-1)
  else do
    let (k, _) ← load t
    if k.dep_count ≥ EMBASSY_MAX_DEPS then pure (-1)
    else do
      let d ← embassy_find_task dep_task_id
      if d = 0 then pure (-1)
      else do
        store t fun k => k.depend dep_task_id
        Kern.when (k.state = .READY) (blockTask task_id t k.priority)
        pure 0

/-- `if (task->priority > EMBASSY_CRITICAL)` the priority goes one step up. -/
def Task.boost (k : Task) : Task :=
  if 0 < k.priority then { k with priority := k.priority - 1 } else k

def embassy_boost_priority (task_id : Int) : Kern State Unit := do
  let t ← embassy_find_task task_id
  Kern.when (t ≠ 0) (store t Task.boost)

def boostLoop : Nat → Nat → Kern State Unit
  | 0, _ => Kern.panic "endless loop"
  | fuel + 1, cur =>
    if cur = 0 then pure ()
    else do
      let (_, next) ← load cur
      store cur Task.boost
      boostLoop fuel next

def embassy_periodic_priority_boost (ticks : BitVec 32) : Kern State Unit := do
  let s ← Kern.get
  let current_time := ticks.setWidth 64
  Kern.when (¬ current_time - s.last_boost_time < BOOST_INTERVAL) do
    Kern.modify fun s => { s with last_boost_time := current_time }
    Kern.forEach [3, 2, 1] fun i => do
      let s ← Kern.get
      boostLoop NPAGE (s.head (.ready i))

def embassy_get_next_task : Kern State Nat := do
  let s ← Kern.get
  match (List.finRange 4).find? fun i => s.head (.ready i) ≠ 0 with
  | none => do
    Kern.modify fun s => { s with current_task := 0 }
    pure 0
  | some i => do
    let t := s.head (.ready i)
    let (_, next) ← load t
    setHead (.ready i) next
    setNext t 0
    store t fun k => { k with state := .RUNNING }
    Kern.modify fun s => { s with current_task := t }
    pure t

/-- `embassy_schedule` up to the call of the task's function. -/
def embassy_schedule_begin (ticks : BitVec 32) : Kern State Nat := do
  embassy_periodic_priority_boost ticks
  embassy_update_waiting_tasks ticks
  let t ← embassy_get_next_task
  Kern.when (t ≠ 0) (Kern.modify fun s => { s with frames := t :: s.frames })
  pure t

/-- The rest of `embassy_schedule`. -/
def embassy_schedule_end (t : Nat) : Kern State Unit := do
  Kern.modify fun s => { s with frames := s.frames.erase t }
  store t fun k => { k with state := .COMPLETED }
  let (k, _) ← load t
  embassy_destroy_task k.task_id

def embassy_yield : Kern State Unit := do
  let s ← Kern.get
  Kern.when (s.current_task ≠ 0) do
    store s.current_task fun k => { k with state := .READY }
    embassy_add_to_ready_queue_locked s.current_task
    Kern.modify fun s => { s with current_task := 0 }

/-- `ticks + (milliseconds * 10) / 1000`, an `unsigned int` -/
def wakeTime (milliseconds : Int) (ticks : BitVec 32) : BitVec 64 :=
  (ticks + BitVec.ofInt 32 ((Kernel.int (milliseconds * 10)).tdiv 1000)).setWidth 64

def embassy_delay_ms (milliseconds : Int) (ticks : BitVec 32) : Kern State Unit := do
  let s ← Kern.get
  Kern.when (s.current_task ≠ 0) do
    store s.current_task fun k =>
      { k with wake_time := wakeTime milliseconds ticks, state := .WAITING }
    push .waiting s.current_task
    Kern.modify fun s => { s with current_task := 0 }

/-! ### The machine -/

inductive Op
  | create (page : Nat) (priority : Int)
  | destroy (task_id : Int)
  | addDependency (task_id dep_task_id : Int)
  | boostPriority (task_id : Int)
  | periodicBoost (ticks : BitVec 32)
  | updateWaiting (ticks : BitVec 32)
  | scheduleBegin (ticks : BitVec 32)
  | scheduleEnd (t : Nat)
  | yield
  | delay (milliseconds : Int) (ticks : BitVec 32)
  deriving DecidableEq

/-- The call, with what it returns (`0` if it returns nothing). -/
def Op.exec : Op → Kern State Int
  | .create page priority => embassy_create_task page priority
  | .destroy task_id => do embassy_destroy_task task_id; pure 0
  | .addDependency task_id dep_task_id => embassy_add_dependency task_id dep_task_id
  | .boostPriority task_id => do embassy_boost_priority task_id; pure 0
  | .periodicBoost ticks => do embassy_periodic_priority_boost ticks; pure 0
  | .updateWaiting ticks => do embassy_update_waiting_tasks ticks; pure 0
  | .scheduleBegin ticks => do
    let t ← embassy_schedule_begin ticks
    pure t
  | .scheduleEnd t => do embassy_schedule_end t; pure 0
  | .yield => do embassy_yield; pure 0
  | .delay milliseconds ticks => do embassy_delay_ms milliseconds ticks; pure 0

/-- `kalloc` returns a page that is not in use, and only a function that was called returns. -/
def Op.Possible (s : State) : Op → Prop
  | .create page _ => s.alloc page = false
  | .scheduleEnd t => t ∈ s.frames
  | _ => True

instance (s : State) : DecidablePred (Op.Possible s) := fun a => by
  cases a <;> dsimp only [Op.Possible] <;> infer_instance

def Steps (s : State) (a : Op) (t : State) : Prop := a.Possible s ∧ ∃ r, a.exec s = .ok (r, t)

/-- The state after a call, if the call is possible and returns. -/
def step (s : State) (a : Op) : Option State :=
  if a.Possible s then (a.exec s).toOption.map Prod.snd else none

theorem steps_of_step {s t : State} {a : Op} (h : step s a = some t) : Steps s a t := by
  unfold step at h
  split at h
  · refine ⟨‹_›, ?_⟩
    cases hexec : a.exec s with
    | error e =>
      rw [hexec] at h
      exact absurd h nofun
    | ok r =>
      rw [hexec] at h
      exact ⟨r.1, by rw [← Option.some.inj h]⟩
  · exact absurd h nofun

/-- The state after `embassy_init`. -/
def State.init : State :=
  { alloc := fun _ => false, task := fun _ => .fresh 0 0, current_task := 0, task_counter := 0
    current_active_tasks := 0, last_boost_time := 0, frames := [], next := fun _ => 0
    head := fun _ => 0 }

end Yyds.Embassy
