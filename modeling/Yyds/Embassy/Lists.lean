import Yyds.Embassy.Model

/-! The scheduler with lists in the place of links, and that the code computes the same. -/
namespace Yyds.Embassy

open Lib Kern Function

/-- The scheduler with its six queues as lists. -/
structure View extends Core where
  queue : Queue → List Nat

/-! ### The routines on lists -/

namespace View

def setTask (v : View) (t : Nat) (f : Task → Task) : View :=
  { v with task := update v.task t (f (v.task t)) }

def setQueue (v : View) (q : Queue) (l : List Nat) : View :=
  { v with queue := update v.queue q l }

def remove (v : View) (q : Queue) (t : Nat) : View := v.setQueue q ((v.queue q).erase t)

def readyQueue (v : View) (t : Nat) : Queue := .ready (readyIndex (v.task t).priority)

def addReady (v : View) (t : Nat) : View :=
  (v.setQueue (v.readyQueue t) (v.queue (v.readyQueue t) ++ [t])).setTask t
    fun k => { k with state := .READY }

/-- A task is visited: it becomes `f` of itself, and goes to a ready queue if `done`. -/
def visit (q : Queue) (f : Task → Task) (done : Task → Bool) (v : View) (t : Nat) : View :=
  if done (v.task t) then ((v.setTask t f).remove q t).addReady t else v.setTask t f

def sweep (q : Queue) (f : Task → Task) (done : Task → Bool) (v : View) : View :=
  (v.queue q).foldl (visit q f done) v

/-- Tasks on the queues. -/
def size (v : View) : Nat := (Queue.all.map fun q => (v.queue q).length).sum

/-- Where the task with this id is. -/
def locate (v : View) (task_id : Int) : Option (Queue × Nat) :=
  Queue.all.findSome? fun q =>
    ((v.queue q).find? fun t => (v.task t).task_id = task_id).map fun t => (q, t)

theorem setTask_self (v : View) (t : Nat) (f : Task → Task) :
    (v.setTask t f).task t = f (v.task t) := update_self ..

theorem setTask_of_ne (v : View) {t x : Nat} (f : Task → Task) (hx : x ≠ t) :
    (v.setTask t f).task x = v.task x := update_of_ne hx ..

theorem setQueue_of_ne (v : View) {q d : Queue} (l : List Nat) (hd : d ≠ q) :
    (v.setQueue q l).queue d = v.queue d := update_of_ne hd ..

theorem setTask_id (v : View) (t : Nat) : v.setTask t id = v := by
  simp only [setTask, id_eq, update_eq_self]

end View

/-- `task` after `embassy_check_dependencies` has looked at it. -/
def Task.check (task_id : Int) (k : Task) : Task :=
  match k.depIndex task_id with
  | none => k
  | some i => k.depDone i

/-- That was the last open dependency. -/
def Task.checked (task_id : Int) (k : Task) : Bool :=
  match k.depIndex task_id with
  | none => false
  | some _ => decide (k.completed_deps + 1 ≥ k.dep_count)

namespace View

def checkDependencies (v : View) (task_id : Int) : View :=
  v.sweep .blocked (Task.check task_id) (Task.checked task_id)

def updateWaiting (v : View) (ticks : BitVec 32) : View :=
  v.sweep .waiting id fun k => decide (k.wake_time ≤ ticks.setWidth 64)

def create (v : View) (page : Nat) (priority : Int) : View :=
  let v :=
    { v with
      alloc := update v.alloc page true
      task := update v.task page (.fresh v.task_counter priority)
      task_counter := Kernel.int (v.task_counter + 1) }.addReady page
  { v with current_active_tasks := v.current_active_tasks + 1 }

/-- The task `t` on the queue `q` is destroyed. -/
def destroyAt (v : View) (q : Queue) (t : Nat) : View :=
  let v := { v.remove q t with current_active_tasks := v.current_active_tasks - 1 }
  let v := if q ≠ .blocked then v.checkDependencies (v.task t).task_id else v
  { v with alloc := update v.alloc t false }

def destroy (v : View) (task_id : Int) : View :=
  match v.locate task_id with
  | none => v
  | some (q, t) => v.destroyAt q t

/-- A task goes from its ready queue to the front of the blocked list. -/
def block (v : View) (q : Queue) (t : Nat) : View :=
  let v := (v.remove q t).setTask t fun k => { k with state := .BLOCKED }
  v.setQueue .blocked (t :: v.queue .blocked)

theorem block_blocked (v : View) {q : Queue} (t : Nat) (hq : q ≠ .blocked) :
    (v.block q t).queue .blocked = t :: v.queue .blocked := by
  simp [block, remove, setTask, setQueue, hq.symm]

theorem block_self (v : View) (q : Queue) (t : Nat) :
    (v.block q t).task t = { v.task t with state := .BLOCKED } := update_self ..

def boostAll (v : View) (i : Fin 4) : View :=
  (v.queue (.ready i)).foldl (fun v t => v.setTask t Task.boost) v

def periodicBoost (v : View) (ticks : BitVec 32) : View :=
  if ticks.setWidth 64 - v.last_boost_time < BOOST_INTERVAL then v
  else (([3, 2, 1] : List (Fin 4)).foldl boostAll { v with last_boost_time := ticks.setWidth 64 })

/-- The first task of the first ready queue that is not empty. -/
def nextReady (v : View) : Option (Fin 4 × Nat) :=
  (List.finRange 4).findSome? fun i => (v.queue (.ready i)).head?.map fun t => (i, t)

def getNext (v : View) : View :=
  match v.nextReady with
  | none => { v with current_task := 0 }
  | some (i, t) =>
    { (v.remove (.ready i) t).setTask t fun k => { k with state := .RUNNING } with
      current_task := t }

def addDependency (v : View) (task_id dep_task_id : Int) : Int × View :=
  match v.locate task_id with
  | none => (-1, v)
  | some (q, t) =>
    if (v.task t).dep_count ≥ EMBASSY_MAX_DEPS ∨ v.locate dep_task_id = none then (-1, v)
    else
      let w := v.setTask t fun k => k.depend dep_task_id
      (0, if (v.task t).state = .READY then w.block q t else w)

def boostPriority (v : View) (task_id : Int) : View :=
  match v.locate task_id with
  | none => v
  | some (_, t) => v.setTask t Task.boost

def scheduleBegin (v : View) (ticks : BitVec 32) : Int × View :=
  let w := ((v.periodicBoost ticks).updateWaiting ticks).getNext
  (w.current_task,
    if w.current_task ≠ 0 then { w with frames := w.current_task :: w.frames } else w)

def scheduleEnd (v : View) (t : Nat) : View :=
  ({ v with frames := v.frames.erase t }.setTask t fun k => { k with state := .COMPLETED }).destroy
    (v.task t).task_id

def yield (v : View) : View :=
  if v.current_task ≠ 0 then { v.addReady v.current_task with current_task := 0 } else v

def delay (v : View) (milliseconds : Int) (ticks : BitVec 32) : View :=
  if v.current_task ≠ 0 then
    { (v.setTask v.current_task fun k =>
        { k with wake_time := wakeTime milliseconds ticks, state := .WAITING }).setQueue .waiting
          (v.current_task :: v.queue .waiting) with current_task := 0 }
  else v

/-- A call, with what it returns. -/
def exec (v : View) : Op → Int × View
  | .create page priority =>
    if v.current_active_tasks ≥ EMBASSY_MAX_TASKS ∨ page = 0 then (-1, v)
    else (v.task_counter, v.create page priority)
  | .destroy task_id => (0, v.destroy task_id)
  | .addDependency task_id dep_task_id => v.addDependency task_id dep_task_id
  | .boostPriority task_id => (0, v.boostPriority task_id)
  | .periodicBoost ticks => (0, v.periodicBoost ticks)
  | .updateWaiting ticks => (0, v.updateWaiting ticks)
  | .scheduleBegin ticks => v.scheduleBegin ticks
  | .scheduleEnd t => (0, v.scheduleEnd t)
  | .yield => (0, v.yield)
  | .delay milliseconds ticks => (0, v.delay milliseconds ticks)

end View

/-! ### Links and lists -/

/-- The links of `s` are the lists of `v`. -/
structure Repr (s : State) (v : View) : Prop where
  core : s.toCore = v.toCore
  threads : Threads s.next 0 s.head v.queue
  allocated : ∀ q, ∀ t ∈ v.queue q, v.alloc t = true
  short : v.size < NPAGE

/-- The routine returns `a`, and the lists after it are those of `v`. -/
def Sim {α : Type} (x : Kern State α) (s : State) (a : α) (v : View) : Prop :=
  ∃ t, x s = .ok (a, t) ∧ Repr t v

theorem Sim.bind {α β : Type} {x : Kern State α} {f : α → Kern State β} {s : State} {a : α} {b : β}
    {v w : View} (h : Sim x s a v) (hf : ∀ t, Repr t v → Sim (f a) t b w) :
    Sim (x >>= f) s b w := by
  obtain ⟨t, hx, ht⟩ := h
  obtain ⟨u, hu, hw⟩ := hf t ht
  exact ⟨u, (bind_of_ok hx).trans hu, hw⟩

theorem Sim.step {α β : Type} {x : Kern State α} {f : α → Kern State β} {s u : State} {a : α}
    {b : β} {w : View} (hx : x s = .ok (a, u)) (hf : Sim (f a) u b w) : Sim (x >>= f) s b w := by
  obtain ⟨t, ht, hw⟩ := hf
  exact ⟨t, (bind_of_ok hx).trans ht, hw⟩

theorem Sim.pure {α : Type} {a : α} {s : State} {v : View} (h : Repr s v) :
    Sim (Pure.pure a : Kern State α) s a v := ⟨s, rfl, h⟩

variable {s : State} {v : View} {q : Queue} {t prev cur fuel : Nat} {l l' : List Nat} {i : Fin 4}
  {task_id : Int} {f : Task → Task}

namespace Repr

section
variable (h : Repr s v)
include h

theorem alloc_of (ht : v.alloc t = true) : s.alloc t = true := by
  have hcore := congrArg Core.alloc h.core
  rwa [← hcore] at ht

theorem task_eq : s.task = v.task := congrArg Core.task h.core

theorem head_eq (q : Queue) : s.head q = (v.queue q).headD 0 :=
  (h.threads.chain q).head_eq

theorem next_eq (hq : v.queue q = l ++ t :: l') : s.next t = l'.headD 0 :=
  (hq ▸ h.threads.chain q).next_eq

theorem ne_zero (ht : t ∈ v.queue q) : t ≠ 0 := (h.threads.chain q).ne_null ht

theorem nodup (q : Queue) : (v.queue q).Nodup := (h.threads.chain q).nodup

theorem load_eq (ht : v.alloc t = true) : load t s = .ok ((v.task t, s.next t), s) := by
  unfold load
  rw [get_bind_apply, if_pos (h.alloc_of ht), h.task_eq]
  rfl

theorem store_sim (ht : v.alloc t = true) : Sim (store t f) s () (v.setTask t f) := by
  refine ⟨{ s with task := update s.task t (f (s.task t)) }, ?_, ?_⟩
  · unfold store
    rw [get_bind_apply, if_pos (h.alloc_of ht)]
    rfl
  · refine { h with core := ?_ }
    obtain ⟨hcore, _, _, _⟩ := h
    cases s
    cases hcore
    rfl

end

end Repr

open View

open View

theorem View.size_setQueue (v : View) (q : Queue) (l : List Nat) :
    (v.setQueue q l).size + (v.queue q).length = v.size + l.length := by
  unfold size setQueue
  simp only [Queue.all, List.map_cons, List.map_nil, List.sum_cons, List.sum_nil]
  cases q with
  | ready i => fin_cases i <;> simp [update] <;> omega
  | waiting => simp [update]; omega
  | blocked => simp [update]; omega

theorem View.length_le_size (v : View) (q : Queue) : (v.queue q).length ≤ v.size := by
  unfold size
  simp only [Queue.all, List.map_cons, List.map_nil, List.sum_cons, List.sum_nil]
  cases q with
  | ready i => fin_cases i <;> simp <;> omega
  | waiting => omega
  | blocked => omega

namespace Repr

section
variable (h : Repr s v)
include h

theorem length_lt (q : Queue) : (v.queue q).length < NPAGE :=
  Nat.lt_of_le_of_lt (v.length_le_size q) h.short

theorem setNext_sim (ht : v.alloc t = true) (hout : ∀ q, t ∉ v.queue q) (n : Nat) :
    ∃ u, setNext t n s = .ok ((), u) ∧ Repr u v ∧ u.next t = n := by
  refine ⟨{ s with next := update s.next t n }, ?_, ?_, update_self ..⟩
  · unfold setNext
    rw [get_bind_apply, if_pos (h.alloc_of ht)]
    rfl
  · refine ⟨h.core, h.threads.congr fun q x hx => update_of_ne ?_ .., h.allocated, h.short⟩
    rintro rfl
    exact hout q hx

theorem lastOf_eq {b : Nat} (hq : v.queue q = l ++ (l' ++ [b])) (hfuel : l'.length < fuel) :
    lastOf fuel ((l' ++ [b]).headD 0) s = .ok (b, s) := by
  induction l' generalizing l fuel with
  | nil =>
    rcases fuel with _ | fuel
    · cases hfuel
    have hb : v.alloc b = true := h.allocated q b (by rw [hq]; simp)
    have hnext : s.next b = 0 := h.next_eq hq
    simp only [List.nil_append, List.headD_cons, lastOf, bind_of_ok (h.load_eq hb), hnext, if_true]
    rfl
  | cons a l' ih =>
    rcases fuel with _ | fuel
    · cases hfuel
    have ha : v.alloc a = true := h.allocated q a (by rw [hq]; simp)
    have hnext : s.next a = (l' ++ [b]).headD 0 := h.next_eq hq
    have hne : (l' ++ [b]).headD 0 ≠ 0 := by
      have hmem : (l' ++ [b]).headD 0 ∈ v.queue q := by
        rw [hq]
        cases l' <;> simp
      exact h.ne_zero hmem
    simp only [List.cons_append, List.headD_cons, lastOf, bind_of_ok (h.load_eq ha), hnext,
      if_neg hne]
    exact ih (l := l ++ [a]) (by rw [hq]; simp) (by simpa using hfuel)

theorem set {next : Nat → Nat} {head : Queue → Nat}
    (hth : Threads next 0 head (update v.queue q l)) (hal : ∀ t ∈ l, v.alloc t = true)
    (hlen : v.size + l.length < NPAGE + (v.queue q).length) :
    Repr { s with next, head } (v.setQueue q l) := by
  refine ⟨h.core, hth, fun d t ht => ?_, ?_⟩
  · by_cases hd : d = q
    · subst hd
      simp only [setQueue, update_self] at ht
      exact hal t ht
    · simp only [setQueue, update_of_ne hd] at ht
      exact h.allocated d t ht
  · have := v.size_setQueue q l
    omega

section
variable (ht : v.alloc t = true) (ht0 : t ≠ 0) (hout : ∀ q, t ∉ v.queue q)
  (hsize : v.size + 1 < NPAGE)
include ht ht0 hout hsize

theorem append_sim (q : Queue) : Sim (append q t) s () (v.setQueue q (v.queue q ++ [t])) := by
  obtain ⟨u, hu, hru, hnext⟩ := h.setNext_sim ht hout 0
  refine .step hu (.step (get_apply u) ?_)
  have hal : ∀ x ∈ v.queue q ++ [t], v.alloc x = true := by
    intro x hx
    rcases List.mem_append.mp hx with hx | hx
    · exact h.allocated _ x hx
    · rw [List.mem_singleton.mp hx]
      exact ht
  have hlen : v.size + (v.queue q ++ [t]).length < NPAGE + (v.queue q).length := by
    simp only [List.length_append, List.length_singleton]
    omega
  rcases List.eq_nil_or_concat (v.queue q) with hnil | ⟨l, b, hl⟩
  · have hhead : u.head q = 0 := by rw [hru.head_eq, hnil]; rfl
    rw [if_pos hhead]
    refine ⟨_, rfl, hru.set ?_ hal hlen⟩
    have hpush := hru.threads.push ht0 hout (hnext.trans hhead.symm) fun _ _ => rfl
    rw [hnil] at hpush ⊢
    exact hpush
  rw [List.concat_eq_append] at hl
  have hmem : b ∈ v.queue q := by rw [hl]; simp
  have hhead : u.head q = (l ++ [b]).headD 0 := by rw [hru.head_eq, hl]
  have hne : u.head q ≠ 0 := by
    rw [hhead]
    refine h.ne_zero (q := q) ?_
    rw [hl]
    cases l <;> simp
  have hfuel : l.length < NPAGE := by
    have := h.length_lt q
    rw [hl, List.length_append] at this
    omega
  rw [if_neg hne, hhead]
  refine .step (hru.lastOf_eq (l := []) hl hfuel) ?_
  refine ⟨{ u with next := update u.next b t }, ?_, hru.set ?_ hal hlen⟩
  · unfold setNext
    rw [get_bind_apply, if_pos (hru.alloc_of (h.allocated _ b hmem))]
    rfl
  · have hsnoc := hru.threads.snoc hl ht0 hnext hout
    rw [hl, List.append_assoc]
    exact hsnoc

theorem push_sim (q : Queue) : Sim (push q t) s () (v.setQueue q (t :: v.queue q)) := by
  refine .step (get_apply s) ?_
  obtain ⟨u, hu, hru, hnext⟩ := h.setNext_sim ht hout (s.head q)
  refine .step hu ⟨_, rfl, hru.set ?_ ?_ ?_⟩
  · refine hru.threads.push ht0 hout ?_ fun _ _ => rfl
    rw [hnext, h.head_eq, hru.head_eq]
  · intro x hx
    rcases List.mem_cons.mp hx with rfl | hx
    · exact ht
    · exact h.allocated _ x hx
  · simp only [List.length_cons]
    omega

theorem addReady_sim :
    Sim (embassy_add_to_ready_queue_locked t) s () (v.addReady t) := by
  refine .step (h.load_eq ht) ?_
  exact Sim.bind (h.append_sim ht ht0 hout hsize (v.readyQueue t)) fun w hw => hw.store_sim ht

end

/-! ### Searching -/

theorem walkTo_cases (task_id : Int) (hq : v.queue q = l ++ l') (hfuel : l'.length < fuel) :
    ((∀ x ∈ l', (v.task x).task_id ≠ task_id) ∧
      walkTo task_id fuel (l.getLastD 0) (l'.headD 0) s = .ok (none, s)) ∨
    ∃ m t m', l' = m ++ t :: m' ∧ (∀ x ∈ m, (v.task x).task_id ≠ task_id) ∧
      (v.task t).task_id = task_id ∧
      walkTo task_id fuel (l.getLastD 0) (l'.headD 0) s =
        .ok (some ((l ++ m).getLastD 0, t), s) := by
  induction l' generalizing l fuel with
  | nil =>
    rcases fuel with _ | fuel
    · cases hfuel
    exact .inl ⟨by simp, rfl⟩
  | cons t l' ih =>
    rcases fuel with _ | fuel
    · cases hfuel
    have hmem : t ∈ v.queue q := by rw [hq]; simp
    have hnext : s.next t = l'.headD 0 := h.next_eq hq
    rw [List.headD_cons, walkTo, if_neg (h.ne_zero hmem),
      bind_of_ok (h.load_eq (h.allocated q t hmem))]
    dsimp only
    by_cases hid : (v.task t).task_id = task_id
    · rw [if_pos hid]
      exact .inr ⟨[], t, l', rfl, by simp, hid, by simp⟩
    rw [if_neg hid, hnext]
    have hlast : (l ++ [t]).getLastD 0 = t := by simp
    have hrest := ih (l := l ++ [t]) (by rw [hq]; simp) (Nat.lt_of_succ_lt_succ hfuel)
    rw [hlast] at hrest
    rcases hrest with ⟨hnone, heq⟩ | ⟨m, x, m', rfl, hm, hx, heq⟩
    · refine .inl ⟨fun y hy => ?_, heq⟩
      rcases List.mem_cons.mp hy with rfl | hy
      · exact hid
      · exact hnone y hy
    · refine .inr ⟨t :: m, x, m', rfl, fun y hy => ?_, hx, ?_⟩
      · rcases List.mem_cons.mp hy with rfl | hy
        · exact hid
        · exact hm y hy
      · rw [heq, List.append_assoc, List.singleton_append]

theorem findIn_cases (q : Queue) (task_id : Int) :
    ((v.queue q).find? (fun t => (v.task t).task_id = task_id) = none ∧
      findIn q task_id s = .ok (none, s)) ∨
    ∃ m t m', v.queue q = m ++ t :: m' ∧ (v.task t).task_id = task_id ∧
      (v.queue q).find? (fun t => (v.task t).task_id = task_id) = some t ∧
      findIn q task_id s = .ok (some (m.getLastD 0, t), s) := by
  have hfind : findIn q task_id s = walkTo task_id NPAGE 0 ((v.queue q).headD 0) s := by
    rw [findIn, get_bind_apply, h.head_eq]
  rw [hfind]
  rcases h.walkTo_cases task_id (l := []) rfl (h.length_lt q) with
    ⟨hnone, heq⟩ | ⟨m, t, m', hl, hm, ht, heq⟩
  · refine .inl ⟨List.find?_eq_none.mpr fun x hx => ?_, heq⟩
    simpa using hnone x hx
  · refine .inr ⟨m, t, m', hl, ht, ?_, heq⟩
    rw [List.find?_eq_some_iff_append]
    exact ⟨by simpa using ht, m, m', hl, by simpa using hm⟩

theorem findFrom_eq (qs : List Queue) :
    findFrom task_id qs s = .ok (((qs.findSome? fun q =>
      ((v.queue q).find? fun t => (v.task t).task_id = task_id).map fun t => (q, t)).elim 0
        Prod.snd), s) := by
  induction qs with
  | nil => rfl
  | cons q qs ih =>
    rw [findFrom, List.findSome?_cons]
    rcases h.findIn_cases q task_id with ⟨hnone, heq⟩ | ⟨m, t, m', _, _, hsome, heq⟩
    · rw [bind_of_ok heq, hnone]
      exact ih
    · rw [bind_of_ok heq, hsome]
      rfl

theorem find_none (hloc : v.locate task_id = none) : embassy_find_task task_id s = .ok (0, s) := by
  unfold locate at hloc
  rw [embassy_find_task, h.findFrom_eq, hloc]
  rfl

theorem find_some (hloc : v.locate task_id = some (q, t)) :
    embassy_find_task task_id s = .ok (t, s) := by
  unfold locate at hloc
  rw [embassy_find_task, h.findFrom_eq, hloc]
  rfl

/-! ### Taking out -/

theorem remove_eq (hq : v.queue q = l ++ t :: l') : v.remove q t = v.setQueue q (l ++ l') := by
  have hnd := h.nodup q
  rw [hq] at hnd
  have ht : t ∉ l := fun hmem => (List.nodup_append.mp hnd).2.2 t hmem t (by simp) rfl
  rw [remove, hq, List.erase_append_right _ ht, List.erase_cons_head]

theorem unlink_sim (hq : v.queue q = l ++ t :: l') :
    Sim (unlink q (l.getLastD 0) (l'.headD 0)) s () (v.remove q t) := by
  rw [h.remove_eq hq]
  have hal : ∀ x ∈ l ++ l', v.alloc x = true := by
    intro x hx
    refine h.allocated q x ?_
    rw [hq]
    rcases List.mem_append.mp hx with hx | hx
    · exact List.mem_append_left _ hx
    · exact List.mem_append_right _ (List.mem_cons_of_mem _ hx)
  have hlen : v.size + (l ++ l').length < NPAGE + (v.queue q).length := by
    have := h.short
    rw [hq]
    simp only [List.length_append, List.length_cons]
    omega
  rw [← h.next_eq hq]
  rcases List.eq_nil_or_concat l with rfl | ⟨m, b, rfl⟩
  · refine ⟨{ s with head := update s.head q (s.next t) }, ?_, h.set ?_ hal hlen⟩
    · rfl
    · exact h.threads.pop hq
  rw [List.concat_eq_append] at hq hal hlen ⊢
  rw [List.append_assoc] at hq
  have hmem : b ∈ v.queue q := by rw [hq]; simp
  refine ⟨{ s with next := update s.next b (s.next t) }, ?_, h.set ?_ hal hlen⟩
  · have hlast : (m ++ [b]).getLastD 0 = b := by simp
    rw [hlast, unlink, if_pos (h.ne_zero hmem), setNext, get_bind_apply,
      if_pos (h.alloc_of (h.allocated q b hmem))]
    rfl
  · rw [List.append_assoc]
    exact h.threads.cut hq

theorem not_mem_remove (hq : t ∈ v.queue q) (d : Queue) : t ∉ (v.remove q t).queue d := by
  by_cases hd : d = q
  · subst hd
    simp only [remove, setQueue, update_self]
    exact (h.nodup d).not_mem_erase
  · simp only [remove, setQueue, update_of_ne hd]
    exact fun hmem => hd (h.threads.disjoint d q t hmem hq)

end

theorem size_remove (hq : t ∈ v.queue q) : (v.remove q t).size + 1 = v.size := by
  have := v.size_setQueue q ((v.queue q).erase t)
  rw [List.length_erase_of_mem hq] at this
  have hpos := List.length_pos_of_mem hq
  unfold remove
  omega

/-! ### Loops -/

theorem sweep_sim {visit : Nat → Kern State Bool} {done : Task → Bool}
    (hvisit : ∀ s v t, Repr s v → v.alloc t = true →
      Sim (visit t) s (done (v.task t)) (v.setTask t f))
    (h : Repr s v) (hready : ∀ i, q ≠ .ready i) (hq : v.queue q = l ++ l')
    (hfuel : l'.length < fuel) :
    Sim (sweep q visit fuel (l.getLastD 0) (l'.headD 0)) s ()
      (l'.foldl (View.visit q f done) v) := by
  induction l' generalizing l s v fuel with
  | nil =>
    rcases fuel with _ | fuel
    · cases hfuel
    exact .pure h
  | cons t l' ih =>
    rcases fuel with _ | fuel
    · cases hfuel
    have hmem : t ∈ v.queue q := by rw [hq]; simp
    have hal := h.allocated q t hmem
    have hfuel' : l'.length < fuel := by simpa using hfuel
    rw [List.headD_cons, sweep, if_neg (h.ne_zero hmem), List.foldl_cons]
    refine .step (h.load_eq hal) ?_
    rw [h.next_eq hq]
    refine .bind (hvisit s v t h hal) fun u hu => ?_
    have hq' : (v.setTask t f).queue q = l ++ t :: l' := hq
    by_cases hdone : done (v.task t) = true
    · rw [if_pos hdone]
      refine .bind (hu.unlink_sim hq') fun w hw => ?_
      have hsize := size_remove (v := v.setTask t f) hmem
      have hshort := hu.short
      refine .bind (hw.addReady_sim hal (h.ne_zero hmem) (hu.not_mem_remove hmem) (by omega))
        fun z hz => ?_
      have hvis : View.visit q f done v t = ((v.setTask t f).remove q t).addReady t := if_pos hdone
      rw [hvis]
      refine ih hz ?_ hfuel'
      have hne : q ≠ ((v.setTask t f).remove q t).readyQueue t := hready _
      rw [addReady, setTask, setQueue]
      dsimp only
      rw [update_of_ne hne, hu.remove_eq hq']
      exact update_self ..
    · rw [if_neg hdone]
      have hvis : View.visit q f done v t = v.setTask t f := if_neg hdone
      have hlast : (l ++ [t]).getLastD 0 = t := by simp
      have hrest := ih (l := l ++ [t]) hu (by rw [hq']; simp) hfuel'
      rw [hlast] at hrest
      rw [hvis]
      exact hrest

section
variable (h : Repr s v)
include h

theorem boostLoop_sim (hq : v.queue q = l ++ l') (hfuel : l'.length < fuel) :
    Sim (boostLoop fuel (l'.headD 0)) s () (l'.foldl (fun v t => v.setTask t Task.boost) v) := by
  induction l' generalizing l s v fuel with
  | nil =>
    rcases fuel with _ | fuel
    · cases hfuel
    exact .pure h
  | cons t l' ih =>
    rcases fuel with _ | fuel
    · cases hfuel
    have hmem : t ∈ v.queue q := by rw [hq]; simp
    have hal := h.allocated q t hmem
    rw [List.headD_cons, boostLoop, if_neg (h.ne_zero hmem)]
    refine .step (h.load_eq hal) ?_
    rw [h.next_eq hq]
    refine .bind (h.store_sim hal) fun u hu => ?_
    exact ih (l := l ++ [t]) hu (by rw [List.append_assoc]; exact hq) (by simpa using hfuel)

/-! ### Calls -/

theorem checkTask_sim (ht : v.alloc t = true) :
    Sim (checkTask task_id t) s ((v.task t).checked task_id)
      (v.setTask t (Task.check task_id)) := by
  refine .step (h.load_eq ht) ?_
  dsimp only
  cases hi : (v.task t).depIndex task_id with
  | none =>
    have hsame : v.setTask t (Task.check task_id) = v := by
      simp only [setTask, Task.check, hi, update_eq_self]
    rw [hsame, Task.checked, hi]
    exact .pure h
  | some i =>
    have hcheck : v.setTask t (Task.check task_id) = v.setTask t fun k => k.depDone i := by
      simp only [setTask, Task.check, hi]
    rw [hcheck, Task.checked, hi]
    exact .bind (h.store_sim ht) fun u hu => .pure hu

theorem checkDependencies_sim (task_id : Int) :
    Sim (embassy_check_dependencies task_id) s () (v.checkDependencies task_id) := by
  refine .step (get_apply s) ?_
  rw [h.head_eq]
  exact sweep_sim (l := []) (fun _ _ _ hr ht => hr.checkTask_sim ht) h nofun rfl (h.length_lt _)

theorem updateWaiting_sim (ticks : BitVec 32) :
    Sim (embassy_update_waiting_tasks ticks) s () (v.updateWaiting ticks) := by
  refine .step (get_apply s) ?_
  rw [h.head_eq]
  refine sweep_sim (l := []) (fun s v t hr ht => ?_) h nofun rfl (h.length_lt _)
  rw [setTask_id]
  exact .step (hr.load_eq ht) (.pure hr)

/-- Neither the links nor the pages of the queues change. -/
theorem core_sim (g : Core → Core) (hal : ∀ q, ∀ t ∈ v.queue q, (g v.toCore).alloc t = true) :
    Repr { s with toCore := g s.toCore } { v with toCore := g v.toCore } :=
  ⟨by rw [h.core], h.threads, hal, h.short⟩

theorem boostEach_sim (levels : List (Fin 4)) :
    Sim (Kern.forEach levels fun i => do
        let s ← Kern.get
        boostLoop NPAGE (s.head (.ready i))) s () (levels.foldl View.boostAll v) := by
  induction levels generalizing s v with
  | nil => exact .pure h
  | cons i levels ih =>
    refine .bind (a := ()) (.step (get_apply s) ?_) fun u hu => ih hu
    rw [h.head_eq]
    exact h.boostLoop_sim (l := []) rfl (h.length_lt _)

theorem periodicBoost_sim (ticks : BitVec 32) :
    Sim (embassy_periodic_priority_boost ticks) s () (v.periodicBoost ticks) := by
  have htime : s.last_boost_time = v.last_boost_time := congrArg Core.last_boost_time h.core
  refine .step (get_apply s) ?_
  rw [htime, periodicBoost]
  by_cases hb : ticks.setWidth 64 - v.last_boost_time < BOOST_INTERVAL
  · rw [if_pos hb, when_neg (not_not_intro hb)]
    exact .pure h
  · rw [if_neg hb, when_pos hb]
    have hset := h.core_sim (fun c => { c with last_boost_time := ticks.setWidth 64 }) h.allocated
    exact .step rfl (hset.boostEach_sim [3, 2, 1])

end

end Repr

/-! ### What a sweep does -/

/-- A task after a sweep over its list. -/
def Task.swept (f : Task → Task) (done : Task → Bool) (k : Task) : Task :=
  if done k then { f k with state := .READY } else f k

/-- The tasks of `l`, all of them on the list `q`, have been visited. -/
def View.swept (q : Queue) (f : Task → Task) (done : Task → Bool) (l : List Nat) (v : View) :
    View :=
  { v with
    task := fun t => if t ∈ l then (v.task t).swept f done else v.task t
    queue := fun
      | .ready i => v.queue (.ready i) ++
          l.filter fun t => done (v.task t) && readyIndex (f (v.task t)).priority = i
      | d => if d = q then (v.queue d).filter fun t => t ∉ l || !done (v.task t) else v.queue d }

section

variable {done : Task → Bool}

theorem View.visit_core (q : Queue) (f : Task → Task) (done : Task → Bool) (v : View) (t : Nat) :
    (View.visit q f done v t).toCore =
      { v.toCore with task := update v.task t ((v.task t).swept f done) } := by
  unfold visit Task.swept
  split <;> simp [addReady, setTask, remove, setQueue]

theorem View.visit_ready (hready : ∀ i, q ≠ .ready i) (i : Fin 4) :
    (View.visit q f done v t).queue (.ready i) = v.queue (.ready i) ++
      [t].filter fun t => done (v.task t) && readyIndex (f (v.task t)).priority = i := by
  have hne : Queue.ready i ≠ q := (hready i).symm
  unfold visit
  by_cases hdone : done (v.task t) = true
  · by_cases hi : readyIndex (f (v.task t)).priority = i
    · simp [addReady, readyQueue, setTask, remove, setQueue, hdone, hi,
        hne]
    · have hni : Queue.ready i ≠ .ready (readyIndex (f (v.task t)).priority) :=
        fun heq => hi (Queue.ready.inj heq).symm
      simp [addReady, readyQueue, setTask, remove, setQueue, hdone, hi,
        hne, hni]
  · simp [setTask, hdone]

theorem View.addReady_queue {d : Queue} (hready : ∀ i, d ≠ .ready i) :
    (v.addReady t).queue d = v.queue d := update_of_ne (hready _) ..

theorem View.visit_queue {d : Queue} (hready : ∀ i, d ≠ .ready i) :
    (View.visit q f done v t).queue d =
      if d = q ∧ done (v.task t) then (v.queue d).erase t else v.queue d := by
  unfold visit
  by_cases hdone : done (v.task t) = true
  · rw [if_pos hdone, addReady_queue hready]
    by_cases hd : d = q
    · subst hd
      simp [setTask, remove, setQueue, hdone]
    · simp [setTask, remove, setQueue, hd]
  · simp [setTask, hdone]

theorem View.swept_queue {d : Queue} (hready : ∀ i, d ≠ .ready i) :
    (v.swept q f done l).queue d =
      if d = q then (v.queue d).filter fun t => t ∉ l || !done (v.task t) else v.queue d := by
  cases d with
  | ready i => exact absurd rfl (hready i)
  | waiting => rfl
  | blocked => rfl

theorem View.visit_task_of_ne {x : Nat} (hne : x ≠ t) :
    (View.visit q f done v t).task x = v.task x := by
  have hcore := congrArg Core.task (visit_core q f done v t)
  rw [hcore]
  exact update_of_ne hne ..

theorem View.eq_of {w : View} (hcore : v.toCore = w.toCore) (hqueue : v.queue = w.queue) :
    v = w := by
  cases v
  cases hcore
  cases hqueue
  rfl

section
variable (hready : ∀ i, q ≠ .ready i)
include hready

theorem View.swept_visit (ht : t ∉ l) (hnd : (v.queue q).Nodup) :
    (View.visit q f done v t).swept q f done l = v.swept q f done (t :: l) := by
  have htask : ∀ x ≠ t, (visit q f done v t).task x = v.task x :=
    fun x hx => visit_task_of_ne hx
  have hl : ∀ x ∈ l, x ≠ t := fun x hx heq => ht (heq ▸ hx)
  have hcore : ((visit q f done v t).swept q f done l).toCore =
      (v.swept q f done (t :: l)).toCore := by
    have hv := visit_core q f done v t
    simp only [swept, hv, Core.mk.injEq, true_and, and_true]
    funext x
    by_cases hx : x = t
    · subst hx
      simp [ht]
    · simp [hx]
  have hqueue : ((visit q f done v t).swept q f done l).queue =
      (v.swept q f done (t :: l)).queue := by
    funext d
    by_cases hd : ∃ i, d = .ready i
    · obtain ⟨i, rfl⟩ := hd
      have hrest : (l.filter fun t' => done ((visit q f done v t).task t') &&
          readyIndex (f ((visit q f done v t).task t')).priority = i) =
          l.filter fun t' => done (v.task t') && readyIndex (f (v.task t')).priority = i := by
        refine List.filter_congr fun x hx => ?_
        rw [htask x (hl x hx)]
      simp only [swept, visit_ready hready, hrest, List.append_assoc]
      rw [← List.filter_append, List.singleton_append]
    have hd' : ∀ i, d ≠ .ready i := fun i heq => hd ⟨i, heq⟩
    rw [swept_queue hd', swept_queue hd', visit_queue hd']
    by_cases hq : d = q
    · subst hq
      by_cases hdone : done (v.task t) = true
      · rw [if_pos rfl, if_pos rfl, if_pos ⟨rfl, hdone⟩, hnd.erase_eq_filter, List.filter_filter]
        refine List.filter_congr fun x _ => ?_
        by_cases hx : x = t
        · subst hx
          simp [hdone]
        · simp [hx, htask x hx]
      · rw [if_pos rfl, if_pos rfl, if_neg fun h => hdone h.2]
        refine List.filter_congr fun x _ => ?_
        by_cases hx : x = t
        · subst hx
          simp [hdone, ht]
        · simp [hx, htask x hx]
    · rw [if_neg hq, if_neg hq, if_neg fun h => hq h.1]
  exact eq_of hcore hqueue

theorem View.foldl_visit (hl : l.Nodup) (hnd : (v.queue q).Nodup) :
    l.foldl (View.visit q f done) v = v.swept q f done l := by
  induction l generalizing v with
  | nil =>
    refine eq_of (by simp [swept]) (funext fun d => ?_)
    cases d with
    | ready i => simp [swept]
    | waiting => simp [swept]
    | blocked => simp [swept]
  | cons t l ih =>
    obtain ⟨ht, hl⟩ := List.nodup_cons.mp hl
    rw [List.foldl_cons, ih hl ?_, swept_visit hready ht hnd]
    rw [visit_queue hready]
    split
    · exact hnd.erase t
    · exact hnd

theorem View.sweep_eq (hnd : (v.queue q).Nodup) :
    v.sweep q f done = v.swept q f done (v.queue q) := foldl_visit hready hnd hnd

theorem View.mem_sweep {x : Nat} {d : Queue} (hnd : (v.queue q).Nodup)
    (hx : x ∈ (v.sweep q f done).queue d) : ∃ d, x ∈ v.queue d := by
  rw [sweep_eq hready hnd] at hx
  by_cases hd : ∃ i, d = .ready i
  · obtain ⟨i, rfl⟩ := hd
    rcases List.mem_append.mp hx with hx | hx
    · exact ⟨_, hx⟩
    · exact ⟨q, List.mem_of_mem_filter hx⟩
  · rw [swept_queue fun i heq => hd ⟨i, heq⟩] at hx
    split at hx
    · exact ⟨d, List.mem_of_mem_filter hx⟩
    · exact ⟨d, hx⟩

theorem View.sweep_task (hnd : (v.queue q).Nodup) (t : Nat) :
    (v.sweep q f done).task t = if t ∈ v.queue q then (v.task t).swept f done else v.task t := by
  rw [sweep_eq hready hnd]
  rfl

end

theorem View.sweep_core (v : View) (q : Queue) (f : Task → Task) (done : Task → Bool) :
    ∃ task, (v.sweep q f done).toCore = { v.toCore with task } := by
  unfold sweep
  generalize v.queue q = l
  induction l generalizing v with
  | nil => exact ⟨v.task, rfl⟩
  | cons t l ih =>
    obtain ⟨task, heq⟩ := ih (visit q f done v t)
    exact ⟨task, heq.trans (by rw [visit_core])⟩

theorem View.sweep_alloc : (v.sweep q f done).alloc = v.alloc := by
  obtain ⟨_, heq⟩ := v.sweep_core q f done
  rw [heq]

theorem View.sweep_current_task : (v.sweep q f done).current_task = v.current_task := by
  obtain ⟨_, heq⟩ := v.sweep_core q f done
  rw [heq]

theorem View.sweep_counter : (v.sweep q f done).task_counter = v.task_counter := by
  obtain ⟨_, heq⟩ := v.sweep_core q f done
  rw [heq]

theorem View.sweep_active : (v.sweep q f done).current_active_tasks = v.current_active_tasks := by
  obtain ⟨_, heq⟩ := v.sweep_core q f done
  rw [heq]

end

/-! ### Calls -/

namespace Repr

section
variable (h : Repr s v)
include h

theorem kfree_sim (ht : v.alloc t = true) (hout : ∀ q, t ∉ v.queue q) :
    Sim (kfree t) s () { v with alloc := update v.alloc t false } := by
  refine ⟨{ s with alloc := update s.alloc t false }, ?_, ?_⟩
  · unfold kfree
    rw [get_bind_apply, if_pos (h.alloc_of ht)]
    rfl
  · refine h.core_sim (fun c => { c with alloc := update c.alloc t false }) fun q x hx => ?_
    have hne : x ≠ t := fun heq => hout q (heq ▸ hx)
    exact (update_of_ne hne ..).trans (h.allocated q x hx)

theorem destroyIn_cases (q : Queue) (task_id : Int) :
    ((v.queue q).find? (fun t => (v.task t).task_id = task_id) = none ∧
      destroyIn q (q ≠ .blocked) task_id s = .ok (false, s)) ∨
    ∃ t, (v.queue q).find? (fun t => (v.task t).task_id = task_id) = some t ∧
      Sim (destroyIn q (q ≠ .blocked) task_id) s true (v.destroyAt q t) := by
  rcases h.findIn_cases q task_id with ⟨hnone, heq⟩ | ⟨m, t, m', hq, hid, hsome, heq⟩
  · refine .inl ⟨hnone, ?_⟩
    rw [destroyIn, bind_of_ok heq]
    rfl
  refine .inr ⟨t, hsome, ?_⟩
  have hmem : t ∈ v.queue q := by rw [hq]; simp
  have hal := h.allocated q t hmem
  refine .step heq (.step (h.load_eq hal) ?_)
  rw [h.next_eq hq]
  refine .bind (h.unlink_sim hq) fun u hu => ?_
  have hset := hu.core_sim
    (fun c => { c with current_active_tasks := c.current_active_tasks - 1 }) hu.allocated
  refine .step rfl ?_
  have hout := h.not_mem_remove hmem
  unfold destroyAt
  dsimp only
  by_cases hb : q = .blocked
  · rw [when_neg (by simpa using hb), if_neg (not_not_intro hb)]
    exact .bind (.pure hset) fun w hw => .bind (hw.kfree_sim hal hout) fun z hz => .pure hz
  rw [when_pos (by simpa using hb), if_pos hb, ← hid]
  refine .bind (hset.checkDependencies_sim _) fun w hw => ?_
  have hnd := hset.nodup .blocked
  refine .bind (hw.kfree_sim ?_ fun d hd => ?_) fun z hz => .pure hz
  · exact (congrFun sweep_alloc t).trans hal
  · obtain ⟨d, hd⟩ := mem_sweep (q := .blocked) nofun hnd hd
    exact hout d hd

theorem destroyFrom_sim (qs : List Queue) :
    Sim (destroyFrom task_id qs) s ()
      (match qs.findSome? fun q => ((v.queue q).find? fun t => (v.task t).task_id = task_id).map
          fun t => (q, t) with
      | none => v
      | some (q, t) => v.destroyAt q t) := by
  induction qs with
  | nil => exact .pure h
  | cons q qs ih =>
    rw [List.findSome?_cons]
    rcases h.destroyIn_cases q task_id with ⟨hnone, heq⟩ | ⟨t, hsome, hsim⟩
    · rw [hnone]
      exact .step heq ih
    · rw [hsome]
      exact .bind hsim fun w hw => .pure hw

theorem destroy_sim (task_id : Int) :
    Sim (embassy_destroy_task task_id) s () (v.destroy task_id) := h.destroyFrom_sim Queue.all

/-- The heads of the ready queues tell which of them is the first that is not empty. -/
theorem nextReady_eq (levels : List (Fin 4)) :
    levels.findSome? (fun i => (v.queue (.ready i)).head?.map fun t => (i, t)) =
      (levels.find? fun i => s.head (.ready i) ≠ 0).map fun i => (i, s.head (.ready i)) := by
  induction levels with
  | nil => rfl
  | cons i levels ih =>
    rw [List.findSome?_cons, List.find?_cons, h.head_eq]
    cases hl : v.queue (.ready i) with
    | nil => simpa using ih
    | cons t l =>
      have ht : t ≠ 0 := h.ne_zero (by rw [hl]; simp)
      simp [ht, h.head_eq, hl]

theorem getNext_sim : Sim embassy_get_next_task s v.getNext.current_task v.getNext := by
  refine .step (get_apply s) ?_
  have hnext : v.nextReady = _ := h.nextReady_eq (List.finRange 4)
  rw [getNext, hnext]
  cases hfind : (List.finRange 4).find? fun i => decide (s.head (.ready i) ≠ 0) with
  | none =>
    exact .step rfl (.pure (h.core_sim (fun c => { c with current_task := 0 }) h.allocated))
  | some i =>
    have hne : s.head (.ready i) ≠ 0 := by simpa using List.find?_some hfind
    obtain ⟨l, hl⟩ := h.threads.exists_cons hne
    dsimp only [Option.map_some]
    generalize s.head (.ready i) = t at hl hne
    have hmem : t ∈ v.queue (.ready i) := by rw [hl]; simp
    have hal := h.allocated _ t hmem
    refine .step (h.load_eq hal) ?_
    rw [h.next_eq (l := []) hl]
    refine .bind (h.unlink_sim (l := []) hl) fun u hu => ?_
    obtain ⟨w, hw, hrw, _⟩ := hu.setNext_sim hal (h.not_mem_remove hmem) 0
    refine .step hw (.bind (hrw.store_sim hal) fun z hz => ?_)
    exact .step rfl (.pure (hz.core_sim (fun c => { c with current_task := t }) hz.allocated))

end

end Repr

end Yyds.Embassy
