import Yyds.Embassy.Lists

/-! Every task is on one queue or runs, and its page is freed when it ends. -/
namespace Yyds.Embassy

open Lib Kern Function

/-- The state of the tasks on a queue. -/
def Queue.state : Queue → TaskState
  | .ready _ => .READY
  | .waiting => .WAITING
  | .blocked => .BLOCKED

theorem Task.check_state (task_id : Int) (k : Task) : (k.check task_id).state = k.state := by
  unfold Task.check
  split <;> rfl

/-- The tasks are those on the queues and those of `out`, which are on no queue; the count is off by
`n` from the tasks on the queues. -/
structure View.Holds (v : View) (out : List Nat) (n : Int) : Prop where
  nodup : ∀ q, (v.queue q).Nodup
  disjoint : ∀ q d, ∀ t ∈ v.queue q, t ∈ v.queue d → q = d
  state : ∀ q, ∀ t ∈ v.queue q, (v.task t).state = q.state
  alloc : ∀ t, v.alloc t = true ↔ (∃ q, t ∈ v.queue q) ∨ t ∈ out
  null : v.alloc 0 = false
  outNodup : out.Nodup
  outside : ∀ t ∈ out, ∀ q, t ∉ v.queue q
  active : v.current_active_tasks = v.size + n

variable {v w : View} {q d : Queue} {t : Nat} {l out : List Nat} {n : Int} {f : Task → Task}
  {done : Task → Bool}

open View

theorem View.mem_remove (hnd : (v.queue q).Nodup) (honly : ∀ d, t ∈ v.queue d → d = q) (d : Queue)
    (x : Nat) : x ∈ (v.remove q t).queue d ↔ x ∈ v.queue d ∧ x ≠ t := by
  by_cases hd : d = q
  · subst hd
    simp only [remove, setQueue, update_self]
    rw [hnd.mem_erase_iff, and_comm]
  · simp only [remove, setQueue, update_of_ne hd]
    exact ⟨fun hx => ⟨hx, fun heq => hd (honly d (heq ▸ hx))⟩, And.left⟩

namespace View.Holds

section
variable (h : v.Holds out n) (ht : t ∈ v.queue q)
include h ht

theorem mem_remove (d : Queue) (x : Nat) : x ∈ (v.remove q t).queue d ↔ x ∈ v.queue d ∧ x ≠ t :=
  View.mem_remove (h.nodup q) (fun d hd => h.disjoint d q t hd ht) d x

theorem ne_zero : t ≠ 0 := by
  rintro rfl
  have hal := (h.alloc 0).mpr (.inl ⟨q, ht⟩)
  rw [h.null] at hal
  exact Bool.false_ne_true hal

/-- A task leaves its queue; nothing is asked of it from then on. -/
theorem take (f : Task → Task) : ((v.setTask t f).remove q t).Holds (t :: out) (n + 1) := by
  have hmem : ∀ d x, x ∈ ((v.setTask t f).remove q t).queue d ↔ x ∈ v.queue d ∧ x ≠ t :=
    h.mem_remove ht
  refine ⟨fun d => ?_, fun d e x hx he => ?_, fun d x hx => ?_, fun x => ?_, h.null, ?_,
    fun x hx d hd => ?_, ?_⟩
  · by_cases hd : d = q
    · subst hd
      simp only [remove, setTask, setQueue, update_self]
      exact (h.nodup d).erase t
    · simp only [remove, setTask, setQueue, update_of_ne hd]
      exact h.nodup d
  · exact h.disjoint d e x ((hmem d x).mp hx).1 ((hmem e x).mp he).1
  · obtain ⟨hx, hne⟩ := (hmem d x).mp hx
    exact (congrArg Task.state (update_of_ne hne ..)).trans (h.state d x hx)
  · refine (h.alloc x).trans ?_
    simp only [hmem, List.mem_cons]
    by_cases hx : x = t
    · subst hx
      exact iff_of_true (.inl ⟨q, ht⟩) (.inr (.inl rfl))
    · simp [hx]
  · refine List.nodup_cons.mpr ⟨fun hout => ?_, h.outNodup⟩
    exact h.outside t hout q ht
  · obtain ⟨hd, hne⟩ := (hmem d x).mp hd
    rcases List.mem_cons.mp hx with rfl | hx
    · exact hne rfl
    · exact h.outside x hx d hd
  · have hsize : ((v.setTask t f).remove q t).size + 1 = v.size :=
      Repr.size_remove ht
    have hactive := h.active
    have hsame : ((v.setTask t f).remove q t).current_active_tasks = v.current_active_tasks := rfl
    omega

end

theorem put (h : v.Holds (t :: out) n) (hl : l.Perm (t :: v.queue q))
    (hstate : (f (v.task t)).state = q.state) :
    ((v.setQueue q l).setTask t f).Holds out (n - 1) := by
  have hout : ∀ d, t ∉ v.queue d := h.outside t List.mem_cons_self
  have hmem : ∀ d x, x ∈ ((v.setQueue q l).setTask t f).queue d ↔
      x ∈ v.queue d ∨ d = q ∧ x = t := by
    intro d x
    by_cases hd : d = q
    · subst hd
      simp only [setTask, setQueue, update_self, hl.mem_iff, List.mem_cons, true_and]
      exact or_comm
    · simp [setTask, setQueue, hd]
  obtain ⟨htout, hnd⟩ := List.nodup_cons.mp h.outNodup
  refine ⟨fun d => ?_, fun d e x hx he => ?_, fun d x hx => ?_, fun x => ?_, h.null, hnd,
    fun x hx d hd => ?_, ?_⟩
  · by_cases hd : d = q
    · subst hd
      simp only [setTask, setQueue, update_self]
      exact hl.nodup_iff.mpr (List.nodup_cons.mpr ⟨hout d, h.nodup d⟩)
    · simp only [setTask, setQueue, update_of_ne hd]
      exact h.nodup d
  · rcases (hmem d x).mp hx with hd | ⟨rfl, rfl⟩
    · rcases (hmem e x).mp he with he | ⟨_, rfl⟩
      · exact h.disjoint d e x hd he
      · exact absurd hd (hout d)
    · rcases (hmem e x).mp he with he | ⟨rfl, _⟩
      · exact absurd he (hout e)
      · rfl
  · rcases (hmem d x).mp hx with hx | ⟨rfl, rfl⟩
    · have hne : x ≠ t := fun heq => hout d (heq ▸ hx)
      exact (congrArg Task.state (update_of_ne hne ..)).trans (h.state d x hx)
    · exact (congrArg Task.state (update_self ..)).trans hstate
  · refine (h.alloc x).trans ?_
    simp only [hmem, List.mem_cons]
    constructor
    · rintro (⟨d, hd⟩ | rfl | hx)
      · exact .inl ⟨d, .inl hd⟩
      · exact .inl ⟨q, .inr ⟨rfl, rfl⟩⟩
      · exact .inr hx
    · rintro (⟨d, hd | ⟨_, rfl⟩⟩ | hx)
      · exact .inl ⟨d, hd⟩
      · exact .inr (.inl rfl)
      · exact .inr (.inr hx)
  · rcases (hmem d x).mp hd with hd | ⟨_, rfl⟩
    · exact h.outside x (List.mem_cons_of_mem _ hx) d hd
    · exact htout hx
  · have hsize : ((v.setQueue q l).setTask t f).size + (v.queue q).length = v.size + l.length :=
      v.size_setQueue q l
    have hlen := hl.length_eq
    rw [List.length_cons] at hlen
    have hactive := h.active
    have hsame : ((v.setQueue q l).setTask t f).current_active_tasks = v.current_active_tasks := rfl
    omega

theorem set (h : v.Holds out n) (hf : (f (v.task t)).state = (v.task t).state) :
    (v.setTask t f).Holds out n := by
  refine { h with state := fun d x hx => ?_ }
  by_cases hx' : x = t
  · subst hx'
    have hself : (v.setTask x f).task x = f (v.task x) := update_self ..
    rw [hself, hf]
    exact h.state d x hx
  · exact (congrArg Task.state (update_of_ne hx' ..)).trans (h.state d x hx)

theorem ready (h : v.Holds (t :: out) n) : (v.addReady t).Holds out (n - 1) :=
  h.put (List.perm_append_singleton ..) rfl

section
variable (h : v.Holds out n)
include h

theorem visit (ht : t ∈ v.queue q) (hf : ∀ k, (f k).state = k.state) :
    (View.visit q f done v t).Holds out n := by
  unfold View.visit
  split
  · have htaken := (h.take ht f).ready
    rwa [add_sub_cancel_right] at htaken
  · exact h.set (hf _)

theorem foldl_visit (hready : ∀ i, q ≠ .ready i) (hf : ∀ k, (f k).state = k.state) (hl : l.Nodup)
    (hmem : ∀ t ∈ l, t ∈ v.queue q) : (l.foldl (View.visit q f done) v).Holds out n := by
  induction l generalizing v with
  | nil => exact h
  | cons t l ih =>
    obtain ⟨ht, hl⟩ := List.nodup_cons.mp hl
    refine ih (h.visit (hmem t List.mem_cons_self) hf) hl fun x hx => ?_
    have hne : x ≠ t := fun heq => ht (heq ▸ hx)
    have hx := hmem x (List.mem_cons_of_mem _ hx)
    rw [visit_queue hready]
    split
    · exact (List.mem_erase_of_ne hne).mpr hx
    · exact hx

theorem sweep (hready : ∀ i, q ≠ .ready i) (hf : ∀ k, (f k).state = k.state) :
    (v.sweep q f done).Holds out n :=
  h.foldl_visit hready hf (h.nodup q) fun _ ht => ht

theorem checkDependencies (task_id : Int) :
    (v.checkDependencies task_id).Holds out n := h.sweep nofun (Task.check_state task_id)

end

theorem free (h : v.Holds (t :: out) n) :
    View.Holds { v with alloc := update v.alloc t false } out n := by
  obtain ⟨htout, hnd⟩ := List.nodup_cons.mp h.outNodup
  have hout : ∀ d, t ∉ v.queue d := h.outside t List.mem_cons_self
  refine { h with
    alloc := fun x => ?_, null := ?_, outNodup := hnd
    outside := fun x hx => h.outside x (List.mem_cons_of_mem _ hx) }
  · dsimp only
    by_cases hx : x = t
    · subst hx
      rw [update_self]
      refine iff_of_false Bool.false_ne_true ?_
      rintro (⟨d, hd⟩ | hx)
      · exact hout d hd
      · exact htout hx
    · rw [update_of_ne hx, h.alloc x]
      simp [hx]
  · dsimp only
    rw [update_apply]
    split
    · rfl
    · exact h.null

theorem of_eq (h : v.Holds out n) (halloc : w.alloc = v.alloc)
    (hstate : ∀ t, (w.task t).state = (v.task t).state) (hqueue : w.queue = v.queue)
    (hactive : w.current_active_tasks = v.current_active_tasks) : w.Holds out n := by
  have hsize : w.size = v.size := by
    unfold size
    rw [hqueue]
  refine ⟨hqueue ▸ h.nodup, hqueue ▸ h.disjoint, ?_, ?_, ?_, h.outNodup, hqueue ▸ h.outside, ?_⟩
  · rw [hqueue]
    exact fun q t ht => (hstate t).trans (h.state q t ht)
  · rw [halloc, hqueue]
    exact h.alloc
  · rw [halloc]
    exact h.null
  · rw [hactive, hsize]
    exact h.active

theorem count (h : v.Holds out n) (m : Int) :
    View.Holds { v with current_active_tasks := m } out (n + (m - v.current_active_tasks)) := by
  refine { h with active := ?_ }
  have hactive := h.active
  have hsize : size { v with current_active_tasks := m } = v.size := rfl
  dsimp only
  omega

theorem alloc_page (h : v.Holds out n) (ht : v.alloc t = false) (ht0 : t ≠ 0) (k : Task)
    (task_counter : Int) :
    View.Holds
      { v with
        alloc := update v.alloc t true
        task := update v.task t k
        task_counter }
      (t :: out) n := by
  have hnew : ¬ ((∃ q, t ∈ v.queue q) ∨ t ∈ out) := by
    rw [← h.alloc t, ht]
    exact Bool.false_ne_true
  refine ⟨h.nodup, h.disjoint, fun d x hx => ?_, fun x => ?_, ?_, ?_, fun x hx d hd => ?_, h.active⟩
  · have hne : x ≠ t := fun heq => hnew (.inl ⟨d, heq ▸ hx⟩)
    exact (congrArg Task.state (update_of_ne hne ..)).trans (h.state d x hx)
  · dsimp only
    by_cases hx : x = t
    · subst hx
      simp
    · rw [update_of_ne hx, h.alloc x]
      simp [hx]
  · exact (update_of_ne ht0.symm ..).trans h.null
  · exact List.nodup_cons.mpr ⟨fun hmem => hnew (.inr hmem), h.outNodup⟩
  · rcases List.mem_cons.mp hx with rfl | hx
    · exact hnew (.inl ⟨d, hd⟩)
    · exact h.outside x hx d hd

end View.Holds

/-! ### Between two calls -/

/-- The task that runs is on no queue. -/
def View.current (v : View) : List Nat := if v.current_task = 0 then [] else [v.current_task]

structure View.Whole (v : View) : Prop where
  holds : v.Holds v.current v.current.length
  running : v.current_task ≠ 0 → (v.task v.current_task).state = .RUNNING
  bound : v.current_active_tasks ≤ EMBASSY_MAX_TASKS

theorem View.current_zero (h : v.current_task = 0) : v.current = [] := if_pos h

theorem View.current_ne (h : v.current_task ≠ 0) : v.current = [v.current_task] := if_neg h

theorem View.locate_some {task_id : Int} (h : v.locate task_id = some (q, t)) :
    t ∈ v.queue q ∧ (v.task t).task_id = task_id ∧
      (v.queue q).find? (fun t => (v.task t).task_id = task_id) = some t := by
  obtain ⟨d, _, hd⟩ := List.exists_of_findSome?_eq_some h
  obtain ⟨x, hx, heq⟩ := Option.map_eq_some_iff.mp hd
  obtain ⟨rfl, rfl⟩ := Prod.mk.inj heq
  exact ⟨List.mem_of_find?_eq_some hx, by simpa using List.find?_some hx, hx⟩

theorem View.locate_congr {task_id : Int} (hqueue : w.queue = v.queue)
    (hid : ∀ t, (w.task t).task_id = (v.task t).task_id) : w.locate task_id = v.locate task_id := by
  unfold locate
  simp only [hqueue, hid]

theorem View.scheduleEnd_eq (ht : v.locate (v.task t).task_id = some (q, t)) :
    v.scheduleEnd t = ({ v with frames := v.frames.erase t }.setTask t fun k =>
      { k with state := .COMPLETED }).destroyAt q t := by
  have hloc : locate ({ v with frames := v.frames.erase t }.setTask t fun k =>
      { k with state := .COMPLETED }) (v.task t).task_id = some (q, t) := by
    rw [← ht]
    refine locate_congr rfl fun x => ?_
    by_cases hx : x = t
    · subst hx
      rw [setTask_self]
    · rw [setTask_of_ne _ _ hx]
  unfold View.scheduleEnd View.destroy
  rw [hloc]

/-- Only priorities differ, and the time of the last boost. -/
structure View.Alike (v w : View) : Prop where
  queue : w.queue = v.queue
  task : ∀ t, ∃ priority, w.task t = { v.task t with priority }
  core : ∃ task last_boost_time, w.toCore = { v.toCore with task, last_boost_time }

namespace View.Alike

theorem refl (v : View) : v.Alike v := ⟨rfl, fun _ => ⟨_, rfl⟩, ⟨_, _, rfl⟩⟩

theorem trans {u : View} (h : v.Alike w) (hw : w.Alike u) : v.Alike u := by
  refine ⟨hw.queue.trans h.queue, fun t => ?_, ?_⟩
  · obtain ⟨_, heq⟩ := h.task t
    obtain ⟨p, heq'⟩ := hw.task t
    exact ⟨p, heq'.trans (by rw [heq])⟩
  · obtain ⟨_, _, heq⟩ := h.core
    obtain ⟨_, _, heq'⟩ := hw.core
    exact ⟨_, _, heq'.trans (by rw [heq])⟩

theorem boost (v : View) (t : Nat) : v.Alike (v.setTask t Task.boost) := by
  refine ⟨rfl, fun x => ?_, ⟨_, _, rfl⟩⟩
  by_cases hx : x = t
  · subst hx
    rw [setTask_self, Task.boost]
    split
    · exact ⟨_, rfl⟩
    · exact ⟨_, rfl⟩
  · rw [setTask_of_ne _ _ hx]
    exact ⟨_, rfl⟩

theorem foldl {α : Type} {g : View → α → View} (hg : ∀ (v : View) a, v.Alike (g v a)) (as : List α)
    (v : View) : v.Alike (as.foldl g v) := by
  induction as generalizing v with
  | nil => exact .refl v
  | cons a as ih => exact (hg v a).trans (ih (g v a))

theorem periodicBoost (v : View) (ticks : BitVec 32) : v.Alike (v.periodicBoost ticks) := by
  unfold View.periodicBoost
  split
  · exact .refl v
  · have hset : v.Alike { v with last_boost_time := ticks.setWidth 64 } :=
      ⟨rfl, fun _ => ⟨_, rfl⟩, ⟨_, _, rfl⟩⟩
    exact hset.trans (foldl (fun v i => foldl boost (v.queue (.ready i)) v) _ _)

theorem boostPriority (v : View) (task_id : Int) : v.Alike (v.boostPriority task_id) := by
  unfold View.boostPriority
  split
  · exact .refl v
  · exact boost v _

theorem alloc (h : v.Alike w) : w.alloc = v.alloc := by
  obtain ⟨_, _, heq⟩ := h.core
  rw [heq]

theorem current_task (h : v.Alike w) : w.current_task = v.current_task := by
  obtain ⟨_, _, heq⟩ := h.core
  rw [heq]

theorem active (h : v.Alike w) : w.current_active_tasks = v.current_active_tasks := by
  obtain ⟨_, _, heq⟩ := h.core
  rw [heq]

theorem state (h : v.Alike w) (t : Nat) : (w.task t).state = (v.task t).state := by
  obtain ⟨_, heq⟩ := h.task t
  rw [heq]

end View.Alike

theorem View.nextReady_mem {i : Fin 4} (h : v.nextReady = some (i, t)) :
    t ∈ v.queue (.ready i) := by
  obtain ⟨j, _, hj⟩ := List.exists_of_findSome?_eq_some h
  obtain ⟨x, hx, heq⟩ := Option.map_eq_some_iff.mp hj
  obtain ⟨rfl, rfl⟩ := Prod.mk.inj heq
  exact List.mem_of_mem_head? hx

namespace View.Whole

section
variable (h : v.Whole)
include h

theorem short : v.size + 1 < NPAGE := by
  have hactive := h.holds.active
  have hbound := h.bound
  have hpages : NPAGE = 32768 := rfl
  have hmax : EMBASSY_MAX_TASKS = 64 := rfl
  omega

theorem of_current (hw : w.Holds v.current v.current.length)
    (hcur : w.current_task = v.current_task)
    (hactive : w.current_active_tasks ≤ v.current_active_tasks)
    (htask : ∀ t, (∀ q, t ∉ v.queue q) → w.task t = v.task t) : w.Whole := by
  have hcurrent : w.current = v.current := by
    unfold current
    rw [hcur]
  refine ⟨hcurrent ▸ hw, fun hne => ?_, hactive.trans h.bound⟩
  rw [hcur] at hne ⊢
  rw [htask]
  · exact h.running hne
  · refine h.holds.outside _ ?_
    rw [current_ne hne]
    exact List.mem_singleton_self _

theorem sweep (hready : ∀ i, q ≠ .ready i) (hf : ∀ k, (f k).state = k.state) :
    (v.sweep q f done).Whole := by
  refine h.of_current (h.holds.sweep hready hf) sweep_current_task sweep_active.le fun t ht => ?_
  rw [sweep_task hready (h.holds.nodup q), if_neg (ht q)]

theorem set (hf : (f (v.task t)).state = (v.task t).state) (ht : t ∈ v.queue q) :
    (v.setTask t f).Whole := by
  refine h.of_current (h.holds.set hf) rfl le_rfl fun x hx => update_of_ne ?_ ..
  rintro rfl
  exact hx q ht

theorem updateWaiting (ticks : BitVec 32) : (v.updateWaiting ticks).Whole :=
  h.sweep nofun fun _ => rfl

theorem alike (hw : v.Alike w) : w.Whole := by
  have hcurrent : w.current = v.current := by
    unfold current
    rw [hw.current_task]
  refine ⟨hcurrent ▸ ?_, fun hne => ?_, hw.active.trans_le h.bound⟩
  · exact h.holds.of_eq hw.alloc hw.state hw.queue hw.active
  · rw [hw.current_task] at hne ⊢
    rw [hw.state]
    exact h.running hne

theorem destroyAt (ht : t ∈ v.queue q) (f : Task → Task) :
    ((v.setTask t f).destroyAt q t).Whole := by
  have htaken := (h.holds.take ht f).count (v.current_active_tasks - 1)
  have hn : (v.current.length : Int) + 1 + (v.current_active_tasks - 1 -
      ((v.setTask t f).remove q t).current_active_tasks) = v.current.length := by
    have hsame : ((v.setTask t f).remove q t).current_active_tasks = v.current_active_tasks := rfl
    omega
  rw [hn] at htaken
  have hother : ∀ x, (∀ d, x ∉ v.queue d) → x ≠ t := fun x hx heq => hx q (heq ▸ ht)
  unfold View.destroyAt
  dsimp only
  by_cases hb : q = .blocked
  · rw [if_neg (not_not_intro hb)]
    refine h.of_current htaken.free rfl (Int.sub_le_self _ (by decide)) fun x hx => ?_
    exact update_of_ne (hother x hx) ..
  rw [if_pos hb]
  have hswept := htaken.checkDependencies ((v.setTask t f).task t).task_id
  refine h.of_current hswept.free sweep_current_task ?_ fun x hx => ?_
  · exact sweep_active.trans_le (Int.sub_le_self _ (by decide))
  · refine (sweep_task (q := .blocked) nofun (htaken.nodup .blocked) x).trans
      ((if_neg fun hmem => ?_).trans ?_)
    · exact hx .blocked ((h.holds.mem_remove ht .blocked x).mp hmem).1
    · exact update_of_ne (hother x hx) ..

theorem create {page : Nat} (hactive : v.current_active_tasks < EMBASSY_MAX_TASKS)
    (hpage : v.alloc page = false) (hne : page ≠ 0) (priority : Int) :
    (v.create page priority).Whole := by
  have hother : v.current_task ≠ 0 → v.current_task ≠ page := by
    intro hcur heq
    have hal := (h.holds.alloc page).mpr (.inr (by simp [current_ne hcur, heq]))
    rw [hpage] at hal
    exact Bool.false_ne_true hal
  refine ⟨?_, fun hcur => ?_, Int.add_one_le_iff.mpr hactive⟩
  · have hnew := ((h.holds.alloc_page hpage hne (.fresh v.task_counter priority)
      (Kernel.int (v.task_counter + 1))).ready).count (v.current_active_tasks + 1)
    have hn : (v.current.length : Int) - 1 + (v.current_active_tasks + 1 - v.current_active_tasks) =
        v.current.length := by omega
    exact hn ▸ hnew
  · have hne := hother hcur
    refine (congrArg Task.state ?_).trans (h.running hcur)
    exact (update_of_ne hne ..).trans (update_of_ne hne ..)

theorem yield : v.yield.Whole := by
  unfold View.yield
  split
  · have hcur := h.holds
    rw [current_ne ‹_›] at hcur
    exact ⟨hcur.ready.of_eq rfl (fun _ => rfl) rfl rfl, fun hne => absurd rfl hne, h.bound⟩
  · exact h

theorem delay (milliseconds : Int) (ticks : BitVec 32) : (v.delay milliseconds ticks).Whole := by
  unfold View.delay
  split
  · have hcur := h.holds
    rw [current_ne ‹_›] at hcur
    have hput := hcur.put (q := .waiting) (.refl _) (f := fun k =>
      { k with wake_time := wakeTime milliseconds ticks, state := .WAITING }) rfl
    exact ⟨hput.of_eq rfl (fun _ => rfl) rfl rfl, fun hne => absurd rfl hne, h.bound⟩
  · exact h

theorem getNext (hcur : v.current_task = 0) : v.getNext.Whole := by
  have hholds := h.holds
  rw [current_zero hcur] at hholds
  unfold View.getNext
  split
  · exact ⟨hholds.of_eq rfl (fun _ => rfl) rfl rfl, fun hne => absurd rfl hne, h.bound⟩
  rename_i i t hnext
  have ht : t ∈ v.queue (.ready i) := nextReady_mem hnext
  have ht0 : t ≠ 0 := h.holds.ne_zero ht
  have htake := hholds.take ht fun k => { k with state := .RUNNING }
  refine ⟨?_, fun _ => ?_, h.bound⟩
  · rw [current_ne ht0]
    exact htake.of_eq rfl (fun _ => rfl) rfl rfl
  · exact congrArg Task.state (v.setTask_self t fun k => { k with state := .RUNNING })

theorem frames (frames : List Nat) : View.Whole { v with frames } :=
  ⟨h.holds.of_eq rfl (fun _ => rfl) rfl rfl, h.running, h.bound⟩

theorem scheduleBegin (hcur : v.current_task = 0) (ticks : BitVec 32) :
    (v.scheduleBegin ticks).2.Whole := by
  have hboost := View.Alike.periodicBoost v ticks
  have hwait := (h.alike hboost).updateWaiting ticks
  have hcur' : ((v.periodicBoost ticks).updateWaiting ticks).current_task = 0 := by
    rw [View.updateWaiting, sweep_current_task, hboost.current_task, hcur]
  have hnext := hwait.getNext hcur'
  unfold View.scheduleBegin
  dsimp only
  split
  · exact hnext.frames _
  · exact hnext

theorem destroy (task_id : Int) : (v.destroy task_id).Whole := by
  unfold View.destroy
  split
  · exact h
  · rename_i q t hloc
    have hend := h.destroyAt (locate_some hloc).1 id
    rwa [setTask_id] at hend

theorem scheduleEnd (ht : v.locate (v.task t).task_id = some (q, t)) : (v.scheduleEnd t).Whole := by
  rw [scheduleEnd_eq ht]
  exact (h.frames (v.frames.erase t)).destroyAt (locate_some ht).1 fun k =>
    { k with state := .COMPLETED }

theorem addDependency (task_id dep_task_id : Int) :
    (v.addDependency task_id dep_task_id).2.Whole := by
  unfold View.addDependency
  split
  · exact h
  rename_i q t hloc
  have ht := (locate_some hloc).1
  split
  · exact h
  have hset : (v.setTask t fun k => k.depend dep_task_id).Whole := h.set rfl ht
  split
  · have htake := hset.holds.take ht id
    rw [setTask_id] at htake
    have hput := htake.put (q := .blocked) (.refl _)
      (f := fun k => { k with state := .BLOCKED }) rfl
    rw [add_sub_cancel_right] at hput
    refine hset.of_current hput rfl le_rfl fun x hx => ?_
    have hne : x ≠ t := fun heq => hx q (heq ▸ ht)
    exact update_of_ne hne ..
  · exact hset

end

end View.Whole

/-! ### The calls on links -/

/-- What a routine returns. -/
def result {α : Type} (x : Kern State α) (s : State) : Option α :=
  match x s with
  | .ok (a, _) => some a
  | .error _ => none

/-- A dependency is given to a task only if the task is on the ready queue that its priority names,
or on none; `embassy_schedule` is called when no task runs; and a task's function returns when the
task is on a queue, which is so if it has called `embassy_yield` or `embassy_delay_ms` last. -/
def Regular (s : State) : Op → Prop
  | .addDependency task_id _ => ∀ i : Fin 4,
    (result (findIn (.ready i) task_id) s).join.all fun (_, t) =>
      (s.task t).priority = BitVec.ofNat 32 i
  | .scheduleBegin _ => s.current_task = 0
  | .scheduleEnd t => t ≠ 0 ∧ result (embassy_find_task (s.task t).task_id) s = some t
  | _ => True

instance (s : State) : DecidablePred (Regular s) := fun a => by
  refine a.casesOn ?_ ?_ ?_ ?_ ?_ ?_ ?_ ?_ ?_ ?_ <;> intros <;> dsimp only [Regular] <;>
    infer_instance

variable {s : State} {task_id dep_task_id : Int}

namespace Repr

theorem current_task_eq (h : Repr s v) : s.current_task = v.current_task :=
  congrArg Core.current_task h.core

theorem create_sim (h : Repr s v) (hw : v.Whole) {page : Nat} (hpage : v.alloc page = false)
    (priority : Int) :
    Sim (embassy_create_task page priority) s (v.exec (.create page priority)).1
      (v.exec (.create page priority)).2 := by
  have hactive : s.current_active_tasks = v.current_active_tasks :=
    congrArg Core.current_active_tasks h.core
  have hcounter : s.task_counter = v.task_counter := congrArg Core.task_counter h.core
  refine .step (get_apply s) ?_
  rw [hactive, hcounter]
  dsimp only [exec]
  by_cases hmax : v.current_active_tasks ≥ EMBASSY_MAX_TASKS
  · rw [if_pos hmax, if_pos (.inl hmax)]
    exact .pure h
  rw [if_neg hmax]
  by_cases hnull : page = 0
  · rw [if_pos hnull, if_pos (.inr hnull)]
    exact .pure h
  rw [if_neg hnull, if_neg (not_or.mpr ⟨hmax, hnull⟩)]
  have hout : ∀ q, page ∉ v.queue q := by
    intro q hq
    rw [h.allocated q page hq] at hpage
    exact Bool.false_ne_true hpage.symm
  have hset := h.core_sim (fun c =>
    { c with
      alloc := update c.alloc page true
      task := update c.task page (.fresh c.task_counter priority)
      task_counter := Kernel.int (c.task_counter + 1) }) fun q x hx => by
    dsimp only
    rw [update_apply]
    split
    · rfl
    · exact h.allocated q x hx
  refine .step rfl (.bind (hset.addReady_sim ?_ hnull hout hw.short) fun u hu => ?_)
  · exact update_self ..
  · have hcount := hu.core_sim
      (fun c => { c with current_active_tasks := c.current_active_tasks + 1 }) hu.allocated
    exact .step rfl (.pure hcount)

/-- The task that runs, and what is known of its page. -/
theorem current_out (hw : v.Whole) (hcur : v.current_task ≠ 0) :
    v.alloc v.current_task = true ∧ ∀ q, v.current_task ∉ v.queue q := by
  have hmem : v.current_task ∈ v.current := by simp [current_ne hcur]
  exact ⟨(hw.holds.alloc v.current_task).mpr (.inr hmem), hw.holds.outside _ hmem⟩

section
variable (h : Repr s v)
include h

theorem yield_sim (hw : v.Whole) : Sim embassy_yield s () v.yield := by
  refine .step (get_apply s) ?_
  rw [h.current_task_eq, View.yield]
  by_cases hcur : v.current_task ≠ 0
  · obtain ⟨hal, hout⟩ := current_out hw hcur
    rw [when_pos hcur, if_pos hcur]
    refine .bind (h.store_sim hal) fun u hu => .bind (hu.addReady_sim hal hcur hout hw.short)
      fun w hw => ?_
    have hsame : (v.setTask v.current_task fun k => { k with state := .READY }).addReady
        v.current_task = v.addReady v.current_task := by
      simp [addReady, readyQueue, setTask, setQueue]
    rw [hsame] at hw
    exact ⟨_, rfl, hw.core_sim (fun c => { c with current_task := 0 }) hw.allocated⟩
  · rw [when_neg hcur, if_neg hcur]
    exact .pure h

theorem delay_sim (hw : v.Whole) (milliseconds : Int) (ticks : BitVec 32) :
    Sim (embassy_delay_ms milliseconds ticks) s () (v.delay milliseconds ticks) := by
  refine .step (get_apply s) ?_
  rw [h.current_task_eq, View.delay]
  by_cases hcur : v.current_task ≠ 0
  · obtain ⟨hal, hout⟩ := current_out hw hcur
    rw [when_pos hcur, if_pos hcur]
    refine .bind (h.store_sim hal) fun u hu =>
      .bind (hu.push_sim hal hcur hout hw.short .waiting) fun w hw => ?_
    exact ⟨_, rfl, hw.core_sim (fun c => { c with current_task := 0 }) hw.allocated⟩
  · rw [when_neg hcur, if_neg hcur]
    exact .pure h

theorem scheduleBegin_sim (ticks : BitVec 32) :
    Sim (embassy_schedule_begin ticks) s
      ((v.periodicBoost ticks).updateWaiting ticks).getNext.current_task
      (v.scheduleBegin ticks).2 := by
  refine .bind (h.periodicBoost_sim ticks) fun u hu => .bind (hu.updateWaiting_sim ticks)
    fun w hw => .bind hw.getNext_sim fun z hz => ?_
  unfold View.scheduleBegin
  dsimp only
  split
  · rename_i hne
    rw [when_pos hne]
    have hframes := hz.core_sim (fun c => { c with
      frames := ((v.periodicBoost ticks).updateWaiting ticks).getNext.current_task :: c.frames })
      hz.allocated
    exact .step rfl (.pure hframes)
  · rename_i hne
    rw [when_neg hne]
    exact .bind (.pure hz) fun y hy => .pure hy

theorem scheduleEnd_sim (ht : v.alloc t = true) :
    Sim (embassy_schedule_end t) s () (v.scheduleEnd t) := by
  have hframes := h.core_sim (fun c => { c with frames := c.frames.erase t }) h.allocated
  refine .step rfl (.bind (hframes.store_sim ht) fun u hu => .step (hu.load_eq ht) ?_)
  rw [setTask_self]
  exact hu.destroy_sim _

theorem boostPriority_sim (task_id : Int) :
    Sim (embassy_boost_priority task_id) s () (v.boostPriority task_id) := by
  unfold View.boostPriority
  cases hloc : v.locate task_id with
  | none =>
    refine .step (h.find_none hloc) ?_
    exact .pure h
  | some r =>
    obtain ⟨q, t⟩ := r
    have ht := (locate_some hloc).1
    refine .step (h.find_some hloc) ?_
    rw [when_pos (h.ne_zero ht)]
    exact h.store_sim (h.allocated q t ht)

end

theorem toInt_level : ∀ i : Fin 4, (BitVec.ofNat 32 i).toInt = i := by decide

theorem leaveReady_sim (h : Repr s v) (i : Fin 4)
    (hfind : (v.queue (.ready i)).find? (fun t => (v.task t).task_id = task_id) = some t) :
    Sim (leaveReady task_id (BitVec.ofNat 32 i)) s () (v.remove (.ready i) t) := by
  have hi : (BitVec.ofNat 32 i).toInt = i := toInt_level i
  have hrange : 0 ≤ (BitVec.ofNat 32 i).toInt ∧ (BitVec.ofNat 32 i).toInt < 4 := by omega
  have hidx : (⟨(BitVec.ofNat 32 i).toInt.toNat, by omega⟩ : Fin 4) = i := by
    apply Fin.ext
    dsimp only
    omega
  unfold leaveReady
  rw [dif_pos hrange]
  rw [hidx]
  rcases h.findIn_cases (.ready i) task_id with ⟨hnone, _⟩ | ⟨m, x, m', hq, _, hsome, heq⟩
  · rw [hnone] at hfind
    exact absurd hfind nofun
  · obtain rfl : x = t := Option.some.inj (hsome.symm.trans hfind)
    have hmem : x ∈ v.queue (.ready i) := by rw [hq]; simp
    refine .step heq (.step (h.load_eq (h.allocated _ x hmem)) ?_)
    rw [h.next_eq hq]
    exact h.unlink_sim hq

theorem addDependency_sim (h : Repr s v) (hw : v.Whole)
    (hready : ∀ i t, (v.queue (.ready i)).find? (fun t => (v.task t).task_id = task_id) = some t →
      (v.task t).priority = BitVec.ofNat 32 i) :
    Sim (embassy_add_dependency task_id dep_task_id) s (v.addDependency task_id dep_task_id).1
      (v.addDependency task_id dep_task_id).2 := by
  unfold View.addDependency
  cases hloc : v.locate task_id with
  | none =>
    refine .step (h.find_none hloc) ?_
    exact .pure h
  | some r =>
    obtain ⟨q, t⟩ := r
    obtain ⟨ht, hid, hfind⟩ := locate_some hloc
    have hal := h.allocated q t ht
    refine .step (h.find_some hloc) ?_
    rw [if_neg (h.ne_zero ht)]
    refine .step (h.load_eq hal) ?_
    dsimp only
    by_cases hdeps : (v.task t).dep_count ≥ EMBASSY_MAX_DEPS
    · rw [if_pos hdeps, if_pos (.inl hdeps)]
      exact .pure h
    rw [if_neg hdeps]
    cases hdep : v.locate dep_task_id with
    | none =>
      refine .step (h.find_none hdep) ?_
      rw [if_pos rfl, if_pos (.inr rfl)]
      exact .pure h
    | some r' =>
      refine .step (h.find_some hdep) ?_
      rw [if_neg (h.ne_zero (locate_some hdep).1), if_neg (not_or.mpr ⟨hdeps, nofun⟩)]
      refine .bind (h.store_sim hal) fun u hu => ?_
      by_cases hstate : (v.task t).state = .READY
      · rw [when_pos hstate, if_pos hstate]
        obtain ⟨i, rfl⟩ : ∃ i, q = .ready i := by
          have hq := (hw.holds.state q t ht).symm.trans hstate
          cases q with
          | ready i => exact ⟨i, rfl⟩
          | waiting => exact absurd hq nofun
          | blocked => exact absurd hq nofun
        have hfind' : (v.queue (.ready i)).find? (fun x =>
            ((v.setTask t fun k => k.depend dep_task_id).task x).task_id = task_id) = some t := by
          rw [← hfind]
          congr
          funext x
          by_cases hx : x = t
          · subst hx
            rw [setTask_self]
            rfl
          · rw [setTask_of_ne _ _ hx]
        rw [hready i t hfind]
        have hout := hu.not_mem_remove ht
        have hsize : ((v.setTask t fun k => k.depend dep_task_id).remove (.ready i) t).size + 1 =
            v.size := size_remove ht
        have hshort := hw.short
        refine .bind (.bind (hu.leaveReady_sim i hfind') fun w hw => .bind (hw.store_sim hal)
          fun y hy => hy.push_sim hal (h.ne_zero ht) hout ?_ .blocked) fun z hz => .pure hz
        exact Nat.lt_of_le_of_lt hsize.le (Nat.lt_of_succ_lt hshort)
      · rw [when_neg hstate, if_neg hstate]
        exact .bind (.pure hu) fun w hw => .pure hw

end Repr

namespace Repr

theorem regular_dependency (h : Repr s v) (hr : Regular s (.addDependency task_id dep_task_id))
    (i : Fin 4) (t : Nat)
    (hfind : (v.queue (.ready i)).find? (fun t => (v.task t).task_id = task_id) = some t) :
    (v.task t).priority = BitVec.ofNat 32 i := by
  have hri := hr i
  rcases h.findIn_cases (.ready i) task_id with ⟨hnone, _⟩ | ⟨m, x, m', _, _, hsome, heq⟩
  · rw [hnone] at hfind
    exact absurd hfind nofun
  · obtain rfl : x = t := Option.some.inj (hsome.symm.trans hfind)
    rw [result, heq, h.task_eq] at hri
    simpa using hri

theorem regular_end (h : Repr s v) (hr : Regular s (.scheduleEnd t)) :
    ∃ q, v.locate (v.task t).task_id = some (q, t) := by
  obtain ⟨ht, hres⟩ := hr
  rw [h.task_eq] at hres
  cases hloc : v.locate (v.task t).task_id with
  | none =>
    rw [result, h.find_none hloc] at hres
    exact absurd (Option.some.inj hres).symm ht
  | some r =>
    obtain ⟨q, x⟩ := r
    rw [result, h.find_some hloc] at hres
    exact ⟨q, by rw [Option.some.inj hres]⟩

/-- A call on links does what it does on lists, and keeps the invariant. -/
theorem exec_sim (h : Repr s v) (hw : v.Whole) {a : Op} (ha : a.Possible s) (hr : Regular s a) :
    Sim a.exec s (v.exec a).1 (v.exec a).2 ∧ (v.exec a).2.Whole := by
  cases a with
  | create page priority =>
    have hpage : v.alloc page = false := (congrFun (congrArg Core.alloc h.core) page).symm.trans ha
    refine ⟨h.create_sim hw hpage priority, ?_⟩
    dsimp only [exec]
    split
    · exact hw
    · rename_i hno
      obtain ⟨hactive, hne⟩ := not_or.mp hno
      exact hw.create (Int.not_le.mp hactive) hpage hne priority
  | destroy task_id =>
    exact ⟨.bind (h.destroy_sim task_id) fun _ hu => .pure hu, hw.destroy task_id⟩
  | addDependency task_id dep_task_id =>
    exact ⟨h.addDependency_sim hw (h.regular_dependency hr), hw.addDependency task_id dep_task_id⟩
  | boostPriority task_id =>
    exact ⟨.bind (h.boostPriority_sim task_id) fun _ hu => .pure hu,
      hw.alike (.boostPriority v task_id)⟩
  | periodicBoost ticks =>
    exact ⟨.bind (h.periodicBoost_sim ticks) fun _ hu => .pure hu,
      hw.alike (.periodicBoost v ticks)⟩
  | updateWaiting ticks =>
    exact ⟨.bind (h.updateWaiting_sim ticks) fun _ hu => .pure hu, hw.updateWaiting ticks⟩
  | scheduleBegin ticks =>
    have hcur : v.current_task = 0 := h.current_task_eq.symm.trans hr
    refine ⟨.bind (h.scheduleBegin_sim ticks) fun _ hu => ?_, hw.scheduleBegin hcur ticks⟩
    exact .pure hu
  | scheduleEnd t =>
    obtain ⟨q, hloc⟩ := h.regular_end hr
    have ht := (locate_some hloc).1
    exact ⟨.bind (h.scheduleEnd_sim (h.allocated q t ht)) fun _ hu => .pure hu, hw.scheduleEnd hloc⟩
  | yield => exact ⟨.bind (h.yield_sim hw) fun _ hu => .pure hu, hw.yield⟩
  | delay milliseconds ticks =>
    exact ⟨.bind (h.delay_sim hw milliseconds ticks) fun _ hu => .pure hu,
      hw.delay milliseconds ticks⟩

end Repr

/-! ### The machine -/

/-- A task that was created and has neither ended nor been destroyed. -/
def State.Live (s : State) (t : Nat) : Prop := s.alloc t = true ∧ (s.task t).state ≠ .COMPLETED

structure Partition (s : State) : Prop where
  queues : ∃ queue : Queue → List Nat, Threads s.next 0 s.head queue ∧
    (∀ t, s.Live t ↔ (∃ q, t ∈ queue q) ∨ t = s.current_task ∧ t ≠ 0) ∧
    ∀ q, s.current_task ∉ queue q
  active : { t | s.Live t }.Finite ∧ s.current_active_tasks = { t | s.Live t }.ncard
  freed : ∀ t, s.alloc t = true → s.Live t

/-- All tasks, in the order of the queues. -/
def View.tasks (v : View) : List Nat := Queue.all.flatMap v.queue ++ v.current

theorem Queue.mem_all (q : Queue) : q ∈ Queue.all := by
  cases q with
  | ready i => fin_cases i <;> decide
  | waiting => decide
  | blocked => decide

theorem View.mem_tasks : t ∈ v.tasks ↔ (∃ q, t ∈ v.queue q) ∨ t ∈ v.current := by
  simp only [View.tasks, List.mem_append, List.mem_flatMap]
  refine or_congr_left (exists_congr fun q => ?_)
  exact and_iff_right q.mem_all

namespace View.Whole

theorem nodup_tasks (hw : v.Whole) : v.tasks.Nodup := by
  refine List.nodup_append.mpr ⟨?_, hw.holds.outNodup, fun x hx y hy heq => ?_⟩
  · refine List.nodup_flatMap.mpr ⟨fun q _ => hw.holds.nodup q, ?_⟩
    have hall : Queue.all.Nodup := by decide
    refine hall.imp fun hne => ?_
    exact fun x hx hx' => hne (hw.holds.disjoint _ _ x hx hx')
  · obtain ⟨q, _, hq⟩ := List.mem_flatMap.mp hx
    exact hw.holds.outside y hy q (heq ▸ hq)

theorem live_iff (hw : v.Whole) (h : Repr s v) : s.Live t ↔ t ∈ v.tasks := by
  have halloc : s.alloc t = v.alloc t := congrFun (congrArg Core.alloc h.core) t
  rw [State.Live, halloc, h.task_eq, hw.holds.alloc t, mem_tasks]
  refine and_iff_left_of_imp ?_
  rintro (⟨q, hq⟩ | hcur) hdone
  · rw [hw.holds.state q t hq] at hdone
    cases q <;> exact absurd hdone nofun
  · unfold current at hcur
    split at hcur
    · exact absurd hcur (List.not_mem_nil)
    · rw [List.mem_singleton.mp hcur, hw.running ‹_›] at hdone
      exact absurd hdone nofun

theorem partition (hw : v.Whole) (h : Repr s v) : Partition s := by
  have hlive : { t | s.Live t } = { t | t ∈ v.tasks } := Set.ext fun t => hw.live_iff h
  have hset : { t | s.Live t } = (v.tasks.toFinset : Set Nat) := by
    rw [hlive]
    ext t
    simp
  refine ⟨⟨v.queue, h.threads, fun t => ?_, fun q => ?_⟩, ⟨?_, ?_⟩, fun t ht => ?_⟩
  · rw [hw.live_iff h, mem_tasks, h.current_task_eq]
    refine or_congr_right ?_
    unfold current
    split <;> simp_all
  · rw [h.current_task_eq]
    by_cases hcur : v.current_task = 0
    · rw [hcur]
      exact fun hmem => h.ne_zero hmem rfl
    · exact (Repr.current_out hw hcur).2 q
  · rw [hset]
    exact v.tasks.toFinset.finite_toSet
  · have hactive : s.current_active_tasks = v.current_active_tasks :=
      congrArg Core.current_active_tasks h.core
    have hlen : v.tasks.length = v.size + v.current.length := by
      rw [View.tasks, List.length_append, List.length_flatMap]
      rfl
    rw [hset, Set.ncard_coe_finset, List.toFinset_card_of_nodup hw.nodup_tasks, hlen, hactive,
      hw.holds.active]
    rfl
  · have halloc : s.alloc t = v.alloc t := congrFun (congrArg Core.alloc h.core) t
    rw [hw.live_iff h, mem_tasks, ← hw.holds.alloc t, ← halloc]
    exact ht

end View.Whole

theorem Repr.init : ∃ v, Repr .init v ∧ v.Whole := by
  refine ⟨{ State.init.toCore with queue := fun _ => [] },
    ⟨rfl, ⟨fun _ => .nil, nofun⟩, nofun, ?_⟩, ?_⟩
  · decide
  · refine ⟨⟨fun _ => List.nodup_nil, nofun, nofun, fun t => ?_, rfl, List.nodup_nil, nofun, rfl⟩,
      fun hne => absurd rfl hne, ?_⟩
    · simp [State.init, current]
    · decide

theorem regular_run {xs : List Op} {s : State} (h : Run (Guarded Regular Steps) .init xs s) :
    ∃ v, Repr s v ∧ v.Whole := by
  have hstep : ∀ s a t, Guarded Regular Steps s a t → (∃ v, Repr s v ∧ v.Whole) →
      ∃ v, Repr t v ∧ v.Whole := by
    rintro s a t ⟨hr, ha, r, hexec⟩ ⟨v, hv, hw⟩
    obtain ⟨⟨u, hu, hsim⟩, hwhole⟩ := hv.exec_sim hw ha hr
    obtain rfl : u = t := (Prod.mk.inj (Except.ok.inj (hu.symm.trans hexec))).2
    exact ⟨_, hsim, hwhole⟩
  exact h.invariant hstep Repr.init

theorem queues_partition {xs : List Op} {s : State} (h : Run (Guarded Regular Steps) .init xs s) :
    Partition s ∧ ∀ a : Op, a.Possible s → Regular s a → ∃ t, Steps s a t := by
  obtain ⟨v, hv, hw⟩ := regular_run h
  refine ⟨hw.partition hv, fun a ha hr => ?_⟩
  obtain ⟨⟨t, ht, _⟩, _⟩ := hv.exec_sim hw ha hr
  exact ⟨t, ha, _, ht⟩

/-- A task that yields, one that delays, a dependency, and the end of a task that yielded. -/
theorem queues_partition_six : ∃ xs s, Run (Guarded Regular Steps) .init xs s ∧ Partition s ∧
    s.current_active_tasks = 2 := by
  obtain ⟨s, hs, hactive⟩ : ∃ s, [.create 1 2, .create 2 1, .create 3 9, .addDependency 0 1,
      .scheduleBegin 5, .yield, .scheduleEnd 2, .scheduleBegin 6, .delay 500 6, .periodicBoost 200,
      .updateWaiting 300, .boostPriority 2].foldlM
      (fun s a => if Regular s a then step s a else none) .init = some s ∧
      s.current_active_tasks = 2 := by
    decide +kernel
  have hrun : Run (Guarded Regular Steps) .init _ s :=
    (Run.of_foldlM hs).mono fun _ _ _ hst => ⟨hst.1, steps_of_step hst.2⟩
  exact ⟨_, s, hrun, (queues_partition hrun).1, hactive⟩

/-- A task that runs to its end is not freed; a task whose priority was boosted and that is given a
dependency is on two queues; and a priority of 7 is used as an index. -/
theorem ended_task_kept :
    (∃ xs s, Run Steps .init xs s ∧ ¬ Partition s ∧ s.alloc 1 = true ∧
      (s.task 1).state = .COMPLETED ∧ s.current_active_tasks = 1) ∧
    (∃ xs s, Run Steps .init xs s ∧ ¬ Partition s ∧
      s.head (.ready 2) = 1 ∧ s.head .blocked = 1) ∧
    ∃ xs s, Run Steps .init xs s ∧
      (Op.exec (.addDependency 0 1) s).toOption.isNone := by
  refine ⟨?_, ?_, ?_⟩
  · obtain ⟨s, hs, halloc, hstate, hactive⟩ : ∃ s,
        [.create 1 2, .scheduleBegin 5, .scheduleEnd 1].foldlM step .init = some s ∧
        s.alloc 1 = true ∧ (s.task 1).state = .COMPLETED ∧ s.current_active_tasks = 1 := by
      decide +kernel
    have hrun : Run Steps .init _ s := (Run.of_exec hs).mono fun _ _ _ => steps_of_step
    exact ⟨_, s, hrun, fun hpart => (hpart.freed 1 halloc).2 hstate, halloc, hstate, hactive⟩
  · obtain ⟨s, hs, hready, hblocked⟩ : ∃ s,
        [.create 1 2, .create 2 0, .boostPriority 0, .addDependency 0 1].foldlM step .init = some s ∧
        s.head (.ready 2) = 1 ∧ s.head .blocked = 1 := by
      decide +kernel
    have hrun : Run Steps .init _ s := (Run.of_exec hs).mono fun _ _ _ => steps_of_step
    refine ⟨_, s, hrun, fun hpart => ?_, hready, hblocked⟩
    obtain ⟨queue, hth, _, _⟩ := hpart.queues
    have hmem : ∀ q, s.head q = 1 → 1 ∈ queue q := by
      intro q hq
      obtain ⟨l, hl⟩ := hth.exists_cons (by rw [hq]; exact Nat.one_ne_zero)
      rw [hl, hq]
      exact List.mem_cons_self
    exact absurd (hth.disjoint _ _ 1 (hmem _ hready) (hmem _ hblocked)) nofun
  · obtain ⟨s, hs, hnone⟩ : ∃ s, [.create 1 7, .create 2 0].foldlM step .init = some s ∧
        (Op.exec (.addDependency 0 1) s).toOption.isNone := by
      decide +kernel
    exact ⟨_, s, (Run.of_exec hs).mono fun _ _ _ => steps_of_step, hnone⟩

end Yyds.Embassy
