import Yyds.Sched.Qos

/-! The QoS queues as lists: when they stay lists, and that the clock then comes to their ends. -/
namespace Yyds.Qos

open Lib Function
open Mm (ProcId)

/-- Where a pointer leads to. -/
def QosSys.link (s : QosSys) (a : Option TaskId) : Option TaskId := a.bind fun t => (s.pool t).next

/-- The queues are the lists `q`. -/
structure Queues (s : QosSys) (q : Level → List TaskId) : Prop where
  threads : Threads s.link none s.head fun l => (q l).map some
  tail : ∀ l, s.tail l = (q l).getLast?
  count : ∀ l, s.count l = (q l).length
  registered : ∀ l, ∀ t ∈ q l, (s.pool t).p.isSome = true

def QosSys.WellFormed (s : QosSys) : Prop := ∃ q, Queues s q

variable {s s' : QosSys} {q : Level → List TaskId} {t : TaskId} {l : Level} {p : ProcId}

theorem map_update (xs : List TaskId) :
    (fun d => (update q l xs d).map some) =
      update (fun d => (q d).map some) l (xs.map some) := by
  funext d
  by_cases hd : d = l
  · subst hd
    rw [update_self, update_self]
  · rw [update_of_ne hd, update_of_ne hd]

open QosSys

theorem setNext_p (s : QosSys) (t u : TaskId) (next : Option TaskId) :
    ((s.setNext t next).pool u).p = (s.pool u).p := by
  by_cases hu : u = t
  · subst hu
    simp [setNext, setTask]
  · simp [setNext, setTask, hu]

theorem setNext_link (s : QosSys) (t : TaskId) (next : Option TaskId) :
    (s.setNext t next).link = update s.link (some t) next := by
  funext a
  by_cases ha : a = some t
  · subst ha
    simp [link, setNext, setTask]
  cases a with
  | none => rfl
  | some u =>
    have hu : u ≠ t := fun he => ha (congrArg some he)
    simp [link, setNext, setTask, hu]

namespace Queues

section
variable (h : Queues s q)
include h

/-- Only the links and the processes of queued tasks matter. -/
theorem frame (hhead : s'.head = s.head) (htail : s'.tail = s.tail)
    (hcount : s'.count = s.count)
    (hpool : ∀ l, ∀ t ∈ q l, (s'.pool t).next = (s.pool t).next ∧
      ((s.pool t).p.isSome = true → (s'.pool t).p.isSome = true)) : Queues s' q where
  threads := by
    rw [hhead]
    refine h.threads.congr fun l b hb => ?_
    obtain ⟨t, ht, rfl⟩ := List.mem_map.mp hb
    exact (hpool l t ht).1
  tail l := by
    rw [htail]
    exact h.tail l
  count l := by
    rw [hcount]
    exact h.count l
  registered l t ht := (hpool l t ht).2 (h.registered l t ht)

theorem setTask {x : Task} (hnext : x.next = (s.pool t).next)
    (hp : (s.pool t).p.isSome = true → x.p.isSome = true) : Queues (s.setTask t x) q := by
  refine h.frame rfl rfl rfl ?_
  intro l u _
  by_cases hu : u = t
  · subst hu
    simpa [setTask] using ⟨hnext, hp⟩
  · simp [QosSys.setTask, hu]

theorem setTask_off (hoff : ∀ l, t ∉ q l) (x : Task) : Queues (s.setTask t x) q := by
  refine h.frame rfl rfl rfl ?_
  intro l u hu
  have hne : u ≠ t := fun he => hoff l (he ▸ hu)
  simp [QosSys.setTask, hne]

theorem nodup (l : Level) : (q l).Nodup :=
  List.Nodup.of_map _ (h.threads.chain l).nodup

theorem length_le (l : Level) : (q l).length ≤ MAX_QOS_TASKS := by
  simpa using (h.nodup l).length_le_card

theorem off_of_free (ht : (s.pool t).p = none) (l : Level) : t ∉ q l := by
  intro hmem
  have hreg := h.registered l t hmem
  rw [ht] at hreg
  cases hreg

end

theorem not_mem_map (hoff : ∀ l, t ∉ q l) (l : Level) : some t ∉ (q l).map some := by
  simpa using hoff l

theorem enqueue_threads (h : Queues s q) (hoff : ∀ l, t ∉ q l) (hl : (s.pool t).qos_level = l) :
    Threads (qos_enqueue s t).link none (qos_enqueue s t).head
      fun d => (update q l (q l ++ [t]) d).map some := by
  have h1 : Queues (s.setNext t none) q := h.setTask_off hoff _
  have hnull : (s.setNext t none).link (some t) = none := by
    rw [setNext_link, update_self]
  rw [map_update]
  unfold qos_enqueue
  rw [hl]
  dsimp only
  generalize s.setNext t none = s1 at h1 hnull
  cases htail : s1.tail l with
  | none =>
    have hnil : q l = [] := List.getLast?_eq_none_iff.mp ((h1.tail l).symm.trans htail)
    have hhead : s1.head l = none := (h1.threads.chain l).eq_nil_iff.mp (by simp [hnil])
    have hpush : Threads s1.link none (update s1.head l (some t)) _ :=
      h1.threads.push (by simp) (not_mem_map hoff) (by rw [hnull, hhead]) fun _ _ => rfl
    simp only [hnil, List.map_nil] at hpush
    rw [hnil]
    exact hpush
  | some b =>
    obtain ⟨xs, hxs⟩ := List.getLast?_eq_some_iff.mp ((h1.tail l).symm.trans htail)
    have hsnoc := h1.threads.snoc (c := l) (l := xs.map some) (b := some b)
      (by simp [hxs]) (by simp) hnull (not_mem_map hoff)
    have hlist : (xs ++ [b] ++ [t]).map some = xs.map some ++ [some b, some t] := by simp
    rw [← setNext_link] at hsnoc
    rw [hxs, hlist]
    exact hsnoc

theorem enqueue_ends (s : QosSys) (t : TaskId) :
    (qos_enqueue s t).tail = update s.tail (s.pool t).qos_level (some t) ∧
    (qos_enqueue s t).count =
      update s.count (s.pool t).qos_level (s.count (s.pool t).qos_level + 1) := by
  unfold qos_enqueue
  dsimp only
  split <;> exact ⟨rfl, rfl⟩

theorem enqueue_p (s : QosSys) (t u : TaskId) : ((qos_enqueue s t).pool u).p = (s.pool u).p := by
  unfold qos_enqueue
  dsimp only
  split
  · exact (setNext_p _ _ _ _).trans (setNext_p _ _ _ _)
  · exact setNext_p _ _ _ _

theorem enqueue (h : Queues s q) (hoff : ∀ l, t ∉ q l) (hreg : (s.pool t).p.isSome = true) :
    Queues (qos_enqueue s t)
      (update q (s.pool t).qos_level (q (s.pool t).qos_level ++ [t])) where
  threads := h.enqueue_threads hoff rfl
  tail d := by
    rw [(enqueue_ends s t).1]
    by_cases hd : d = (s.pool t).qos_level
    · subst hd
      simp
    · simpa [hd] using h.tail d
  count d := by
    rw [(enqueue_ends s t).2]
    by_cases hd : d = (s.pool t).qos_level
    · subst hd
      simp [h.count]
    · simpa [hd] using h.count d
  registered d u hu := by
    rw [enqueue_p]
    by_cases hd : d = (s.pool t).qos_level
    · subst hd
      rw [update_self, List.mem_append, List.mem_singleton] at hu
      rcases hu with hu | rfl
      · exact h.registered _ u hu
      · exact hreg
    · rw [update_of_ne hd] at hu
      exact h.registered d u hu

theorem head_eq (h : Queues s q) (l : Level) : s.head l = (q l).head? := by
  have := (h.threads.chain l).head_eq
  cases hq : q l <;> simpa [hq] using this

theorem dequeue_nil (h : Queues s q) (hq : q l = []) : qos_dequeue s l = (none, s) := by
  rw [qos_dequeue, h.head_eq, hq]
  rfl

theorem dequeue (h : Queues s q) {xs : List TaskId} (hq : q l = t :: xs) :
    ∃ s1, qos_dequeue s l = (some t, s1) ∧ Queues s1 (update q l xs) ∧
      s1.pool t = { s.pool t with next := none } := by
  have hhead : s.head l = some t := by rw [h.head_eq, hq]; rfl
  have hchain := h.threads.chain l
  have hnext : (s.pool t).next = (xs.map some).headD none := by
    rw [hq] at hchain
    exact hchain.next_eq (l := [])
  have hpop := h.threads.pop (c := l) (a := some t) (l := xs.map some) (by simp [hq])
  have hoff : ∀ d, t ∉ update q l xs d := by
    intro d hmem
    by_cases hd : d = l
    · subst hd
      rw [update_self] at hmem
      have hnd := h.nodup d
      rw [hq] at hnd
      exact (List.nodup_cons.mp hnd).1 hmem
    · rw [update_of_ne hd] at hmem
      exact hd (h.threads.disjoint d l (some t) (List.mem_map_of_mem hmem)
        (List.mem_map_of_mem (by simp [hq])))
  rw [qos_dequeue, hhead]
  refine ⟨_, rfl, setTask_off ?_ hoff _, update_self ..⟩
  constructor
  · rw [map_update]
    exact hpop
  · intro d
    have htail := h.tail d
    dsimp only
    by_cases hd : d = l
    · subst hd
      rw [hq] at htail
      rw [hnext]
      cases xs with
      | nil => simp
      | cons v vs => simpa using htail
    · rw [update_of_ne hd]
      split
      · rwa [update_of_ne hd]
      · exact htail
  · intro d
    have hcount := h.count d
    dsimp only
    by_cases hd : d = l
    · subst hd
      rw [hq, List.length_cons] at hcount
      rw [update_self, update_self]
      omega
    · rwa [update_of_ne hd, update_of_ne hd]
  · intro d v hv
    by_cases hd : d = l
    · subst hd
      rw [update_self] at hv
      exact h.registered d v (by simp [hq, hv])
    · rw [update_of_ne hd] at hv
      exact h.registered d v hv

theorem restore (h : Queues s q) (t : TaskId) (remaining_slice wait_ticks : Int) :
    Queues (s.setTask t (qos_restore_priority { s.pool t with remaining_slice, wait_ticks })) q := by
  unfold qos_restore_priority
  split <;> exact h.setTask rfl id

/-! ### The calls -/

/-- The loop leaves the queues of the other levels as they are. -/
theorem scheduleLoop (h : Queues s q) (runnable : ProcId → Bool) (ls : List Level) :
    ∃ q', Queues (Qos.scheduleLoop runnable ls s).2 q' ∧ ∀ l ∉ ls, q' l = q l := by
  induction ls generalizing s q with
  | nil => exact ⟨q, h, fun _ _ => rfl⟩
  | cons l ls ih =>
    rw [Qos.scheduleLoop]
    cases hq : q l with
    | nil =>
      rw [h.dequeue_nil hq]
      obtain ⟨q', hq', hsame⟩ := ih h
      exact ⟨q', hq', fun k hk => hsame k fun hm => hk (List.mem_cons_of_mem _ hm)⟩
    | cons t xs =>
      obtain ⟨s1, he, hd, _⟩ := h.dequeue hq
      have hother : ∀ k ∉ l :: ls, update q l xs k = q k :=
        fun k hk => update_of_ne (List.ne_of_not_mem_cons hk) ..
      rw [he]
      dsimp only
      obtain ⟨q', hq', hsame⟩ := ih hd
      have hrest : ∃ q', Queues (Qos.scheduleLoop runnable ls s1).2 q' ∧
          ∀ k ∉ l :: ls, q' k = q k :=
        ⟨q', hq', fun k hk => (hsame k fun hm => hk (List.mem_cons_of_mem _ hm)).trans (hother k hk)⟩
      split
      · exact hrest
      split
      · exact ⟨_, hd.restore _ _ _, hother⟩
      · exact hrest

theorem find_some (h : qos_find_task s p = some t) : (s.pool t).p = some p := by
  simpa using List.find?_some h

theorem check_boost_keeps (config : Config) (x : Task) :
    (qos_check_boost config x).next = x.next ∧ (qos_check_boost config x).p = x.p := by
  unfold qos_check_boost
  split
  · exact ⟨rfl, rfl⟩
  · split <;> exact ⟨rfl, rfl⟩

theorem visit_next (s : QosSys) (t u : TaskId) : ((s.visit t).pool u).next = (s.pool u).next := by
  by_cases hu : u = t
  · subst hu
    simp [QosSys.visit, QosSys.setTask, (check_boost_keeps _ _).1]
  · simp [QosSys.visit, QosSys.setTask, hu]

theorem visit (h : Queues s q) (t : TaskId) : Queues (s.visit t) q :=
  h.setTask (check_boost_keeps _ _).1 fun hp => by rwa [(check_boost_keeps _ _).2]

theorem visit_link (s : QosSys) (t : TaskId) : (s.visit t).link = s.link := by
  funext a
  cases a with
  | none => rfl
  | some u => exact visit_next s t u

section
variable (h : Queues s q)
include h

/-- The clock comes to the end of a list. -/
theorem tickQueue {a : Option TaskId} {xs : List TaskId} {fuel : Nat}
    (hc : Chain s.link none a (xs.map some)) (hlen : xs.length ≤ fuel) :
    ∃ s', Qos.tickQueue fuel s a = some s' ∧ Queues s' q := by
  induction xs generalizing s a fuel with
  | nil =>
    cases hc
    exact ⟨s, by rw [Qos.tickQueue], h⟩
  | cons t xs ih =>
    cases hc with
    | cons _ hrest =>
      cases fuel with
      | zero => simp at hlen
      | succ fuel =>
        rw [← visit_link s t] at hrest
        exact ih (h.visit t) hrest (Nat.le_of_succ_le_succ hlen)

theorem tickQueues (ls : List Level) :
    ∃ s', ls.foldlM (fun s l => Qos.tickQueue MAX_QOS_TASKS s (s.head l)) s = some s' ∧
      Queues s' q := by
  induction ls generalizing s with
  | nil => exact ⟨s, rfl, h⟩
  | cons l ls ih =>
    obtain ⟨s1, he, h1⟩ := h.tickQueue (h.threads.chain l) (h.length_le l)
    obtain ⟨s2, he2, h2⟩ := ih h1
    refine ⟨s2, ?_, h2⟩
    rw [List.foldlM_cons, he]
    exact he2

theorem tick (p : ProcId) (ticks : BitVec 32) :
    ∃ s', qos_tick MAX_QOS_TASKS s p ticks = some s' ∧ Queues s' q := by
  unfold qos_tick
  split
  · exact ⟨s, rfl, h⟩
  · split
    · exact ⟨s, rfl, h⟩
    · rename_i t _
      have ht : Queues (s.setTask t ((s.pool t).tick s.config ticks)) q := h.setTask rfl id
      exact ht.tickQueues _

theorem register (p : ProcId) (qos_level : Int) : Queues (qos_register s p qos_level).2 q := by
  unfold qos_register
  split
  · exact h
  split
  · exact h.setTask rfl fun _ => rfl
  · split
    · exact h
    · rename_i t ht
      have hfree : (s.pool t).p = none := by simpa using List.find?_some ht
      exact h.setTask_off (h.off_of_free hfree) _

theorem set_level (p : ProcId) (qos_level : Int) : Queues (qos_set_level s p qos_level).2 q := by
  unfold qos_set_level
  split
  · exact h
  · split
    · exact h.register p qos_level
    · exact h.setTask rfl id

theorem set_deadline (p : ProcId) (deadline : BitVec 64) :
    Queues (qos_set_deadline s p deadline).2 q := by
  unfold qos_set_deadline
  split
  · exact h
  · exact h.setTask rfl id

theorem io_complete (p : ProcId) : Queues (qos_io_complete s p) q := by
  unfold qos_io_complete
  split
  · exact h
  split
  · exact h
  · dsimp only
    split
    · exact h.setTask rfl id
    · exact h

end

end Queues

/-! ### Runs -/

/-- The tasks from a pointer on, `n` at most. -/
def QosSys.follow (s : QosSys) : Nat → Option TaskId → List TaskId
  | 0, _ | _, none => []
  | n + 1, some t => t :: s.follow n (s.pool t).next

def QosSys.Queued (s : QosSys) (t : TaskId) : Prop :=
  ∃ l, t ∈ s.follow MAX_QOS_TASKS (s.head l)
  deriving Decidable

/-- A process yields or is unregistered only while its task is in no queue. -/
def Unqueued (s : QosSys) : Op → Prop
  | .yield p | .unregister p => (qos_find_task s p).all fun t => ¬ s.Queued t
  | _ => True

instance (s : QosSys) : DecidablePred (Unqueued s) := fun a => by
  cases a <;> dsimp only [Unqueued] <;> infer_instance

theorem Queues.follow {a : Option TaskId} {xs : List TaskId} {n : Nat}
    (hc : Chain s.link none a (xs.map some)) (hlen : xs.length ≤ n) : s.follow n a = xs := by
  induction xs generalizing a n with
  | nil =>
    cases hc
    cases n <;> rfl
  | cons t xs ih =>
    cases hc with
    | cons _ hrest =>
      cases n with
      | zero => simp at hlen
      | succ n => exact congrArg (t :: ·) (ih hrest (Nat.le_of_succ_le_succ hlen))

theorem Queues.off (h : Queues s q) (ht : ¬ s.Queued t) (l : Level) : t ∉ q l := by
  intro hmem
  apply ht
  refine ⟨l, ?_⟩
  rwa [Queues.follow (h.threads.chain l) (h.length_le l)]

theorem wellFormed_step {op : Op} (h : s.WellFormed) (hs : s.Steps op s') (hc : Unqueued s op) :
    s'.WellFormed := by
  obtain ⟨q, h⟩ := h
  cases op with
  | register p qos_level =>
    cases hs
    exact ⟨q, h.register p qos_level⟩
  | unregister p =>
    cases hs
    unfold qos_unregister
    split
    · exact ⟨q, h⟩
    · rename_i t ht
      simp only [Unqueued, ht, Option.all_some, decide_eq_true_eq] at hc
      exact ⟨q, h.setTask_off (h.off hc) _⟩
  | setLevel p qos_level =>
    cases hs
    exact ⟨q, h.set_level p qos_level⟩
  | setDeadline p deadline =>
    cases hs
    exact ⟨q, h.set_deadline p deadline⟩
  | ioComplete p =>
    cases hs
    exact ⟨q, h.io_complete p⟩
  | yield p =>
    cases hs
    unfold qos_yield
    split
    · exact ⟨q, h⟩
    · rename_i t ht
      simp only [Unqueued, ht, Option.all_some, decide_eq_true_eq] at hc
      have hreg : (s.pool t).p.isSome = true := by rw [Queues.find_some ht]; rfl
      exact ⟨_, h.enqueue (h.off hc) hreg⟩
  | schedule runnable =>
    cases hs
    unfold qos_schedule
    split
    · exact ⟨q, h⟩
    · exact (h.scheduleLoop runnable _).imp fun _ hq => hq.1
  | tick p ticks =>
    obtain ⟨s1, he, h1⟩ := h.tick p ticks
    cases he.symm.trans hs
    exact ⟨q, h1⟩
  | configure config =>
    cases hs
    exact ⟨q, h.frame rfl rfl rfl fun _ _ _ => ⟨rfl, id⟩⟩

theorem wellFormed_init : qos_init.WellFormed := by
  refine ⟨fun _ => [], ⟨fun _ => .nil, ?_⟩, fun _ => rfl, fun _ => rfl, ?_⟩
  · intro _ _ _ h
    cases h
  · intro _ _ h
    cases h

theorem wellFormed_run {as : List Op} (h : Run (Guarded Unqueued QosSys.Steps) qos_init as s) :
    s.WellFormed :=
  h.invariant (fun _ _ _ hs hw => wellFormed_step hw hs.2 hs.1) wellFormed_init

/-- If processes yield and are unregistered only while their tasks are in no queue, the queues stay
lists that share no task, and the clock always returns. -/
theorem qos_queues_well_formed {as : List Op}
    (h : Run (Guarded Unqueued QosSys.Steps) qos_init as s) :
    s.WellFormed ∧ ∀ p ticks, (qos_tick MAX_QOS_TASKS s p ticks).isSome = true := by
  have hw := wellFormed_run h
  refine ⟨hw, fun p ticks => ?_⟩
  obtain ⟨q, hq⟩ := hw
  obtain ⟨s', he, _⟩ := hq.tick p ticks
  rw [he]
  rfl

def takesTurns : List Op :=
  [.register 1 3, .yield 1, .register 2 3, .yield 2, .tick 1 0, .schedule fun _ => true, .yield 1]

theorem qos_queues_well_formed_two :
    ∃ s, Run (Guarded Unqueued QosSys.Steps) qos_init takesTurns s ∧ s.count 3 = 2 ∧
      s.WellFormed := by
  refine (Run.exists_foldlM).imp
    fun s ⟨hrun, hcount⟩ => ⟨hrun, hcount, (qos_queues_well_formed hrun).1⟩

theorem tickQueue_of_loop (ht : (s.pool t).next = some t) (fuel : Nat) :
    tickQueue fuel s (some t) = none := by
  induction fuel generalizing s with
  | zero => rfl
  | succ fuel ih =>
    have hnext := Queues.visit_next s t t
    rw [ht] at hnext
    rw [tickQueue, hnext]
    exact ih hnext

theorem tick_of_loop (hen : s.config.enabled = true) (hfind : qos_find_task s p = some t)
    (hhead : s.head 0 = none ∧ s.head 1 = none ∧ s.head 2 = none ∧ s.head 3 = some t)
    (ht : (s.pool t).next = some t) (fuel : Nat) (ticks : BitVec 32) :
    qos_tick fuel s p ticks = none := by
  have hnil : ∀ s : QosSys, tickQueue fuel s none = some s := fun s => by rw [tickQueue]
  have hloop : tickQueue fuel (s.setTask t ((s.pool t).tick s.config ticks)) (some t) = none := by
    apply tickQueue_of_loop
    simpa [setTask, Task.tick] using ht
  rw [qos_tick, hen, hfind]
  simp only [setTask] at hloop ⊢
  rw [show List.finRange QOS_LEVELS = [0, 1, 2, 3, 4, 5] by decide]
  simp [List.foldlM_cons, hhead, hnil, hloop]

/-- A process that yields twice links its task to itself, and the clock never returns; one that is
unregistered while it waits leaves a free entry in the queue. -/
theorem queues_not_well_formed :
    (∃ s, Run QosSys.Steps qos_init [.register 1 3, .yield 1, .yield 1] s ∧ ¬ s.WellFormed ∧
      ∀ fuel ticks, qos_tick fuel s 1 ticks = none) ∧
    ∃ s, Run QosSys.Steps qos_init [.register 1 3, .yield 1, .unregister 1] s ∧
      ¬ s.WellFormed := by
  constructor
  · obtain ⟨s, hrun, ⟨hen, hfind⟩, hhead, hnext⟩ : ∃ s, Run QosSys.Steps qos_init
        [.register 1 3, .yield 1, .yield 1] s ∧
        (s.config.enabled = true ∧ qos_find_task s 1 = some 0) ∧
        (s.head 0 = none ∧ s.head 1 = none ∧ s.head 2 = none ∧ s.head 3 = some 0) ∧
        (s.pool 0).next = some 0 := Run.exists_exec
    have hnone := tick_of_loop hen hfind hhead hnext
    refine ⟨s, hrun, ?_, hnone⟩
    rintro ⟨q, hq⟩
    obtain ⟨s', he, _⟩ := hq.tick 1 0
    cases (hnone _ _).symm.trans he
  · refine (Run.exists_exec (P := fun s => s.head 3 = some 0 ∧ (s.pool 0).p = none) ?_).imp
      fun s ⟨hrun, hhead, hfree⟩ => ⟨hrun, ?_⟩
    · decide +kernel
    rintro ⟨q, hq⟩
    rw [hq.head_eq] at hhead
    exact hq.off_of_free hfree 3 (List.mem_of_head? hhead)

end Yyds.Qos
