import Yyds.Lib.Scan
import Yyds.Sched.QosQueues

/-! Which task `qos_schedule` takes, and what it leaves in the queues. -/
namespace Yyds.Qos

open Lib Function
open Mm (ProcId)

/-- The queue of a level, in order. -/
def QosSys.queue (s : QosSys) (l : Level) : List TaskId := s.follow MAX_QOS_TASKS (s.head l)

/-- The process of the task is `RUNNABLE`. -/
def QosSys.Ready (s : QosSys) (runnable : ProcId → Bool) (t : TaskId) : Prop :=
  (s.pool t).p.any runnable = true
  deriving Decidable

/-- No task that can run has a smaller level. -/
def QosSys.Least (s : QosSys) (runnable : ProcId → Bool) (t : TaskId) : Prop :=
  ∀ l, ∀ u ∈ s.queue l, s.Ready runnable u → (s.pool t).qos_level ≤ (s.pool u).qos_level
  deriving Decidable

/-- The choice is a queued task that can run, with the least level; no other task is removed; and
it gets its base level back unless it has a deadline. There is none only if no task can run. -/
def Right (s : QosSys) (runnable : ProcId → Bool) : Prop :=
  let r := qos_schedule s runnable
  match r.1 with
  | none => ∀ l, ∀ u ∈ s.queue l, ¬ s.Ready runnable u ∧ u ∈ r.2.queue l
  | some p => ∃ t, (s.pool t).p = some p ∧ runnable p ∧ (∃ l, t ∈ s.queue l) ∧ s.Least runnable t ∧
      (∀ l, ∀ u ∈ s.queue l, u ≠ t → u ∈ r.2.queue l) ∧
      ((s.pool t).deadline = 0 → (r.2.pool t).qos_level = (s.pool t).base_qos)

instance (s : QosSys) (runnable : ProcId → Bool) : Decidable (Right s runnable) := by
  unfold Right
  dsimp only
  split <;> infer_instance

/-- `qos_restore_priority` will find the base level. -/
def Task.Restorable (x : Task) : Prop :=
  x.deadline = 0 → x.boosted = true ∧ x.qos_level < x.base_qos ∨ x.qos_level = x.base_qos
  deriving Decidable

/-- The first task of the first queue that is not empty can run, has the least level and can be
restored; if the QoS scheduler is off, no task can run. -/
def Clear (s : QosSys) (runnable : ProcId → Bool) : Prop :=
  if s.config.enabled then
    ∀ l t, (∀ k < l, s.queue k = []) → (s.queue l).head? = some t →
      s.Ready runnable t ∧ s.Least runnable t ∧ (s.pool t).Restorable
  else ∀ l, ∀ u ∈ s.queue l, ¬ s.Ready runnable u
  deriving Decidable

variable {s : QosSys} {q : Level → List TaskId} {runnable : ProcId → Bool} {t : TaskId} {l : Level}
  {ls : List Level}

theorem Queues.queue_eq (h : Queues s q) (l : Level) : s.queue l = q l :=
  Queues.follow (h.threads.chain l) (h.length_le l)

/-- The loop passes by the levels without tasks. -/
theorem Queues.loop_skip (h : Queues s q) (pre : List Level) (hpre : ∀ k ∈ pre, q k = [])
    (runnable : ProcId → Bool) (post : List Level) :
    Qos.scheduleLoop runnable (pre ++ post) s = Qos.scheduleLoop runnable post s := by
  induction pre with
  | nil => rfl
  | cons l pre ih =>
    obtain ⟨hl, hpre⟩ := List.forall_mem_cons.mp hpre
    rw [List.cons_append, Qos.scheduleLoop, h.dequeue_nil hl]
    exact ih hpre

section
variable {xs : List TaskId} (h : Queues s q) (hq : q l = t :: xs)
include h hq

/-- The first task of a queue can run. -/
theorem Queues.loop_ready {p : ProcId} (hp : (s.pool t).p = some p) (hrun : runnable p = true)
    (post : List Level) : ∃ s', Qos.scheduleLoop runnable (l :: post) s = (some p, s') ∧
      Queues s' (update q l xs) ∧
      (s'.pool t).qos_level = (qos_restore_priority (s.pool t)).qos_level := by
  obtain ⟨s1, hd, h1, hpool⟩ := h.dequeue hq
  have hloop : Qos.scheduleLoop runnable (l :: post) s = (some p, s1.setTask t
      (qos_restore_priority { s1.pool t with remaining_slice := qos_timeslice l, wait_ticks := 0 }))
      := by
    simp only [Qos.scheduleLoop, hd, hpool, hp, hrun, if_true]
  refine ⟨_, hloop, h1.restore _ _ _, ?_⟩
  simp only [QosSys.setTask, update_self, hpool]
  unfold qos_restore_priority
  split <;> rfl

/-- It cannot, and it is lost. -/
theorem Queues.loop_blocked (hno : ¬ s.Ready runnable t) {post : List Level} (hl : l ∉ post) :
    ∃ q', Queues (Qos.scheduleLoop runnable (l :: post) s).2 q' ∧ q' l = xs := by
  obtain ⟨s1, hd, h1, hpool⟩ := h.dequeue hq
  have hskip : Qos.scheduleLoop runnable (l :: post) s = Qos.scheduleLoop runnable post s1 := by
    rw [Qos.scheduleLoop, hd]
    simp only [hpool]
    split
    · rfl
    · rename_i p hp
      refine if_neg fun hrun => hno ?_
      rw [QosSys.Ready, hp]
      exact hrun
  rw [hskip]
  obtain ⟨q', hq', hsame⟩ := h1.scheduleLoop runnable post
  exact ⟨q', hq', (hsame l hl).trans (update_self ..)⟩

end

theorem Task.restorable_iff (x : Task) : x.Restorable ↔
    (x.deadline = 0 → (qos_restore_priority x).qos_level = x.base_qos) := by
  refine imp_congr_right fun _ => ?_
  unfold qos_restore_priority
  split
  · rename_i hb
    simp [hb]
  · rename_i hb
    simp [hb]

/-- `qos_schedule` does what it should exactly where the first task of the first queue that is not
empty can run, has the least level and can be restored. -/
theorem qos_schedule_right_iff (s : QosSys) (runnable : ProcId → Bool) (h : s.WellFormed) :
    Right s runnable ↔ Clear s runnable := by
  obtain ⟨q, h⟩ := h
  unfold Right Clear qos_schedule
  by_cases hen : s.config.enabled = true
  swap
  · simp only [hen]
    simp +contextual
  simp only [hen, if_true, Bool.not_true, Bool.false_eq_true, if_false, h.queue_eq]
  by_cases hnil : ∀ l, q l = []
  · have he := h.loop_skip (List.finRange _) (fun k _ => hnil k) runnable []
    rw [List.append_nil] at he
    simp [he, hnil, Qos.scheduleLoop]
  obtain ⟨l, hl, hmin⟩ := wellFounded_lt.has_min {l | q l ≠ []} (not_forall.mp hnil)
  have hlow (k : Level) (hk : k < l) : q k = [] := not_not.mp fun hne => hmin k hne hk
  obtain ⟨t, xs, hq⟩ := List.exists_cons_of_ne_nil hl
  obtain ⟨pre, post, hls, hpre, hpost⟩ := finRange_split l
  have he := h.loop_skip pre (fun k hk => hlow k (hpre k hk)) runnable (l :: post)
  rw [← hls] at he
  have hclear : (∀ l t, (∀ k < l, q k = []) → (q l).head? = some t →
      s.Ready runnable t ∧ s.Least runnable t ∧ (s.pool t).Restorable) ↔
      s.Ready runnable t ∧ s.Least runnable t ∧ (s.pool t).Restorable := by
    refine ⟨fun hall => hall l t hlow (by rw [hq]; rfl), ?_⟩
    intro hone l' t' hlow' ht'
    obtain hl | rfl | hl := lt_trichotomy l' l
    · simp [hlow l' hl] at ht'
    · rw [hq] at ht'
      cases ht'
      exact hone
    · simp [hlow' l hl] at hq
  rw [hclear, he]
  have hmem : t ∈ q l := hq ▸ List.mem_cons_self
  have hgone : t ∉ xs := (List.nodup_cons.mp (hq ▸ h.nodup l)).1
  by_cases hready : s.Ready runnable t
  · obtain ⟨p, hp, hrun⟩ : ∃ p, (s.pool t).p = some p ∧ runnable p = true := by
      simpa [QosSys.Ready, Option.any_eq_true] using hready
    obtain ⟨s', hs', h', hlevel⟩ := h.loop_ready hq hp hrun post
    simp only [hs', h'.queue_eq, hready, true_and, Task.restorable_iff, ← hlevel]
    constructor
    · rintro ⟨u, _, _, _, hleast, hkeep, hbase⟩
      obtain rfl : u = t := by
        by_contra hne
        exact hgone (by simpa using hkeep l t hmem (Ne.symm hne))
      exact ⟨hleast, hbase⟩
    · rintro ⟨hleast, hbase⟩
      refine ⟨t, hp, hrun, ⟨l, hmem⟩, hleast, ?_, hbase⟩
      intro k u hu hne
      by_cases hk : k = l
      · subst hk
        rw [hq] at hu
        rw [update_self]
        exact (List.mem_cons.mp hu).resolve_left hne
      · rwa [update_of_ne hk]
  · obtain ⟨q', h', hxs⟩ := h.loop_blocked hq hready fun hm => lt_irrefl l (hpost l hm)
    refine iff_of_false ?_ fun hc => hready hc.1
    intro hright
    split at hright
    · have := (hright l t hmem).2
      rw [h'.queue_eq, hxs] at this
      exact hgone this
    · obtain ⟨u, hp, hrun, -, -, hkeep, -⟩ := hright
      have hne : t ≠ u := by
        rintro rfl
        exact hready (by simpa [QosSys.Ready, hp] using hrun)
      have := hkeep l t hmem hne
      rw [h'.queue_eq, hxs] at this
      exact hgone this

/-- Two tasks wait at the default level. -/
def bothWait : List Op := [.register 1 3, .yield 1, .register 2 3, .yield 2]

theorem qos_schedule_right_both : ∃ s, Run (Guarded Unqueued QosSys.Steps) qos_init bothWait s ∧
    Right s fun _ => true := by
  refine (Run.exists_foldlM).imp fun s ⟨hrun, hclear⟩ =>
    ⟨hrun, (qos_schedule_right_iff s _ (wellFormed_run hrun)).mpr hclear⟩

/-- Only the second of them can run: none is returned, and the first is lost. -/
theorem qos_schedule_blocked : ∃ s : QosSys, s.WellFormed ∧ ¬ Right s (fun p => p = 2) ∧
    s.queue 3 = [0, 1] ∧ (qos_schedule s fun p => p = 2).1 = none ∧
    (qos_schedule s fun p => p = 2).2.queue 3 = [1] := by
  have h : ∃ s, Run (Guarded Unqueued QosSys.Steps) qos_init bothWait s ∧
      ¬ Right s (fun p => p = 2) ∧ s.queue 3 = [0, 1] ∧
      (qos_schedule s fun p => p = 2).1 = none ∧
      (qos_schedule s fun p => p = 2).2.queue 3 = [1] :=
    Run.exists_foldlM
  exact h.imp fun s ⟨hrun, hs⟩ => ⟨wellFormed_run hrun, hs⟩

end Yyds.Qos
