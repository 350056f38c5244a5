import Yyds.Sched.Table

/-! What every run of the scheduler keeps: a process that is on a CPU is `RUNNING` there and on no
other one. -/
namespace Yyds.Sched

open Lib Function
open Mm (ProcId)

structure Inv (s : State) : Prop where
  running : ∀ c p, s.cproc c = some p → (s.proc p).state = .RUNNING
  one_cpu : ∀ c d p, s.cproc c = some p → s.cproc d = some p → c = d
  selecting : ∀ c p, s.selected c = some p → s.cproc c = none

variable {s t : State} {a : Act} {p : ProcId} {q : Proc}

/-- The CPU whose loop takes the step. -/
def Act.cpu : Act → Option CpuId
  | .select c _ | .run c | .back c _ => some c
  | _ => none

/-- What a step does to the local variables of the loops. -/
inductive Locals (s t : State) : Act → Prop
  | other {a : Act} : a.cpu = none → t.cproc = s.cproc → t.selected = s.selected → Locals s t a
  | select {c : CpuId} {ticks : BitVec 32} : s.cproc c = none → t.cproc = s.cproc →
      t.selected = update s.selected c (select t.proc) → Locals s t (.select c ticks)
  | run {c : CpuId} {p : ProcId} : s.selected c = some p → (s.proc p).state = .RUNNABLE →
      (t.proc p).state = .RUNNING → t.cproc = update s.cproc c (some p) →
      t.selected = update s.selected c none → Locals s t (.run c)
  | skip {c : CpuId} : t.cproc = s.cproc → t.selected = update s.selected c none →
      Locals s t (.run c)
  | back {c : CpuId} {st : Kernel.ProcState} {p : ProcId} : s.cproc c = some p →
      t.cproc = update s.cproc c none → t.selected = s.selected → Locals s t (.back c st)

theorem step_locals (h : Steps s a t) : Locals s t a := by
  cases a with
  | allocproc r =>
    obtain ⟨x, _, rfl⟩ := Option.map_eq_some_iff.mp h
    exact .other rfl rfl rfl
  | freeproc | wakeup =>
    obtain ⟨_, ht⟩ := Option.ite_none_right_eq_some.mp h
    cases ht
    exact .other rfl rfl rfl
  | setscheduler | setdeadline =>
    cases h
    exact .other rfl rfl rfl
  | select c ticks =>
    obtain ⟨hfree, ht⟩ := Option.ite_none_right_eq_some.mp h
    cases ht
    exact .select hfree.1 rfl rfl
  | run c =>
    obtain ⟨p, hp, rfl⟩ := Option.map_eq_some_iff.mp h
    by_cases hst : (s.proc p).state = .RUNNABLE
    · simp only [State.runs, if_pos hst]
      exact .run hp hst (by simp [State.set]) rfl rfl
    · simp only [State.runs, if_neg hst]
      exact .skip rfl rfl
  | back c st =>
    obtain ⟨_, ht⟩ := Option.ite_none_right_eq_some.mp h
    obtain ⟨p, hp, rfl⟩ := Option.map_eq_some_iff.mp ht
    exact .back hp rfl rfl

/-- Where a step takes the state of an entry. -/
inductive Moved (s : State) (p : ProcId) : Act → Kernel.ProcState → Prop
  | same {a : Act} : Moved s p a (s.proc p).state
  | freed {a : Act} : (s.proc p).state = .ZOMBIE → Moved s p a .UNUSED
  | woken : (s.proc p).state = .SLEEPING → Moved s p (.wakeup p) .RUNNABLE
  | started {a : Act} : (s.proc p).state = .RUNNABLE → Moved s p a .RUNNING
  | back {c : CpuId} {st : Kernel.ProcState} : s.cproc c = some p → Moved s p (.back c st) st

/-- The entry is made by `allocproc`, or its state moves and the freezer and the masks do not
change. -/
theorem Touch.moved (h : Touch s p a q) :
    (∃ r, (s.proc p).state = .UNUSED ∧ q = (s.proc p).allocated s.nextpid r) ∨
    Moved s p a q.state ∧ q.frozen = (s.proc p).frozen ∧
      q.cpu_affinity = (s.proc p).cpu_affinity := by
  cases h with
  | allocproc r hst => exact .inl ⟨r, hst, rfl⟩
  | freeproc hst => exact .inr ⟨.freed hst, rfl, rfl⟩
  | wakeup hst => exact .inr ⟨.woken hst, rfl, rfl⟩
  | setscheduler =>
    unfold Proc.setPolicy
    split <;> exact .inr ⟨.same, rfl, rfl⟩
  | setdeadline => exact .inr ⟨.same, rfl, rfl⟩
  | select c ticks =>
    obtain ⟨d, r, heq⟩ := (s.proc p).newPeriod_with ticks
    rw [heq]
    exact .inr ⟨.same, rfl, rfl⟩
  | boost c ticks =>
    obtain ⟨d, r, heq⟩ := (s.proc p).boost.newPeriod_with ticks
    obtain ⟨l, m, heq'⟩ := (s.proc p).boost_with
    rw [heq, heq']
    exact .inr ⟨.same, rfl, rfl⟩
  | run _ hst => exact .inr ⟨.started hst, rfl, rfl⟩
  | @back c st hc =>
    obtain ⟨l, m, r, heq⟩ := (s.proc p).charge_with st
    rw [heq]
    exact .inr ⟨.back hc, rfl, rfl⟩

/-- A process on a CPU is changed there only. -/
theorem step_running (h : Steps s a t) (hi : Inv s) {c : CpuId} (hc : s.cproc c = some p)
    (ha : ∀ st, a ≠ .back c st) : (t.proc p).state = .RUNNING := by
  have hrun := hi.running c p hc
  rcases step_proc h p with heq | htouch
  · rw [heq]
    exact hrun
  rcases htouch.moved with ⟨r, hst, _⟩ | ⟨hmoved, _⟩
  · rw [hrun] at hst
    cases hst
  generalize (t.proc p).state = st at hmoved ⊢
  cases hmoved with
  | same => exact hrun
  | freed hst | woken hst =>
    rw [hrun] at hst
    cases hst
  | started => rfl
  | @back d st hd =>
    cases hi.one_cpu d c p hd hc
    exact absurd rfl (ha st)

theorem Inv.init : Inv .init where
  running _ _ h := by cases h
  one_cpu _ _ _ h := by cases h
  selecting _ _ h := by cases h

theorem Inv.step (h : Steps s a t) (hi : Inv s) : Inv t := by
  cases step_locals h with
  | other ha hcproc hsel =>
    refine ⟨fun c p hc => ?_, hcproc ▸ hi.one_cpu, hcproc ▸ hsel ▸ hi.selecting⟩
    rw [hcproc] at hc
    refine step_running h hi hc ?_
    rintro st rfl
    cases ha
  | @select c ticks hfree hcproc hsel =>
    refine ⟨fun d p hd => ?_, hcproc ▸ hi.one_cpu, fun d p hd => ?_⟩
    · rw [hcproc] at hd
      exact step_running h hi hd nofun
    rw [hcproc]
    by_cases hdc : d = c
    · exact hdc ▸ hfree
    · rw [hsel, update_of_ne hdc] at hd
      exact hi.selecting d p hd
  | @skip c hcproc hsel =>
    refine ⟨fun d p hd => ?_, hcproc ▸ hi.one_cpu, fun d p hd => ?_⟩
    · rw [hcproc] at hd
      exact step_running h hi hd nofun
    rw [hsel, update_apply] at hd
    split at hd
    · cases hd
    · rw [hcproc]
      exact hi.selecting d p hd
  | @run c p hsel hst hrun hcproc hselected =>
    -- the process that starts was on no CPU, since it was `RUNNABLE`
    have hfree : ∀ d, s.cproc d ≠ some p := by
      intro d hd
      rw [hi.running d p hd] at hst
      cases hst
    refine ⟨fun d x hd => ?_, fun d e x hd he => ?_, fun d x hd => ?_⟩
    · rw [hcproc, update_apply] at hd
      split at hd
      · cases hd
        exact hrun
      · exact step_running h hi hd nofun
    · rw [hcproc, update_apply] at hd he
      split at hd <;> split at he
      · rename_i hdc hec
        exact hdc.trans hec.symm
      · cases hd
        exact absurd he (hfree e)
      · cases he
        exact absurd hd (hfree d)
      · exact hi.one_cpu d e x hd he
    · rw [hselected, update_apply] at hd
      split at hd
      · cases hd
      · rename_i hdc
        rw [hcproc, update_of_ne hdc]
        exact hi.selecting d x hd
  | @back c st p hc hcproc hsel =>
    have hcpu : ∀ d x, t.cproc d = some x → d ≠ c ∧ s.cproc d = some x := by
      intro d x hd
      rw [hcproc, update_apply] at hd
      split at hd
      · cases hd
      · rename_i hdc
        exact ⟨hdc, hd⟩
    refine ⟨fun d x hd => ?_, fun d e x hd he =>
      hi.one_cpu d e x (hcpu d x hd).2 (hcpu e x he).2, fun d x hd => ?_⟩
    · refine step_running h hi (hcpu d x hd).2 ?_
      exact fun _ ha => (hcpu d x hd).1 (Act.back.inj ha).1.symm
    · rw [hcproc, update_apply]
      split
      · rfl
      · exact hi.selecting d x (hsel ▸ hd)

theorem run_inv {xs : List Act} (h : Run Steps .init xs s) : Inv s :=
  h.invariant (fun _ _ _ hst hi => hi.step hst) .init

end Yyds.Sched
