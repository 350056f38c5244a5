import Yyds.Lib.Run

/-! Alarms: the timer branch of `usertrap`, `sigalarm` and `sigreturn`, with the ways into and out
of the kernel that save and restore the registers. -/
namespace Yyds.Alarm

open Lib

/-- The user registers of `struct trapframe`. -/
inductive Reg
  | ra | sp | gp | tp | t0 | t1 | t2 | s0 | s1 | a0 | a1 | a2 | a3 | a4 | a5 | a6 | a7 | s2 | s3 | s4
  | s5 | s6 | s7 | s8 | s9 | s10 | s11 | t3 | t4 | t5 | t6
  deriving DecidableEq

structure Frame where
  epc : BitVec 64
  reg : Reg → BitVec 64

def Frame.setA0 (f : Frame) (v : BitVec 64) : Frame :=
  { f with reg := Function.update f.reg .a0 v }

/-- `struct proc`, as far as alarms go; `user` is what the processor holds in user mode. -/
structure Proc where
  user : Frame
  trapframe : Frame
  alarm_trapframe : Frame
  alarm_interval : BitVec 32
  alarm_handler : BitVec 64
  alarm_ticks : BitVec 32
  alarm_goingoff : Bool
  killed : Bool

/-- System calls other than `exec`; one that has nothing to do with alarms returns `ret`, and
`argaddr` has found the handler if `mapped`. -/
inductive Syscall
  | ordinary (ret : BitVec 64)
  | sigalarm (mapped : Bool)
  | sigreturn

/-- Why the processor leaves user mode; `other` are devices and page faults. -/
inductive Cause
  | ecall (c : Syscall)
  | timer
  | other

/-! ### The code -/

namespace Proc

def sys_sigalarm (p : Proc) (mapped : Bool) : Proc × BitVec 64 :=
  if mapped then
    let ticks := (p.trapframe.reg .a0).setWidth 32
    ({ p with
        alarm_interval := ticks, alarm_handler := p.trapframe.reg .a1, alarm_ticks := ticks }, 0)
  else (p, -1)

def sys_sigreturn (p : Proc) : Proc × BitVec 64 :=
  ({ p with trapframe := p.alarm_trapframe, alarm_goingoff := false }, 0)

/-- The result of the call goes to the trapframe that the call leaves. -/
def syscall (p : Proc) (c : Syscall) : Proc :=
  let (p, ret) := match c with
    | .ordinary ret => (p, ret)
    | .sigalarm mapped => p.sys_sigalarm mapped
    | .sigreturn => p.sys_sigreturn
  { p with trapframe := p.trapframe.setA0 ret }

/-- A timer interrupt. -/
def clock (p : Proc) : Proc :=
  if p.alarm_interval ≠ 0 then
    let p := { p with alarm_ticks := p.alarm_ticks - 1 }
    if p.alarm_ticks.toInt ≤ 0 then
      if p.alarm_goingoff then p
      else
        { p with
          alarm_ticks := p.alarm_interval
          alarm_trapframe := p.trapframe
          trapframe := { p.trapframe with epc := p.alarm_handler }
          alarm_goingoff := true }
    else p
  else p

/-- From user mode to user mode; a process that is killed does not return. -/
def usertrap (p : Proc) (cause : Cause) : Option Proc :=
  let p := { p with trapframe := p.user }
  if p.killed then none
  else
    let p := match cause with
      | .ecall c => { p with trapframe := { p.trapframe with epc := p.trapframe.epc + 4 } }.syscall c
      | .timer => p.clock
      | .other => p
    some { p with user := p.trapframe }

end Proc

/-- The process runs in user mode until its registers are `f`, it enters the kernel, or another one
kills it. -/
inductive Event
  | run (f : Frame)
  | trap (cause : Cause)
  | kill

def step (p : Proc) : Event → Option Proc
  | .run f => some { p with user := f }
  | .trap cause => p.usertrap cause
  | .kill => some { p with killed := true }

/-- Everything but the end of the handler. -/
def Event.Inside : Event → Prop
  | .trap (.ecall .sigreturn) => False
  | _ => True

/-- A step while the handler runs. -/
def HandlerStep : Proc → Event → Proc → Prop :=
  Guarded (fun _ e => e.Inside) fun p e q => step p e = some q

/-! ### The handler -/

/-- The next tick enters the handler. -/
def Proc.Due (p : Proc) : Prop :=
  p.alarm_interval ≠ 0 ∧ (p.alarm_ticks - 1).toInt ≤ 0 ∧ p.alarm_goingoff = false

/-- The handler runs, and `f` is where it was entered. -/
def Proc.Handling (f : Frame) (p : Proc) : Prop := p.alarm_goingoff = true ∧ p.alarm_trapframe = f

variable {p q r : Proc} {f : Frame} {e : Event}

theorem handling_of_due (h : p.Due) (hstep : step p (.trap .timer) = some q) :
    q.Handling p.user ∧ q.user = { p.user with epc := p.alarm_handler } := by
  obtain ⟨hint, hticks, hoff⟩ := h
  simp only [step, Proc.usertrap, Option.ite_none_left_eq_some, Option.some.injEq] at hstep
  obtain ⟨-, rfl⟩ := hstep
  simp only [Proc.clock, if_pos hint, if_pos hticks, hoff]
  exact ⟨⟨rfl, rfl⟩, rfl⟩

theorem Proc.Handling.clock (h : p.Handling f) :
    p.clock.Handling f ∧ p.clock.trapframe = p.trapframe := by
  obtain ⟨hon, rfl⟩ := h
  simp only [Proc.clock, Proc.Handling, hon]
  split_ifs <;> simp [hon]

theorem Proc.Handling.step (h : p.Handling f) (he : e.Inside) (hstep : step p e = some q) :
    q.Handling f := by
  cases e with
  | run g =>
    cases hstep
    exact h
  | kill =>
    cases hstep
    exact h
  | trap cause =>
    simp only [Alarm.step, Proc.usertrap, Option.ite_none_left_eq_some, Option.some.injEq] at hstep
    obtain ⟨-, rfl⟩ := hstep
    cases cause with
    | other => exact h
    | timer => exact (Proc.Handling.clock (p := { p with trapframe := p.user }) h).1
    | ecall c =>
      cases c with
      | ordinary ret => exact h
      | sigalarm mapped => cases mapped <;> exact h
      | sigreturn => exact he.elim

theorem setA0_eq_self_iff : f.setA0 0 = f ↔ f.reg .a0 = 0 := by
  refine ⟨fun h => ?_, fun h => ?_⟩
  · have hset : (f.setA0 0).reg .a0 = 0 := by simp [Frame.setA0]
    rwa [h] at hset
  · rw [Frame.setA0, ← h, Function.update_eq_self]

/-- In a handler no tick enters it again, and `sigreturn` brings the registers back that were there
when it was entered if and only if `a0` was 0. -/
theorem alarm_transparent_iff {es : List Event} (hdue : p.Due)
    (henter : step p (.trap .timer) = some q) (hrun : Run HandlerStep q es r) :
    q.user = { p.user with epc := p.alarm_handler } ∧
      (∀ t, step r (.trap .timer) = some t → t.user = r.user) ∧
      (r.killed = false → ∃ t, step r (.trap (.ecall .sigreturn)) = some t ∧
        (t.user = p.user ↔ p.user.reg .a0 = 0)) := by
  obtain ⟨hq, huser⟩ := handling_of_due hdue henter
  have hr : r.Handling p.user :=
    hrun.invariant (fun _ _ _ hstep h => Proc.Handling.step h hstep.1 hstep.2) hq
  refine ⟨huser, fun t ht => ?_, fun hk => ?_⟩
  · simp only [step, Proc.usertrap, Option.ite_none_left_eq_some, Option.some.injEq] at ht
    obtain ⟨-, rfl⟩ := ht
    exact (Proc.Handling.clock (p := { r with trapframe := r.user }) hr).2
  · simp only [step, Proc.usertrap, hk]
    refine ⟨_, rfl, ?_⟩
    simp only [Proc.syscall, Proc.sys_sigreturn, hr.2]
    exact setA0_eq_self_iff

/-- A process with an alarm at the next tick. -/
def armed (a0 : BitVec 64) : Proc :=
  let f : Frame := ⟨0x100, fun r => if r = .a0 then a0 else 7⟩
  ⟨f, f, f, 2, 0x40, 1, false, false⟩

theorem armed_due (a0 : BitVec 64) : (armed a0).Due :=
  ⟨show 2#32 ≠ 0 by decide, show (1#32 - 1).toInt ≤ 0 by decide, rfl⟩

/-- The handler is ticked twice, arms the alarm again and writes something. -/
theorem alarm_transparent_iff_nested :
    let es : List Event := [.trap .timer, .trap (.ecall (.sigalarm true)),
      .trap (.ecall (.ordinary 5)), .trap .timer, .run ⟨0x60, fun _ => 3⟩]
    ∃ q r t, step (armed 0) (.trap .timer) = some q ∧ Run HandlerStep q es r ∧
      step r (.trap (.ecall .sigreturn)) = some t ∧ t.user = (armed 0).user := by
  intro es
  obtain ⟨q, henter, r, hrun, hk⟩ : ∃ q, step (armed 0) (.trap .timer) = some q ∧
      ∃ r, Run HandlerStep q es r ∧ r.killed = false :=
    ⟨_, rfl, _, .cons ⟨trivial, rfl⟩ (.cons ⟨trivial, rfl⟩ (.cons ⟨trivial, rfl⟩
      (.cons ⟨trivial, rfl⟩ (.cons ⟨trivial, rfl⟩ (.nil _))))), rfl⟩
  obtain ⟨-, -, hback⟩ := alarm_transparent_iff (armed_due 0) henter hrun
  obtain ⟨t, ht, hiff⟩ := hback hk
  exact ⟨q, r, t, henter, hrun, ht, hiff.2 rfl⟩

/-- `a0` is 5 before the handler and 0 after it. -/
theorem alarm_loses_a0 : ∃ q t, (armed 5).Due ∧ step (armed 5) (.trap .timer) = some q ∧
    step q (.trap (.ecall .sigreturn)) = some t ∧ t.user.reg .a0 ≠ (armed 5).user.reg .a0 :=
  ⟨_, _, armed_due 5, rfl, rfl, by decide⟩

end Yyds.Alarm
