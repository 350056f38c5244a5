import Yyds.Lib.Run

/-! The processes of `sh.c` that wait for their children: the main loop, and `runcmd`. -/
namespace Yyds.Shell

open Lib

/-- `struct cmd`, without its words and files. -/
inductive Cmd
  | exec
  | redir (cmd : Cmd)
  | list (left right : Cmd)
  | pipe (left right : Cmd)
  | back (cmd : Cmd)
  deriving DecidableEq

/-- Where a process is in the code. `fg` and `list` are the `wait`s for the process of a line and
of the left side of a list; `prompt` is `getcmd`. -/
inductive Phase
  | prompt
  | fg (pid : Nat)
  | runcmd (cmd : Cmd)
  | list (pid : Nat) (right : Cmd)
  | pipe (right : Cmd)
  | piped (last : Bool)
  | exited
  deriving DecidableEq

/-- The child that a `wait` is for. -/
def Phase.child : Phase → Option Nat
  | .fg pid | .list pid _ => some pid
  | _ => none

/-- A process, its children that are not collected yet, and those of them that have exited. -/
structure Proc where
  phase : Phase
  children : List Nat
  zombies : List Nat
  deriving DecidableEq

def is_background (buf : List Char) : Bool :=
  (buf.reverse.dropWhile fun c => c = '\n' || c = ' ').head? = some '&'

/-- What `fork`, or the `open` of a redirection, returns is `none` if it fails. -/
inductive Act
  | line (buf : List Char) (fork : Option Nat)
  | run (fork : Option Nat)
  | exit (pid : Nat)
  | wait (pid : Nat)

namespace Proc

def start (phase : Phase) : Proc := ⟨phase, [], []⟩

/-- `fork1` and what the parent does next; without a child it panics. -/
def fork1 (s : Proc) (phase : Nat → Phase) : Option Nat → Option Proc
  | none => some { s with phase := .exited }
  | some pid =>
    if pid ∈ s.children then none
    else some { s with phase := phase pid, children := pid :: s.children }

def runcmd (s : Proc) (fork : Option Nat) : Cmd → Option Proc
  | .exec => some { s with phase := .exited }
  | .redir cmd => some { s with phase := if fork = none then .exited else .runcmd cmd }
  | .list _ right => s.fork1 (.list · right) fork
  | .pipe _ right => s.fork1 (fun _ => .pipe right) fork
  | .back _ => s.fork1 (fun _ => .exited) fork

/-- What follows a `wait`. -/
def waited (s : Proc) : Option Phase :=
  match s.phase with
  | .fg _ => some .prompt
  | .list _ right => some (.runcmd right)
  | .piped last => some (if last then .exited else .piped true)
  | _ => none

/-- A line that is no built-in command, a step of `runcmd`, the end of a child, and a `wait` that
returns a child which has exited. -/
def step (s : Proc) : Act → Option Proc
  | .line buf fork =>
    if s.phase = .prompt then s.fork1 (fun pid => if is_background buf then .prompt else .fg pid) fork
    else none
  | .run fork =>
    match s.phase with
    | .runcmd cmd => s.runcmd fork cmd
    | .pipe _ => s.fork1 (fun _ => .piped false) fork
    | _ => none
  | .exit pid =>
    if pid ∈ s.children ∧ pid ∉ s.zombies then some { s with zombies := pid :: s.zombies } else none
  | .wait pid =>
    if pid ∈ s.children ∧ pid ∈ s.zombies then
      s.waited.map fun phase => ⟨phase, s.children.erase pid, s.zombies.erase pid⟩
    else none

def Step (s : Proc) (a : Act) (t : Proc) : Prop := step s a = some t
  deriving Decidable

/-- The `wait` for the process of a line or of a left side does not end before the process. -/
def Right (s : Proc) : Act → Prop
  | .wait _ => ∀ pid ∈ s.phase.child, pid ∈ s.zombies
  | _ => True

instance (s : Proc) : DecidablePred (Right s) := fun a => by
  cases a <;> dsimp only [Right] <;> infer_instance

/-- A line in the foreground comes when no earlier child is left. -/
def Alone (s : Proc) : Act → Prop
  | .line buf _ => is_background buf = false → s.children = []
  | _ => True

instance (s : Proc) : DecidablePred (Alone s) := fun a => by
  cases a <;> dsimp only [Alone] <;> infer_instance

/-- The child that is waited for is the only one, and only the main loop has a prompt. -/
def Only (main : Bool) (s : Proc) : Prop :=
  match s.phase with
  | .prompt => main = true
  | .fg pid => main = true ∧ s.children = [pid]
  | .list pid _ => s.children = [pid]
  | .runcmd _ => s.children = []
  | _ => True

variable {main : Bool} {s t : Proc} {a : Act} {fork : Option Nat} {phase : Nat → Phase}

theorem only_fork1 (h : s.fork1 phase fork = some t)
    (hone : ∀ pid, Only main { s with phase := phase pid, children := pid :: s.children }) :
    Only main t := by
  cases fork with
  | none =>
    cases h
    trivial
  | some pid =>
    obtain ⟨_, heq⟩ := Option.ite_none_left_eq_some.mp h
    cases heq
    exact hone pid

theorem only_step (h : Only main s) (ha : main = true → Alone s a) (hst : Step s a t) :
    Only main t := by
  cases a with
  | line buf fork =>
    obtain ⟨hphase, hfork⟩ := Option.ite_none_right_eq_some.mp hst
    rw [Only, hphase] at h
    refine only_fork1 hfork fun pid => ?_
    cases hb : is_background buf with
    | true => exact h
    | false => exact ⟨h, by simp [ha h hb]⟩
  | run fork =>
    simp only [Step, step] at hst
    split at hst
    · rename_i cmd hphase
      rw [Only, hphase] at h
      cases cmd with
      | exec =>
        cases hst
        trivial
      | redir cmd =>
        cases hst
        cases fork with
        | none => trivial
        | some _ => exact h
      | list _ right => exact only_fork1 hst fun pid => by simp [Only, h]
      | pipe | back => exact only_fork1 hst fun _ => trivial
    · exact only_fork1 hst fun _ => trivial
    · cases hst
  | exit pid =>
    obtain ⟨_, heq⟩ := Option.ite_none_right_eq_some.mp hst
    cases heq
    exact h
  | wait pid =>
    obtain ⟨⟨hmem, _⟩, heq⟩ := Option.ite_none_right_eq_some.mp hst
    obtain ⟨phase, hphase, rfl⟩ := Option.map_eq_some_iff.mp heq
    unfold waited at hphase
    split at hphase <;> cases hphase
    · simp_all [Only]
    · simp_all [Only]
    · rename_i last _
      cases last <;> trivial

theorem right_of_only (h : Only main s) (hst : Step s a t) : Right s a := by
  cases a with
  | wait pid =>
    obtain ⟨⟨hmem, hz⟩, _⟩ := Option.ite_none_right_eq_some.mp hst
    intro q hq
    cases hphase : s.phase <;> simp_all [Only, Phase.child]
  | _ => trivial

end Proc

open Proc

/-- The main loop waits for the process of a line in the foreground in every run where each such
line comes when no earlier child is left; `runcmd` always waits for the left side of a list. -/
theorem shell_waits (cmd : Cmd) {as : List Act} {s t : Proc} {a : Act} (hst : Step s a t) :
    (Run (Guarded Alone Step) (start .prompt) as s → Right s a) ∧
    (Run Step (start (.runcmd cmd)) as s → Right s a) := by
  constructor
  · intro h
    have honly : Only true s :=
      h.invariant (fun _ _ _ hst hs => only_step hs (fun _ => hst.1) hst.2) rfl
    exact right_of_only honly hst
  · intro h
    have honly : Only false s := h.invariant (fun _ _ _ hst hs => only_step hs nofun hst) rfl
    exact right_of_only honly hst

/-- The main loop waits for a line, and `runcmd` for the left side of a list. -/
theorem shell_waits_ls :
    (∃ s, Run (Guarded Alone Step) (start .prompt) [.line ['l', 's', '\n'] (some 3), .exit 3] s ∧
      Step s (.wait 3) (start .prompt) ∧ Right s (.wait 3)) ∧
    ∃ s, Run Step (start (.runcmd (.list .exec .exec))) [.run (some 3), .exit 3] s ∧
      Step s (.wait 3) (start (.runcmd .exec)) ∧ Right s (.wait 3) := by
  obtain ⟨s, hrun, hst⟩ : ∃ s, Run (Guarded Alone Step) (start .prompt)
      [.line ['l', 's', '\n'] (some 3), .exit 3] s ∧ Step s (.wait 3) (start .prompt) :=
    Run.exists_foldlM
  obtain ⟨s', hrun', hst'⟩ : ∃ s, Run Step (start (.runcmd (.list .exec .exec)))
      [.run (some 3), .exit 3] s ∧ Step s (.wait 3) (start (.runcmd .exec)) := Run.exists_exec
  exact ⟨⟨s, hrun, hst, (shell_waits .exec hst).1 hrun⟩,
    s', hrun', hst', (shell_waits _ hst').2 hrun'⟩

/-- The end of a background command ends the `wait` for the next line. -/
theorem background_ends_wait : ∃ s, Run Step (start .prompt)
    [.line ['a', '&', '\n'] (some 3), .line ['b', '\n'] (some 4), .exit 3] s ∧
    Step s (.wait 3) ⟨.prompt, [4], []⟩ ∧ ¬ Right s (.wait 3) :=
  Run.exists_exec

end Yyds.Shell
