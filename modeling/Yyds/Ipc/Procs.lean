import Yyds.Kernel.Sys
import Yyds.Lib.RefCount

/-! The process table as `fork`, `exit`, `wait` and `waitpid` change it, with something in each
entry that other files look after. -/
namespace Yyds.Ipc

open Lib Function
open Mm (ProcId)
open Kernel (ProcState int)

/-- `mask >> i & 1` -/
def bit {n : Nat} (i : Fin n) (mask : BitVec 32) : Bool := mask.getLsbD i.val

theorem bit_or {n : Nat} (hn : n ≤ 32) (i j : Fin n) (mask : BitVec 32) :
    bit i (mask ||| 1#32 <<< j.val) = (bit i mask || decide (i = j)) := by
  have hi : i.val < 32 := lt_of_lt_of_le i.isLt hn
  by_cases he : i = j
  · subst he
    simp [bit, hi]
  · simp only [bit, BitVec.getLsbD_or, BitVec.getLsbD_shiftLeft, BitVec.getLsbD_one, he]
    simp
    omega

theorem bit_zero {n : Nat} (i : Fin n) : bit i 0 = false := BitVec.getLsbD_zero

structure Entry (X : Type) where
  state : ProcState
  pid : Int
  parent : Option ProcId
  own : X

/-- A process that is there and for which `C` holds of what it owns. -/
def Entry.holder {X : Type} (C : X → Bool) (e : Entry X) : Option Unit :=
  if e.state ≠ .UNUSED ∧ C e.own = true then some () else none

theorem Entry.holder_iff {X : Type} {C : X → Bool} {e : Entry X} :
    e.holder C = some () ↔ e.state ≠ .UNUSED ∧ C e.own = true := by
  simp [Entry.holder]

structure Procs (X : Type) where
  proc : ProcId → Entry X
  nextpid : Int

namespace Procs

variable {X : Type}

def set (s : Procs X) (p : ProcId) (e : Entry X) : Procs X :=
  { s with proc := update s.proc p e }

def setOwn (s : Procs X) (p : ProcId) (x : X) : Procs X := s.set p { s.proc p with own := x }

/-- What `userinit` leaves: one process, `initproc`. -/
def boot (x : X) : Procs X where
  proc p := if p = 0 then ⟨.RUNNABLE, 1, none, x⟩ else ⟨.UNUSED, 0, none, x⟩
  nextpid := 2

/-- The place that `allocproc` takes. -/
def unused (s : Procs X) : Option ProcId :=
  (List.finRange NPROC).find? fun q => (s.proc q).state = .UNUSED

/-- A process that is not dead runs some time. -/
def Active (s : Procs X) (p : ProcId) : Prop :=
  (s.proc p).state ≠ .UNUSED ∧ (s.proc p).state ≠ .ZOMBIE
  deriving Decidable

/-- The child that `wait` (`pid` is -1) or `waitpid` finds. -/
def zombie (s : Procs X) (p : ProcId) (pid : Int) : Option ProcId :=
  (List.finRange NPROC).find? fun q =>
    (s.proc q).parent = some p ∧ (pid = -1 ∨ (s.proc q).pid = pid) ∧ (s.proc q).state = .ZOMBIE

def freeproc (s : Procs X) (q : ProcId) : Procs X :=
  s.set q { s.proc q with pid := 0, parent := none, state := .UNUSED }

/-- `trapframes`: there are pages for the two trap frames; `pagetable`: there are for the page
table. The new entry has `x`. -/
def allocproc (s : Procs X) (x : X) (trapframes pagetable : Bool) : Option ProcId × Procs X :=
  match s.unused with
  | none => (none, s)
  | some np =>
    let s₁ : Procs X :=
      { s.set np { s.proc np with pid := s.nextpid, own := x } with nextpid := int (s.nextpid + 1) }
    if trapframes then
      if pagetable then (some np, s₁) else (none, s₁.freeproc np)
    else (none, s₁)

/-- The children go to `initproc`. -/
def exit (s : Procs X) (p : ProcId) : Procs X :=
  { s with proc := fun q =>
      let e := s.proc q
      let e := if e.parent = some p then { e with parent := some 0 } else e
      if q = p then { e with state := .ZOMBIE } else e }

/-! ### Counting processes -/

/-- How many there are. -/
def count (s : Procs X) (C : X → Bool) : Nat := refs (fun p => (s.proc p).holder C) ()

variable {s t : Procs X} {C : X → Bool} {p q np : ProcId} {e : Entry X} {x : X}

theorem count_le (s : Procs X) (C : X → Bool) : s.count C ≤ NPROC :=
  (Finset.card_filter_le _ _).trans (Finset.card_fin NPROC).le

/-- An `int` that counts processes does not overflow. -/
theorem int_count_succ (s : Procs X) (C : X → Bool) : int (s.count C + 1) = s.count C + 1 := by
  have hle := s.count_le C
  unfold NPROC at hle
  exact Int.bmod_eq_of_le (by omega) (by omega)

theorem int_count_pred (s : Procs X) (C : X → Bool) : int (s.count C - 1) = s.count C - 1 := by
  have hle := s.count_le C
  unfold NPROC at hle
  exact Int.bmod_eq_of_le (by omega) (by omega)

theorem count_set (s : Procs X) (C : X → Bool) (p : ProcId) (e : Entry X) :
    (s.set p e).count C + (if (s.proc p).holder C = some () then 1 else 0) =
      s.count C + if e.holder C = some () then 1 else 0 := by
  have hset : (fun q => ((s.set p e).proc q).holder C) =
      update (fun q => (s.proc q).holder C) p (e.holder C) := by
    funext q
    by_cases hq : q = p
    · subst hq
      simp [set]
    · simp [set, hq]
  rw [count, hset]
  exact refs_update (fun q => (s.proc q).holder C) p (e.holder C) ()

theorem count_congr (h : ∀ p, (t.proc p).state ≠ .UNUSED ∧ C (t.proc p).own = true ↔
    (s.proc p).state ≠ .UNUSED ∧ C (s.proc p).own = true) : t.count C = s.count C := by
  apply refs_congr
  intro p
  rw [Entry.holder_iff, Entry.holder_iff]
  exact h p

theorem exit_own (q : ProcId) : ((s.exit p).proc q).own = (s.proc q).own := by
  simp only [exit]
  split <;> split <;> rfl

theorem exit_unused (hp : s.Active p) (q : ProcId) :
    ((s.exit p).proc q).state = .UNUSED ↔ (s.proc q).state = .UNUSED := by
  by_cases hq : q = p
  · subst hq
    simp [exit, hp.1]
  · simp only [exit, hq, if_false]
    split <;> rfl

theorem active_exit (h : s.Active q) (hq : q ≠ p) : (s.exit p).Active q := by
  simp only [Active, exit, if_neg hq]
  split <;> exact h

theorem count_exit (hp : s.Active p) : (s.exit p).count C = s.count C := by
  refine count_congr fun q => ?_
  rw [exit_own, ne_eq, exit_unused hp]

theorem count_set_of_not (h : ¬ ((s.proc p).state ≠ .UNUSED ∧ C (s.proc p).own = true))
    (he : ¬ (e.state ≠ .UNUSED ∧ C e.own = true)) : (s.set p e).count C = s.count C := by
  have hset := s.count_set C p e
  rwa [if_neg (mt Entry.holder_iff.mp h), if_neg (mt Entry.holder_iff.mp he)] at hset

theorem count_setOwn (hp : (s.proc p).state ≠ .UNUSED) (x : X) :
    (s.setOwn p x).count C + (if C (s.proc p).own = true then 1 else 0) =
      s.count C + if C x = true then 1 else 0 := by
  have h := s.count_set C p { s.proc p with own := x }
  simp only [Entry.holder_iff, hp, ne_eq, not_false_eq_true, true_and] at h
  exact h

theorem count_come (h : (s.proc p).state = .UNUSED) (he : e.state ≠ .UNUSED) :
    (s.set p e).count C = s.count C + if C e.own = true then 1 else 0 := by
  have hset := s.count_set C p e
  rw [if_neg (mt Entry.holder_iff.mp fun hc => hc.1 h)] at hset
  simp only [Entry.holder_iff, he, ne_eq, not_false_eq_true, true_and] at hset
  exact hset

theorem count_freeproc (h : C (s.proc p).own = false) : (s.freeproc p).count C = s.count C := by
  refine count_set_of_not ?_ fun he => he.1 rfl
  rw [h]
  exact fun hc => Bool.false_ne_true hc.2

theorem set_of_ne (h : q ≠ p) : (s.set p e).proc q = s.proc q := update_of_ne h _ _

theorem set_self : (s.set p e).proc p = e := update_self _ _ _

theorem setOwn_own (s : Procs X) (p : ProcId) (x : X) (q : ProcId) :
    ((s.setOwn p x).proc q).own = if q = p then x else (s.proc q).own := by
  by_cases hq : q = p
  · subst hq
    rw [setOwn, set_self, if_pos rfl]
  · rw [setOwn, set_of_ne hq, if_neg hq]

theorem setOwn_state (s : Procs X) (p : ProcId) (x : X) (q : ProcId) :
    ((s.setOwn p x).proc q).state = (s.proc q).state := by
  by_cases hq : q = p
  · subst hq
    rw [setOwn, set_self]
  · rw [setOwn, set_of_ne hq]

theorem active_of_eq (h : s.Active q) (he : t.proc q = s.proc q) : t.Active q := by
  unfold Active at *
  rwa [he]

theorem active_setOwn (h : s.Active q) (p : ProcId) (x : X) : (s.setOwn p x).Active q := by
  rw [Active, setOwn_state]
  exact h

theorem zombie_some {pid : Int} (h : s.zombie p pid = some q) : (s.proc q).state = .ZOMBIE := by
  have hz := List.find?_some h
  simp only [decide_eq_true_eq] at hz
  exact hz.2.2

/-- `allocproc` changes a place that is not in use, and leaves it so. -/
structure Allocated (s : Procs X) (x : X) (r : Option ProcId) (t : Procs X) : Prop where
  count : ∀ C, t.count C = s.count C
  same : ∀ q, (s.proc q).state ≠ .UNUSED → t.proc q = s.proc q
  unused : ∀ q, (s.proc q).state = .UNUSED → (t.proc q).state = .UNUSED
  own : ∀ q, (t.proc q).own = (s.proc q).own ∨ (t.proc q).own = x
  found : ∀ np, r = some np →
    (s.proc np).state = .UNUSED ∧ (t.proc np).state = .UNUSED ∧ (t.proc np).own = x

theorem Allocated.refl (s : Procs X) (x : X) : Allocated s x none s :=
  ⟨fun _ => rfl, fun _ _ => rfl, fun _ hq => hq, fun _ => .inl rfl, nofun⟩

theorem Allocated.update {r r' : Option ProcId} {u : Procs X} (h : Allocated s x r t)
    (hu : u.proc = update t.proc np e) (hun : (s.proc np).state = .UNUSED)
    (he : e.state = .UNUSED) (hown : e.own = x) (hr : ∀ q, r' = some q → q = np) :
    Allocated s x r' u := by
  constructor
  · intro C
    have hcount : u.count C = (t.set np e).count C := by
      rw [Procs.count, hu]
      rfl
    rw [hcount, ← h.count]
    exact count_set_of_not (fun hc => hc.1 (h.unused np hun)) fun hc => hc.1 he
  · intro q hq
    rw [hu, update_of_ne, h.same q hq]
    rintro rfl
    exact hq hun
  · intro q hq
    by_cases hqn : q = np
    · rw [hqn, hu, update_self]
      exact he
    · rw [hu, update_of_ne hqn]
      exact h.unused q hq
  · intro q
    by_cases hq : q = np
    · subst hq
      rw [hu, update_self]
      exact .inr hown
    · rw [hu, update_of_ne hq]
      exact h.own q
  · intro q hq
    obtain rfl := hr q hq
    rw [hu, update_self]
    exact ⟨hun, he, hown⟩

theorem Allocated.freeproc (h : Allocated s x (some np) t) :
    Allocated s x none (t.freeproc np) := by
  obtain ⟨hun, _, hown⟩ := h.found np rfl
  exact h.update rfl hun rfl hown nofun

theorem allocproc_spec {trapframes pagetable : Bool} {r : Option ProcId}
    (h : s.allocproc x trapframes pagetable = (r, t)) : Allocated s x r t := by
  unfold allocproc at h
  split at h
  · cases h
    exact .refl s x
  rename_i np hnp
  have hun : (s.proc np).state = .UNUSED := by simpa using List.find?_some hnp
  have hnew : ∀ r : Option ProcId, (∀ q, r = some q → q = np) → Allocated s x r
      { s.set np { s.proc np with pid := s.nextpid, own := x } with
        nextpid := int (s.nextpid + 1) } :=
    fun r hr => (Allocated.refl s x).update rfl hun hun rfl hr
  split at h
  · split at h
    · cases h
      exact hnew _ fun q hq => (Option.some.inj hq).symm
    · cases h
      exact (hnew (some np) fun q hq => (Option.some.inj hq).symm).freeproc
  · cases h
    exact hnew _ nofun

end Procs

end Yyds.Ipc
