import Yyds.Ipc.Procs

/-! The capability sets of the processes: `capability.c`, and what `fork` does to them. -/
namespace Yyds.Capability

open Lib Mm Kernel Function

def CAP_SETFCAP : Int := 17
def CAP_MAX : Int := 32

def CAP_EFFECTIVE : Int := 0
def CAP_PERMITTED : Int := 1
def CAP_INHERITABLE : Int := 2
def CAP_BOUNDING : Int := 3

/-- `struct proc`, as far as capabilities go. -/
structure CProc where
  state : ProcState
  pid : Int
  uid : Int
  caps_effective : BitVec 32
  caps_permitted : BitVec 32
  caps_inheritable : BitVec 32
  caps_bounding : BitVec 32
  deriving DecidableEq

structure CapSys where
  proc : ProcId → CProc
  nextpid : Int

def CapSys.setProc (s : CapSys) (p : ProcId) (f : CProc → CProc) : CapSys :=
  { s with proc := update s.proc p (f (s.proc p)) }

/-- `1 << cap` -/
def bit (cap : Int) : BitVec 32 := 1#32 <<< cap.toNat

/-- The process the loops over the table find for a process id. -/
def CapSys.find (s : CapSys) (pid : Int) : Option ProcId :=
  (List.finRange NPROC).find? fun q => (s.proc q).pid = pid ∧ (s.proc q).state ≠ .UNUSED

/-! ### Checking and setting -/

def cap_check (s : CapSys) (pid cap : Int) : Bool :=
  if cap < 0 ∨ cap ≥ CAP_MAX then false
  else
    match s.find pid with
    | none => false
    | some q =>
      if (s.proc q).uid = 0 then true
      else (s.proc q).caps_effective &&& bit cap != 0

def cap_capable (s : CapSys) (cur : ProcId) (cap : Int) : Bool := cap_check s (s.proc cur).pid cap

/-- The `switch` of `cap_set`. -/
def CProc.capSet (pr : CProc) (cap_type : Int) (caps : BitVec 32) : CProc :=
  if cap_type = CAP_EFFECTIVE then { pr with caps_effective := caps &&& pr.caps_permitted }
  else if cap_type = CAP_PERMITTED then { pr with caps_permitted := caps &&& pr.caps_bounding }
  else if cap_type = CAP_INHERITABLE then { pr with caps_inheritable := caps }
  else { pr with caps_bounding := pr.caps_bounding &&& caps }

def cap_set (s : CapSys) (cur : ProcId) (pid cap_type : Int) (caps : BitVec 32) : Int × CapSys :=
  if cap_type < 0 ∨ cap_type > CAP_BOUNDING then (-1, s)
  else if (s.proc cur).uid ≠ 0 ∧ cap_capable s cur CAP_SETFCAP = false then (-1, s)
  else
    match s.find pid with
    | none => (-1, s)
    | some q => (0, s.setProc q fun pr => pr.capSet cap_type caps)

/-- The `switch` of `cap_get`. -/
def CProc.capGet (pr : CProc) (cap_type : Int) : BitVec 32 :=
  if cap_type = CAP_EFFECTIVE then pr.caps_effective
  else if cap_type = CAP_PERMITTED then pr.caps_permitted
  else if cap_type = CAP_INHERITABLE then pr.caps_inheritable
  else pr.caps_bounding

def cap_get (s : CapSys) (pid cap_type : Int) : Option (BitVec 32) :=
  if cap_type < 0 ∨ cap_type > CAP_BOUNDING then none
  else (s.find pid).map fun q => (s.proc q).capGet cap_type

/-- The effective set becomes `f` of what it is. -/
def capChange (s : CapSys) (cur : ProcId) (pid cap : Int) (f : BitVec 32 → BitVec 32) :
    Int × CapSys :=
  if cap < 0 ∨ cap ≥ CAP_MAX then (-1, s)
  else
    match cap_get s pid CAP_EFFECTIVE with
    | none => (-1, s)
    | some current => cap_set s cur pid CAP_EFFECTIVE (f current)

def cap_raise (s : CapSys) (cur : ProcId) (pid cap : Int) : Int × CapSys :=
  capChange s cur pid cap (· ||| bit cap)

def cap_drop (s : CapSys) (cur : ProcId) (pid cap : Int) : Int × CapSys :=
  capChange s cur pid cap (· &&& ~~~ (bit cap))

/-- The sets a child gets from its parent in `cap_fork_init`. -/
def CProc.inherit (parent child : CProc) : CProc :=
  { child with
    caps_effective := parent.caps_inheritable &&& parent.caps_permitted
    caps_permitted := parent.caps_inheritable &&& parent.caps_bounding
    caps_inheritable := parent.caps_inheritable
    caps_bounding := parent.caps_bounding }

def cap_fork_init (s : CapSys) (child parent : ProcId) : CapSys :=
  s.setProc child (s.proc parent).inherit

def cap_exec_init (s : CapSys) (p : ProcId) : CapSys :=
  s.setProc p fun pr => { pr with caps_effective := pr.caps_permitted &&& pr.caps_inheritable }

/-! ### Processes -/

def freeproc (s : CapSys) (p : ProcId) : CapSys :=
  s.setProc p fun pr => { pr with pid := 0, state := .UNUSED }

/-- The user and the sets that `allocproc` gives. -/
def CProc.fresh (pr : CProc) : CProc :=
  { pr with
    uid := 0, caps_effective := 0, caps_permitted := 0xFFFFFFFF, caps_inheritable := 0
    caps_bounding := 0xFFFFFFFF }

/-- `trapframes`: there are pages for the two trap frames; `pagetable`: there are for the page
table. -/
def allocproc (s : CapSys) (trapframes pagetable : Bool) : Option ProcId × CapSys :=
  match (List.finRange NPROC).find? fun q => (s.proc q).state = .UNUSED with
  | none => (none, s)
  | some np =>
    let s₁ : CapSys := { s with nextpid := int (s.nextpid + 1) }
    let s₂ := s₁.setProc np fun pr => { pr with pid := s.nextpid }
    if trapframes then
      let s₃ := s₂.setProc np CProc.fresh
      if pagetable then (some np, s₃) else (none, freeproc s₃ np)
    else (none, s₂)

/-- The entry apart from its user and sets; nothing here reads the parent. -/
def CProc.entry (pr : CProc) : Ipc.Entry Unit := ⟨pr.state, pr.pid, none, ()⟩

def CapSys.procs (s : CapSys) : Ipc.Procs Unit := ⟨CProc.entry ∘ s.proc, s.nextpid⟩

/-- `allocproc` does to the table what it does for the other owners of the entries. -/
theorem allocproc_procs (s : CapSys) (trapframes pagetable : Bool) :
    (allocproc s trapframes pagetable).map id CapSys.procs =
      s.procs.allocproc () trapframes pagetable := by
  have hun : s.procs.unused = (List.finRange NPROC).find? fun q => (s.proc q).state = .UNUSED := rfl
  rw [allocproc, Ipc.Procs.allocproc, hun]
  cases (List.finRange NPROC).find? fun q => (s.proc q).state = .UNUSED with
  | none => rfl
  | some np =>
    cases trapframes <;> cases pagetable <;> simp [CapSys.procs, CapSys.setProc, freeproc,
      Ipc.Procs.freeproc, Ipc.Procs.set, comp_update, CProc.entry, CProc.fresh]

/-- `copied`: `uvmcopy` gets its pages. The result is the child. -/
def fork (s : CapSys) (p : ProcId) (trapframes pagetable copied : Bool) : Option ProcId × CapSys :=
  match allocproc s trapframes pagetable with
  | (none, s₁) => (none, s₁)
  | (some np, s₁) =>
    if copied then
      (some np, s₁.setProc np fun pr => { pr with state := .RUNNABLE, uid := (s₁.proc p).uid })
    else (none, freeproc s₁ np)

/-! ### Runs -/

/-- `exit` and `wait` are here for the places in the table. -/
inductive Act
  | cap_set (cur : ProcId) (pid cap_type : Int) (caps : BitVec 32)
  | cap_raise (cur : ProcId) (pid cap : Int)
  | cap_drop (cur : ProcId) (pid cap : Int)
  | cap_exec_init (p : ProcId)
  | cap_fork_init (child parent : ProcId)
  | fork (p : ProcId) (trapframes pagetable copied : Bool)
  | exit (p : ProcId)
  | wait (q : ProcId)

def CapSys.next (s : CapSys) : Act → CapSys
  | .cap_set cur pid cap_type caps => (cap_set s cur pid cap_type caps).2
  | .cap_raise cur pid cap => (cap_raise s cur pid cap).2
  | .cap_drop cur pid cap => (cap_drop s cur pid cap).2
  | .cap_exec_init p => cap_exec_init s p
  | .cap_fork_init child parent => cap_fork_init s child parent
  | .fork p trapframes pagetable copied => (fork s p trapframes pagetable copied).2
  | .exit p => s.setProc p fun pr => { pr with state := .ZOMBIE }
  | .wait q => if (s.proc q).state = .ZOMBIE then freeproc s q else s

/-- What `userinit` leaves: one process. -/
def CapSys.boot : CapSys where
  proc p := CProc.fresh ⟨if p = 0 then .RUNNABLE else .UNUSED, if p = 0 then 1 else 0, 0, 0, 0, 0, 0⟩
  nextpid := 2

def CapSys.Steps (s : CapSys) (a : Act) (t : CapSys) : Prop := t = s.next a

/-! ### Nested sets -/

/-- Every capability of `a` is one of `b`. -/
def Within (a b : BitVec 32) : Prop := a &&& b = a
  deriving Decidable

section Within

variable {a b c : BitVec 32}

theorem within_iff : Within a b ↔ ∀ i, a.getLsbD i = true → b.getLsbD i = true := by
  constructor
  · intro h i hi
    have hand := congrArg (BitVec.getLsbD · i) h
    simpa [hi] using hand
  · intro h
    refine BitVec.eq_of_getLsbD_eq ?_
    intro i _
    rw [BitVec.getLsbD_and]
    cases ha : a.getLsbD i with
    | false => rfl
    | true => simp [h i ha]

theorem Within.refl (a : BitVec 32) : Within a a := within_iff.mpr fun _ hi => hi

theorem Within.trans (h : Within a b) (h' : Within b c) : Within a c :=
  within_iff.mpr fun i hi => within_iff.mp h' i (within_iff.mp h i hi)

theorem within_and : Within a (b &&& c) ↔ Within a b ∧ Within a c := by
  simp only [within_iff, BitVec.getLsbD_and, Bool.and_eq_true]
  exact ⟨fun h => ⟨fun i hi => (h i hi).1, fun i hi => (h i hi).2⟩,
    fun h i hi => ⟨h.1 i hi, h.2 i hi⟩⟩

theorem and_within_left (a b : BitVec 32) : Within (a &&& b) a :=
  within_iff.mpr fun i hi => by simp_all

theorem and_within_right (a b : BitVec 32) : Within (a &&& b) b :=
  within_iff.mpr fun i hi => by simp_all

theorem zero_within (a : BitVec 32) : Within 0 a :=
  within_iff.mpr fun i hi => by simp at hi

theorem full_within : Within 0xFFFFFFFF a ↔ a = 0xFFFFFFFF := by
  constructor
  · intro h
    rw [← h]
    exact (BitVec.allOnes_and).symm
  · rintro rfl
    rfl

theorem full_getLsbD {i : Nat} (hi : i < 32) : (0xFFFFFFFF : BitVec 32).getLsbD i = true := by
  rw [show (0xFFFFFFFF : BitVec 32) = BitVec.allOnes 32 from rfl, BitVec.getLsbD_allOnes]
  exact decide_eq_true hi

theorem getLsbD_of_and_bit {cap : Int} (h : (a &&& bit cap != 0) = true) :
    a.getLsbD cap.toNat = true := by
  by_contra hno
  refine (bne_iff_ne.mp h) (BitVec.eq_of_getLsbD_eq ?_)
  intro i _
  rw [bit]
  by_cases hi : i = cap.toNat
  · simp [hi, Bool.eq_false_iff.mpr hno]
  · simp
    omega

end Within

/-- The effective set is within the permitted one, and that within the bounding one. -/
def CProc.Nested (pr : CProc) : Prop :=
  Within pr.caps_effective pr.caps_permitted ∧ Within pr.caps_permitted pr.caps_bounding
  deriving Decidable

/-- A set that encloses another one is lowered to a mask that still contains the inner one. -/
def Keeps (pr : CProc) (cap_type : Int) (caps : BitVec 32) : Prop :=
  (cap_type = CAP_PERMITTED → Within pr.caps_effective caps) ∧
    (cap_type = CAP_BOUNDING → Within pr.caps_permitted caps)
  deriving Decidable

/-- A call of `cap_set` that succeeds keeps the sets inside the one it changes. -/
def Inside (s : CapSys) : Act → Prop
  | .cap_set cur pid cap_type caps =>
    (cap_set s cur pid cap_type caps).1 = 0 → ∀ q ∈ s.find pid, Keeps (s.proc q) cap_type caps
  | _ => True

instance (s : CapSys) : DecidablePred (Inside s) := fun a => by
  cases a <;> dsimp only [Inside] <;> infer_instance

variable {s t : CapSys} {p q : ProcId} {pr : CProc}

variable {cap_type pid : Int} {caps : BitVec 32} {f : CProc → CProc} {cur : ProcId}
  {trapframes pagetable copied : Bool}

theorem capSet_nested (h0 : 0 ≤ cap_type) (h3 : cap_type ≤ CAP_BOUNDING) (h : pr.Nested) :
    (pr.capSet cap_type caps).Nested ↔ Keeps pr cap_type caps := by
  obtain ⟨heff, hperm⟩ := h
  have hcases : cap_type = CAP_EFFECTIVE ∨ cap_type = CAP_PERMITTED ∨ cap_type = CAP_INHERITABLE ∨
      cap_type = CAP_BOUNDING := by
    simp only [CAP_EFFECTIVE, CAP_PERMITTED, CAP_INHERITABLE, CAP_BOUNDING] at h3 ⊢
    omega
  rcases hcases with rfl | rfl | rfl | rfl
  · simp [CProc.capSet, CProc.Nested, Keeps, and_within_right, hperm, CAP_EFFECTIVE, CAP_PERMITTED,
      CAP_BOUNDING]
  · simp [CProc.capSet, CProc.Nested, Keeps, within_and, and_within_right, heff.trans hperm,
      CAP_EFFECTIVE, CAP_PERMITTED, CAP_BOUNDING]
  · simp [CProc.capSet, CProc.Nested, Keeps, heff, hperm, CAP_EFFECTIVE, CAP_PERMITTED,
      CAP_INHERITABLE, CAP_BOUNDING]
  · simp [CProc.capSet, CProc.Nested, Keeps, within_and, heff, hperm, CAP_EFFECTIVE, CAP_PERMITTED,
      CAP_INHERITABLE, CAP_BOUNDING]

theorem cap_set_cases (s : CapSys) (cur : ProcId) (pid cap_type : Int) (caps : BitVec 32) :
    cap_set s cur pid cap_type caps = (-1, s) ∨
      ∃ q, s.find pid = some q ∧ 0 ≤ cap_type ∧ cap_type ≤ CAP_BOUNDING ∧
        cap_set s cur pid cap_type caps = (0, s.setProc q fun pr => pr.capSet cap_type caps) := by
  rw [cap_set]
  split
  · exact .inl rfl
  split
  · exact .inl rfl
  · cases hf : s.find pid with
    | none => exact .inl rfl
    | some q => exact .inr ⟨q, rfl, by omega, by omega, rfl⟩

theorem setProc_of_ne (h : q ≠ p) : (s.setProc p f).proc q = s.proc q :=
  update_of_ne h _ _

open CapSys

/-! What holds of every process holds after a step that keeps it for the process it changes. -/
section
variable {P : ProcId → CProc → Prop} (h : ∀ q, P q (s.proc q))
include h

theorem setProc_all (hf : P p (f (s.proc p))) : ∀ q, P q ((s.setProc p f).proc q) := by
  intro q
  by_cases hq : q = p
  · subst hq
    simpa [setProc] using hf
  · rw [setProc_of_ne hq]
    exact h q

theorem cap_set_all (hf : (cap_set s cur pid cap_type caps).1 = 0 → ∀ q ∈ s.find pid,
      0 ≤ cap_type → cap_type ≤ CAP_BOUNDING → P q ((s.proc q).capSet cap_type caps)) :
    ∀ q, P q ((cap_set s cur pid cap_type caps).2.proc q) := by
  rcases cap_set_cases s cur pid cap_type caps with heq | ⟨q, hq, h0, h3, heq⟩
  · rw [heq]
    exact h
  · rw [heq] at hf ⊢
    exact setProc_all (f := fun pr => pr.capSet cap_type caps) h (hf rfl q hq h0 h3)

theorem capChange_all {cap : Int} {g : BitVec 32 → BitVec 32}
    (hf : ∀ q caps, P q ((s.proc q).capSet CAP_EFFECTIVE caps)) :
    ∀ q, P q ((capChange s cur pid cap g).2.proc q) := by
  rw [capChange]
  split
  · exact h
  · split
    · exact h
    · exact cap_set_all h fun _ q _ _ _ => hf q _

end

theorem fresh_nested (pr : CProc) : pr.fresh.Nested := ⟨zero_within _, full_within.mpr rfl⟩

/-- What `allocproc` can do: fail with some free place changed, or give a free place fresh sets. -/
theorem allocproc_cases (s : CapSys) (trapframes pagetable : Bool) :
    allocproc s trapframes pagetable = (none, s) ∨
      ∃ np pr s', (s.proc np).state = .UNUSED ∧ ((s.proc np).Nested → pr.Nested) ∧
        s'.proc = update s.proc np pr ∧ (allocproc s trapframes pagetable = (none, s') ∨
          (∃ pr', pr = CProc.fresh pr') ∧ allocproc s trapframes pagetable = (some np, s')) := by
  rw [allocproc]
  split
  · exact .inl rfl
  rename_i np hfind
  have hfree : (s.proc np).state = .UNUSED := by simpa using List.find?_some hfind
  let pr : CProc := { s.proc np with pid := s.nextpid }
  refine .inr ⟨np, ?_⟩
  cases trapframes with
  | false => exact ⟨pr, _, hfree, id, rfl, .inl rfl⟩
  | true =>
    cases pagetable with
    | false =>
      refine ⟨{ pr.fresh with pid := 0, state := .UNUSED }, _, hfree, fun _ => fresh_nested pr, ?_,
        .inl rfl⟩
      simp [freeproc, setProc, pr]
    | true =>
      refine ⟨pr.fresh, _, hfree, fun _ => fresh_nested pr, ?_, .inr ⟨⟨pr, rfl⟩, rfl⟩⟩
      simp [setProc, pr]

/-- The sets of a child do not depend on those of its parent. -/
structure Born (s : CapSys) (c : ProcId) (t : CapSys) : Prop where
  free : (s.proc c).state = .UNUSED
  state : (t.proc c).state = .RUNNABLE
  bounding : (t.proc c).caps_bounding = 0xFFFFFFFF
  permitted : (t.proc c).caps_permitted = 0xFFFFFFFF
  effective : (t.proc c).caps_effective = 0
  others : ∀ q, q ≠ c → t.proc q = s.proc q

/-- What `fork` can do: change at most a free place, or make a child there. -/
theorem fork_cases (s : CapSys) (p : ProcId) (trapframes pagetable copied : Bool) :
    (∃ t, fork s p trapframes pagetable copied = (none, t) ∧ ∀ q, t.proc q = s.proc q ∨
        (s.proc q).state = .UNUSED ∧ ((s.proc q).Nested → (t.proc q).Nested)) ∨
      ∃ c t, fork s p trapframes pagetable copied = (some c, t) ∧ Born s c t := by
  rw [fork]
  rcases allocproc_cases s trapframes pagetable with heq | ⟨np, pr, s', hfree, hn, hs', heq⟩
  · rw [heq]
    exact .inl ⟨s, rfl, fun q => .inl rfl⟩
  rcases heq with heq | ⟨⟨pr', rfl⟩, heq⟩
  · rw [heq]
    refine .inl ⟨s', rfl, fun q => ?_⟩
    rw [hs']
    by_cases hq : q = np
    · subst hq
      rw [update_self]
      exact .inr ⟨hfree, hn⟩
    · exact .inl (update_of_ne hq _ _)
  rw [heq]
  dsimp only
  split
  · refine .inr ⟨np, _, rfl, hfree, ?_, ?_, ?_, ?_, ?_⟩
    · simp [setProc]
    · simp [setProc, hs', CProc.fresh]
    · simp [setProc, hs', CProc.fresh]
    · simp [setProc, hs', CProc.fresh]
    · intro q hq
      simp [setProc, hq, hs']
  · refine .inl ⟨_, rfl, fun q => ?_⟩
    by_cases hq : q = np
    · subst hq
      simp only [freeproc, setProc, hs', update_self]
      exact .inr ⟨hfree, hn⟩
    · left
      simp [freeproc, setProc, hq, hs']

theorem fork_nested (h : ∀ q, (s.proc q).Nested) :
    ∀ q, ((fork s p trapframes pagetable copied).2.proc q).Nested := by
  intro q
  rcases fork_cases s p trapframes pagetable copied with ⟨t, heq, hsame⟩ | ⟨c, t, heq, hborn⟩
  · rw [heq]
    rcases hsame q with hq | ⟨-, hn⟩
    · exact hq ▸ h q
    · exact hn (h q)
  · rw [heq]
    by_cases hq : q = c
    · subst hq
      rw [CProc.Nested, hborn.bounding, hborn.permitted, hborn.effective]
      decide
    · rw [hborn.others q hq]
      exact h q

theorem next_nested {a : Act} (h : ∀ q, (s.proc q).Nested) (hk : Inside s a) :
    ∀ q, ((s.next a).proc q).Nested := by
  have heff : ∀ q caps, ((s.proc q).capSet CAP_EFFECTIVE caps).Nested :=
    fun q caps => ⟨and_within_right _ _, (h q).2⟩
  cases a with
  | cap_set cur pid cap_type caps =>
    exact cap_set_all h fun h' q hq h0 h3 => (capSet_nested h0 h3 (h q)).mpr (hk h' q hq)
  | cap_raise cur pid cap => exact capChange_all h heff
  | cap_drop cur pid cap => exact capChange_all h heff
  | cap_exec_init p =>
    rw [next, cap_exec_init]
    refine setProc_all h ?_
    exact ⟨and_within_left _ _, (h p).2⟩
  | cap_fork_init child parent =>
    refine setProc_all h ?_
    refine ⟨within_and.mpr ⟨and_within_left _ _, ?_⟩, and_within_right _ _⟩
    exact (and_within_right _ _).trans (h parent).2
  | fork p trapframes pagetable copied => exact fork_nested h
  | exit p =>
    rw [next]
    refine setProc_all h ?_
    exact h p
  | wait q =>
    rw [next]
    split
    · refine setProc_all h ?_
      exact h q
    · exact h

/-- What `cap_check` grants to a process that is not root is in its effective set. -/
theorem effective_of_cap_check {cap : Int} (hq : s.find pid = some q) (hu : (s.proc q).uid ≠ 0)
    (h : cap_check s pid cap = true) : (s.proc q).caps_effective.getLsbD cap.toNat = true := by
  rw [cap_check] at h
  split at h
  · cases h
  · rw [hq] at h
    simp only [if_neg hu] at h
    exact getLsbD_of_and_bit h

/-- While `cap_set` keeps the inner sets inside, the sets of every process are nested, and
`cap_check` grants to a process that is not root what is permitted to it and within its bounds. -/
theorem capabilities_nested {as : List Act} (h : Run (Guarded Inside CapSys.Steps) s as t)
    (hs : ∀ q, (s.proc q).Nested) :
    (∀ q, (t.proc q).Nested) ∧ ∀ pid cap q, t.find pid = some q → (t.proc q).uid ≠ 0 →
      cap_check t pid cap = true → (t.proc q).caps_permitted.getLsbD cap.toNat = true ∧
        (t.proc q).caps_bounding.getLsbD cap.toNat = true := by
  have hstep : ∀ u a v, Guarded Inside CapSys.Steps u a v → (∀ q, (u.proc q).Nested) →
      ∀ q, (v.proc q).Nested := by
    rintro u a v ⟨hk, rfl⟩ hu
    exact next_nested hu hk
  have ht := h.invariant hstep hs
  refine ⟨ht, ?_⟩
  intro pid cap q hq hu hc
  have hperm := within_iff.mp (ht q).1 _ (effective_of_cap_check hq hu hc)
  exact ⟨hperm, within_iff.mp (ht q).2 _ hperm⟩

/-- A second process of user 1000 with one capability of its own. -/
def guest : CProc := ⟨.RUNNABLE, 2, 1000, 0x10, 0x30, 0, 0x30⟩

def CapSys.withGuest : CapSys := CapSys.boot.setProc 1 fun _ => guest

theorem withGuest_nested : ∀ q, (withGuest.proc q).Nested := by
  refine setProc_all (fun q => fresh_nested _) ?_
  decide

theorem capabilities_nested_guest :
    ∃ t, Run (Guarded Inside CapSys.Steps) CapSys.withGuest
        [.cap_set 0 2 CAP_BOUNDING 0x70, .cap_raise 0 2 5, .cap_drop 0 2 4,
          .cap_set 0 2 CAP_PERMITTED 0x20] t ∧
      (∀ q, (t.proc q).Nested) ∧ cap_check t 2 4 = false ∧
        (t.proc 1).caps_permitted.getLsbD 5 = true := by
  obtain ⟨t, hrun, hfind, huid, hfive, hfour⟩ : ∃ t,
      [.cap_set 0 2 CAP_BOUNDING 0x70, .cap_raise 0 2 5, .cap_drop 0 2 4,
        .cap_set 0 2 CAP_PERMITTED 0x20].foldlM
        (fun s a => if Inside s a then some (s.next a) else none) withGuest = some t ∧
      t.find 2 = some 1 ∧ (t.proc 1).uid ≠ 0 ∧ cap_check t 2 5 = true ∧ cap_check t 2 4 = false := by
    decide +kernel
  have hsteps : Run (Guarded Inside CapSys.Steps) withGuest _ t :=
    (Run.of_foldlM hrun).mono fun _ _ _ hst => ⟨hst.1, (Option.some.inj hst.2).symm⟩
  have hall := capabilities_nested hsteps withGuest_nested
  exact ⟨t, hsteps, hall.1, hfour, (hall.2 2 5 1 hfind huid hfive).1⟩

/-- A capability that was taken from the permitted set still passes the check. -/
theorem removed_capability_passes :
    let t := CapSys.withGuest.next (.cap_set 0 2 CAP_PERMITTED 0x20)
    (∀ q, (CapSys.withGuest.proc q).Nested) ∧ ¬ (t.proc 1).Nested ∧
      (t.proc 1).caps_permitted.getLsbD 4 = false ∧ (t.proc 1).uid ≠ 0 ∧
      cap_check t 2 4 = true :=
  ⟨withGuest_nested, by decide, by decide, by decide, by decide⟩

/-! ### What a child gets -/

/-- The sets of a child are within those of its parent. -/
def Contained (child parent : CProc) : Prop :=
  Within child.caps_bounding parent.caps_bounding ∧
    Within child.caps_permitted parent.caps_permitted ∧
    Within child.caps_effective parent.caps_permitted

/-- The capability `i` is in none of the sets. -/
def CProc.Lacks (pr : CProc) (i : Nat) : Prop :=
  pr.caps_bounding.getLsbD i = false ∧ pr.caps_permitted.getLsbD i = false ∧
    pr.caps_effective.getLsbD i = false

/-- Nothing has been taken from the sets. -/
def CProc.Full (pr : CProc) : Prop :=
  pr.caps_bounding = 0xFFFFFFFF ∧ pr.caps_permitted = 0xFFFFFFFF
  deriving Decidable

theorem Born.contained_iff {c : ProcId} (h : Born s c t) : Contained (t.proc c) pr ↔ pr.Full := by
  rw [Contained, h.bounding, h.permitted, h.effective, full_within, full_within]
  exact ⟨fun hc => ⟨hc.1, hc.2.1⟩, fun hc => ⟨hc.1, hc.2, zero_within _⟩⟩

/-- The processes beside their generation: 0 for one chosen process, more for its descendants. -/
structure Family where
  sys : CapSys
  generation : ProcId → Option Nat

/-- The generations after a step. A child is one more than its parent; a process that is gone has
none. -/
def Family.after (x : Family) : Act → ProcId → Option Nat
  | .fork p trapframes pagetable copied =>
    match (fork x.sys p trapframes pagetable copied).1 with
    | none => x.generation
    | some c => update x.generation c ((x.generation p).map (· + 1))
  | .wait q =>
    if (x.sys.proc q).state = .ZOMBIE then update x.generation q none else x.generation
  | _ => x.generation

/-- Nothing in the kernel calls `cap_fork_init`. -/
def Family.next (x : Family) : Act → Option Family
  | .cap_fork_init _ _ => none
  | a => some ⟨x.sys.next a, x.after a⟩

def Family.Steps (x : Family) (a : Act) (y : Family) : Prop := x.next a = some y

/-- The process `p` by itself. -/
def Family.alone (s : CapSys) (p : ProcId) : Family :=
  ⟨s, update (fun _ => none) p (some 0)⟩

/-- A process that has a child has lost nothing. -/
def FullForks (x : Family) : Act → Prop
  | .fork p trapframes pagetable copied =>
    (fork x.sys p trapframes pagetable copied).1 ≠ none → (x.sys.proc p).Full
  | _ => True

instance (x : Family) : DecidablePred (FullForks x) := fun a => by
  cases a <;> dsimp only [FullForks] <;> infer_instance

/-- A process of generation `g` is the chosen one and is there without `i` in its bounding set. -/
def Lost (i : Nat) (g : Option Nat) (pr : CProc) : Prop :=
  ∀ n, g = some n → n = 0 ∧ pr.state ≠ .UNUSED ∧ pr.caps_bounding.getLsbD i = false

/-- The chosen process is there without `i` in its bounding set, and it has no descendants. -/
def Childless (i : Nat) (x : Family) : Prop := ∀ c, Lost i (x.generation c) (x.sys.proc c)

variable {i : Nat} {x y : Family} {a : Act}

theorem Lost.capSet {g : Option Nat} (h : Lost i g pr) : Lost i g (pr.capSet cap_type caps) := by
  rw [CProc.capSet]
  split
  · exact h
  · split
    · exact h
    · split
      · exact h
      · exact fun n hn => ⟨(h n hn).1, (h n hn).2.1, by simp [(h n hn).2.2]⟩

theorem childless_fork (hi : i < 32) (h : Childless i x)
    (hg : FullForks x (.fork p trapframes pagetable copied)) :
    Childless i ⟨(fork x.sys p trapframes pagetable copied).2,
      x.after (.fork p trapframes pagetable copied)⟩ := by
  rw [Family.after]
  rcases fork_cases x.sys p trapframes pagetable copied with ⟨t, heq, hsame⟩ | ⟨c, t, heq, hborn⟩
  · rw [heq]
    intro d n hd
    obtain ⟨hn, hstate, hlack⟩ := h d n hd
    rw [(hsame d).resolve_right fun hq => hstate hq.1]
    exact ⟨hn, hstate, hlack⟩
  rw [FullForks, heq] at hg
  rw [heq]
  intro d n hd
  dsimp only at hd ⊢
  by_cases hdc : d = c
  · -- a parent that lost `i` has no child
    subst hdc
    rw [update_self, Option.map_eq_some_iff] at hd
    obtain ⟨m, hm, -⟩ := hd
    obtain ⟨-, -, hlack⟩ := h p m hm
    rw [(hg (by simp)).1, full_getLsbD hi] at hlack
    cases hlack
  · rw [update_of_ne hdc] at hd
    rw [hborn.others d hdc]
    exact h d n hd

theorem childless_wait (h : Childless i x) :
    Childless i ⟨x.sys.next (.wait q), x.after (.wait q)⟩ := by
  rw [Family.after, next]
  split
  · intro c n hc
    dsimp only at hc ⊢
    by_cases hcq : c = q
    · rw [hcq, update_self] at hc
      cases hc
    · rw [update_of_ne hcq] at hc
      rw [freeproc, setProc_of_ne hcq]
      exact h c n hc
  · exact h

theorem childless_step (hi : i < 32) (hst : Guarded FullForks Family.Steps x a y)
    (h : Childless i x) : Childless i y := by
  obtain ⟨hg, hnext⟩ := hst
  cases a <;> cases hnext
  case cap_set cur pid cap_type caps =>
    exact cap_set_all h fun _ q _ _ _ => (h q).capSet
  case cap_raise cur pid cap => exact capChange_all h fun q _ => (h q).capSet
  case cap_drop cur pid cap => exact capChange_all h fun q _ => (h q).capSet
  case cap_exec_init p =>
    refine setProc_all (f := fun pr =>
      { pr with caps_effective := pr.caps_permitted &&& pr.caps_inheritable }) h ?_
    exact h p
  case fork p trapframes pagetable copied => exact childless_fork hi h hg
  case exit p =>
    refine setProc_all (f := fun pr => { pr with state := .ZOMBIE }) h ?_
    exact fun n hn => ⟨(h p n hn).1, nofun, (h p n hn).2.2⟩
  case wait q => exact childless_wait h

theorem childless_alone (hstate : (s.proc p).state ≠ .UNUSED)
    (hlack : (s.proc p).caps_bounding.getLsbD i = false) : Childless i (.alone s p) := by
  intro c n hc
  simp only [Family.alone, update_apply] at hc
  split at hc
  · rename_i hcp
    cases hc
    exact ⟨rfl, hcp ▸ hstate, hcp ▸ hlack⟩
  · cases hc

/-- A child is within its parent exactly if the parent has all capabilities. If only such processes
have children, no descendant of a process that lost a capability has it. -/
theorem fork_keeps_within (s : CapSys) (p : ProcId) :
    (∀ trapframes pagetable copied c t, fork s p trapframes pagetable copied = (some c, t) →
      (Contained (t.proc c) (s.proc p) ↔ (s.proc p).Full)) ∧
    ∀ i < 32, (s.proc p).state ≠ .UNUSED → (s.proc p).caps_bounding.getLsbD i = false →
      ∀ as y, Run (Guarded FullForks Family.Steps) (.alone s p) as y →
        ∀ c n, y.generation c = some (n + 1) → (y.sys.proc c).Lacks i := by
  constructor
  · intro trapframes pagetable copied c t hfork
    rcases fork_cases s p trapframes pagetable copied with ⟨t', heq, -⟩ | ⟨c', t', heq, hborn⟩
    · rw [hfork] at heq
      cases heq
    · rw [hfork] at heq
      cases heq
      exact hborn.contained_iff
  · intro i hi hstate hlack as y hrun c n hc
    have hy := hrun.invariant (fun _ _ _ hst => childless_step hi hst)
      (childless_alone hstate hlack)
    exact absurd (hy c (n + 1) hc).1 (Nat.succ_ne_zero n)

/-- The guest loses capability 4, and the first process has a child. -/
def guestLoses : List Act :=
  [.fork 1 true true false, .fork 0 true true true, .cap_raise 0 2 5, .exit 2, .wait 2]

theorem fork_keeps_within_guest :
    (∃ t, fork CapSys.withGuest 0 true true true = (some 2, t) ∧
      Contained (t.proc 2) (CapSys.withGuest.proc 0)) ∧
    ∃ s y, s = CapSys.withGuest.next (.cap_set 0 2 CAP_BOUNDING 0x20) ∧
      Run (Guarded FullForks Family.Steps) (.alone s 1) guestLoses y ∧
        y.generation 1 = some 0 ∧
        ∀ c n, y.generation c = some (n + 1) → (y.sys.proc c).Lacks 4 := by
  refine ⟨⟨_, by rfl, ?_⟩, withGuest.next (.cap_set 0 2 CAP_BOUNDING 0x20), ?_⟩
  · exact ((fork_keeps_within withGuest 0).1 true true true _ _ rfl).mpr (by decide)
  · refine (Run.exists_foldlM).imp
      fun y ⟨hrun, hgen⟩ => ⟨rfl, hrun, hgen, ?_⟩
    exact (fork_keeps_within _ 1).2 4 (by decide) (by decide) (by decide) guestLoses y hrun

/-- The first process takes capability 4 from its bounding set; its child has it again. -/
theorem child_regains_capability :
    let s := CapSys.boot.next (.cap_set 0 1 CAP_BOUNDING 0xFFFFFFEF)
    (s.proc 0).caps_bounding.getLsbD 4 = false ∧ (fork s 0 true true true).1 = some 1 ∧
      ((fork s 0 true true true).2.proc 1).caps_bounding.getLsbD 4 = true ∧
      ((fork s 0 true true true).2.proc 1).caps_permitted.getLsbD 4 = true := by
  decide +kernel

end Yyds.Capability
