import Yyds.Ipc.Procs

/-! How long the queues of `messagequeue.c` live: `mqget`, `fork`, `exec`, `exit`, `wait` and
`waitpid`. In `messagequeue.c` the name `proc` is the process table, so `proc->mqmask` is the mask
of the first process, whoever calls. -/
namespace Yyds.Mq

open Lib Ipc Function Procs
open Mm (ProcId)
open Kernel (int)

def MQMAX : Nat := 8

instance : NeZero MQMAX := ⟨by decide⟩

/-- `struct mq`; the messages are left out. -/
structure Queue where
  key : BitVec 32
  status : Bool
  refcount : Int

/-- The processes with their masks, the queues, and how often the page of each queue was freed. -/
structure MqSys where
  procs : Procs (BitVec 32)
  mqs : Fin MQMAX → Queue
  freed : Fin MQMAX → Nat

def MqSys.boot : MqSys := ⟨.boot 0, fun _ => ⟨0, false, 0⟩, fun _ => 0⟩

def MqSys.setMask (s : MqSys) (p : ProcId) (mask : BitVec 32) : MqSys :=
  { s with procs := s.procs.setOwn p mask }

def MqSys.setMq (s : MqSys) (i : Fin MQMAX) (m : Queue) : MqSys :=
  { s with mqs := update s.mqs i m }

/-! ### The queues -/

def findkey (s : MqSys) (key : BitVec 32) : Option (Fin MQMAX) :=
  (List.finRange MQMAX).find? fun i => (s.mqs i).status ∧ (s.mqs i).key = key

/-- `page`: there is a page for the messages. -/
def newmq (s : MqSys) (key : BitVec 32) (page : Bool) : Int × MqSys :=
  match (List.finRange MQMAX).find? fun i => !(s.mqs i).status with
  | none => (-1, s)
  | some idx =>
    if page then
      (idx.val, (s.setMq idx ⟨key, true, 1⟩).setMask 0
        ((s.procs.proc 0).own ||| 1#32 <<< idx.val))
    else (-1, s)

def addmqcount (s : MqSys) (mask : BitVec 32) : MqSys :=
  { s with mqs := fun i =>
      if bit i mask then { s.mqs i with refcount := int ((s.mqs i).refcount + 1) } else s.mqs i }

def sys_mqget (s : MqSys) (key : BitVec 32) (page : Bool) : Int × MqSys :=
  match findkey s key with
  | none => newmq s key page
  | some idx =>
    if bit idx (s.procs.proc 0).own then (idx.val, s)
    else
      (idx.val,
        (s.setMq idx { s.mqs idx with refcount := int ((s.mqs idx).refcount + 1) }).setMask 0
          ((s.procs.proc 0).own ||| 1#32 <<< idx.val))

def rmmq (s : MqSys) (i : Fin MQMAX) : MqSys :=
  { s.setMq i { s.mqs i with status := false } with
    freed := update s.freed i (s.freed i + 1) }

/-- One process less uses queue `i`. -/
def dropmq (s : MqSys) (i : Fin MQMAX) : MqSys :=
  let s := s.setMq i { s.mqs i with refcount := int ((s.mqs i).refcount - 1) }
  if (s.mqs i).refcount = 0 then rmmq s i else s

/-- The queue with this key; `exec` calls it with the mask of the process. -/
def releasemq (s : MqSys) (key : BitVec 32) : MqSys :=
  match findkey s key with
  | none => s
  | some idx => dropmq s idx

/-- The queues in the mask. -/
def releasemq2 (s : MqSys) (mask : BitVec 32) : MqSys :=
  (List.finRange MQMAX).foldl (fun s i => if bit i mask then dropmq s i else s) s

/-! ### Processes -/

/-- The result is the new process. -/
def fork (s : MqSys) (p : ProcId) (trapframes pagetable copied : Bool) : Option ProcId × MqSys :=
  match s.procs.allocproc 0 trapframes pagetable with
  | (none, procs) => (none, { s with procs })
  | (some np, procs) =>
    if copied then
      let mask := (procs.proc p).own
      let s := addmqcount { s with procs } mask
      let child := { procs.proc np with state := .RUNNABLE, parent := some p, own := mask }
      (some np, { s with procs := procs.set np child })
    else (none, { s with procs := procs.freeproc np })

/-- `exec` once the new image is there. -/
def execCommit (s : MqSys) (p : ProcId) : MqSys :=
  (releasemq s (s.procs.proc p).own).setMask p 0

/-- `copied`: the exit status can be copied to the parent. The result is the child that is gone. -/
def wait (s : MqSys) (p : ProcId) (copied : Bool) : Option ProcId × MqSys :=
  match s.procs.zombie p (-1) with
  | none => (none, s)
  | some np =>
    let s := (releasemq2 s (s.procs.proc np).own).setMask np 0
    if copied then (some np, { s with procs := s.procs.freeproc np }) else (none, s)

/-- It does not release the queues. -/
def waitpid (s : MqSys) (p : ProcId) (pid : Int) (copied : Bool) : Option ProcId × MqSys :=
  match s.procs.zombie p pid with
  | none => (none, s)
  | some np =>
    if copied then (some np, { s with procs := s.procs.freeproc np }) else (none, s)

inductive Act
  | mqget (p : ProcId) (key : BitVec 32) (page : Bool)
  | fork (p : ProcId) (trapframes pagetable copied : Bool)
  | exec (p : ProcId)
  | exit (p : ProcId)
  | wait (p : ProcId) (copied : Bool)
  | waitpid (p : ProcId) (pid : Int) (copied : Bool)

/-- The process that makes a call. -/
def Act.caller : Act → ProcId
  | .mqget p _ _ | .fork p _ _ _ | .exec p | .exit p | .wait p _ | .waitpid p _ _ => p

def MqSys.exec (s : MqSys) : Act → Option MqSys
  | .mqget _ key page => some (sys_mqget s key page).2
  | .fork p trapframes pagetable copied => some (Mq.fork s p trapframes pagetable copied).2
  | .exec p => some (execCommit s p)
  -- panic("init exiting")
  | .exit p => if p = 0 then none else some { s with procs := s.procs.exit p }
  | .wait p copied => some (Mq.wait s p copied).2
  | .waitpid p pid copied => some (Mq.waitpid s p pid copied).2

def MqSys.next (s : MqSys) (a : Act) : Option MqSys :=
  if s.procs.Active a.caller then s.exec a else none

def MqSys.Steps (s : MqSys) (a : Act) (t : MqSys) : Prop := s.next a = some t

/-! ### When the counts are right -/

/-- How many processes use queue `i`. -/
def MqSys.users (s : MqSys) (i : Fin MQMAX) : Nat := s.procs.count (bit i)

/-- `exec` finds by its mask as a key just the queues in the mask, and `waitpid` takes no child that
uses a queue. -/
def Careful (s : MqSys) : Act → Prop
  | .exec p => ∀ i, bit i (s.procs.proc p).own = true ↔ findkey s (s.procs.proc p).own = some i
  | .waitpid p pid copied =>
    copied = true → (s.procs.zombie p pid).all fun np => (s.procs.proc np).own = 0
  | _ => True

instance (s : MqSys) : DecidablePred (Careful s) := fun a => by
  cases a <;> dsimp only [Careful] <;> infer_instance

/-- A queue in use has as many references as users, and at least one; the others have no user. -/
structure Counted (s : MqSys) : Prop where
  init : s.procs.Active 0
  used : ∀ i, (s.mqs i).status = true → (s.mqs i).refcount = s.users i ∧ 0 < s.users i
  unused : ∀ i, (s.mqs i).status = false → s.users i = 0

/-- `wait` and `waitpid` take the same child and leave the same queues. -/
def SameReaping (s : MqSys) (p : ProcId) (pid : Int) : Prop :=
  s.procs.zombie p pid = s.procs.zombie p (-1) →
    (wait s p true).2.mqs = (waitpid s p pid true).2.mqs ∧
      (wait s p true).2.freed = (waitpid s p pid true).2.freed

/-- From `s` to `t` the page of a queue is freed if it loses its last user, and only then. -/
def FreedAtZero (s t : MqSys) : Prop :=
  ∀ i, t.freed i = s.freed i + if s.users i ≠ 0 ∧ t.users i = 0 then 1 else 0

/-! ### Queues that lose a user -/

/-- A queue after it has lost a user. -/
def Queue.dropped (m : Queue) : Queue :=
  { m with
    refcount := int (m.refcount - 1)
    status := if int (m.refcount - 1) = 0 then false else m.status }

/-- The queues of `B` have each lost a user. -/
structure Drops (B : Fin MQMAX → Bool) (s t : MqSys) : Prop where
  procs : t.procs = s.procs
  mqs : ∀ i, t.mqs i = if B i then (s.mqs i).dropped else s.mqs i
  freed : ∀ i, t.freed i =
    s.freed i + if B i = true ∧ int ((s.mqs i).refcount - 1) = 0 then 1 else 0

section Drop

variable {s t : MqSys} {p : ProcId} {B : Fin MQMAX → Bool}

theorem dropmq_drops (s : MqSys) (i : Fin MQMAX) :
    Drops (fun j => decide (j = i)) s (dropmq s i) := by
  by_cases h0 : int ((s.mqs i).refcount - 1) = 0
  all_goals
    constructor
    · simp [dropmq, MqSys.setMq, h0, rmmq]
    · intro j
      by_cases hj : j = i
      · subst hj
        simp [dropmq, MqSys.setMq, h0, rmmq, Queue.dropped]
      · simp [dropmq, MqSys.setMq, h0, rmmq, hj]
    · intro j
      by_cases hj : j = i
      · subst hj
        simp [dropmq, MqSys.setMq, h0, rmmq]
      · simp [dropmq, MqSys.setMq, h0, rmmq, hj]

theorem drops_none (hB : ∀ i, B i = false) : Drops B s s := by
  constructor
  · rfl
  · simp [hB]
  · simp [hB]

/-- Different queues lose their users one after the other. -/
theorem Drops.trans {C : Fin MQMAX → Bool} {u : MqSys} (h : Drops B s t) (h' : Drops C t u)
    (hBC : ∀ i, B i = true → C i = false) : Drops (fun i => B i || C i) s u := by
  constructor
  · rw [h'.procs, h.procs]
  · intro i
    rw [h'.mqs, h.mqs]
    by_cases hb : B i = true
    · simp [hb, hBC i hb]
    · simp [hb]
  · intro i
    rw [h'.freed, h.freed, h.mqs]
    by_cases hb : B i = true
    · simp [hb, hBC i hb]
    · simp [hb]

theorem foldl_drops (mask : BitVec 32) (l : List (Fin MQMAX)) (hl : l.Nodup) (s : MqSys) :
    Drops (fun i => decide (i ∈ l) && bit i mask) s
      (l.foldl (fun s i => if bit i mask then dropmq s i else s) s) := by
  induction l generalizing s with
  | nil => exact drops_none fun i => by simp
  | cons j l ih =>
    obtain ⟨hj, hl⟩ := List.nodup_cons.mp hl
    have hone : Drops (fun i => decide (i = j) && bit i mask) s
        (if bit j mask then dropmq s j else s) := by
      by_cases hb : bit j mask = true
      · have he : (fun i => decide (i = j) && bit i mask) = fun i => decide (i = j) := by
          funext i
          by_cases hi : i = j
          · subst hi
            simp [hb]
          · simp [hi]
        rw [if_pos hb, he]
        exact dropmq_drops s j
      · rw [if_neg hb]
        refine drops_none fun i => ?_
        by_cases hi : i = j
        · subst hi
          simp [hb]
        · simp [hi]
    have hall := hone.trans (ih hl _) fun i hi => by
      simp only [Bool.and_eq_true, decide_eq_true_eq] at hi
      simp [hi.1, hj]
    have he : (fun i => decide (i ∈ j :: l) && bit i mask) =
        fun i => (decide (i = j) && bit i mask) || (decide (i ∈ l) && bit i mask) := by
      funext i
      by_cases hi : i = j <;> by_cases hm : i ∈ l <;> simp [hi, hm]
    rw [he]
    exact hall

theorem releasemq2_drops (s : MqSys) (mask : BitVec 32) :
    Drops (fun i => bit i mask) s (releasemq2 s mask) := by
  have h := foldl_drops mask (List.finRange MQMAX) (List.nodup_finRange _) s
  simp only [List.mem_finRange, decide_true, Bool.true_and] at h
  exact h

theorem releasemq_drops (s : MqSys) (key : BitVec 32) :
    Drops (fun i => decide (findkey s key = some i)) s (releasemq s key) := by
  unfold releasemq
  cases hf : findkey s key with
  | none => exact drops_none fun i => by simp
  | some idx =>
    have he : (fun i => decide (some idx = some i)) = fun i => decide (i = idx) := by
      funext i
      simp [eq_comm]
    rw [he]
    exact dropmq_drops s idx

theorem Counted.pred (h : Counted s) {i : Fin MQMAX} (hi : (s.mqs i).status = true) :
    int ((s.mqs i).refcount - 1) = s.users i - 1 := by
  rw [(h.used i hi).1]
  exact s.procs.int_count_pred _

theorem Counted.drop (h : Counted s) (hd : Drops B s t)
    (hp : (s.procs.proc p).state ≠ .UNUSED) (hB : ∀ i, B i = bit i (s.procs.proc p).own) :
    Counted (t.setMask p 0) ∧ FreedAtZero s (t.setMask p 0) := by
  have husers : ∀ i, (t.setMask p 0).users i +
      (if bit i (s.procs.proc p).own = true then 1 else 0) = s.users i := by
    intro i
    have hsame : t.users i = s.users i := by rw [MqSys.users, hd.procs, MqSys.users]
    have hu := t.procs.count_setOwn (C := bit i) (by rw [hd.procs]; exact hp) 0
    have hzero : ¬ bit i 0 = true := by
      rw [bit_zero]
      exact Bool.false_ne_true
    rw [if_neg hzero] at hu
    rw [← hd.procs, ← hsame]
    exact hu
  refine ⟨⟨active_setOwn (by rw [hd.procs]; exact h.init) _ _, ?_, ?_⟩, ?_⟩
  · intro i hi
    have hu := husers i
    change (t.mqs i).status = true at hi
    change (t.mqs i).refcount = _ ∧ _
    rw [hd.mqs] at hi ⊢
    by_cases hb : B i = true
    · rw [if_pos hb, Queue.dropped] at hi ⊢
      rw [hB] at hb
      rw [if_pos hb] at hu
      dsimp only at hi ⊢
      split at hi
      · cases hi
      · have href := h.pred hi
        omega
    · rw [if_neg hb] at hi ⊢
      rw [hB] at hb
      rw [if_neg hb] at hu
      obtain ⟨href, hpos⟩ := h.used i hi
      omega
  · intro i hi
    have hu := husers i
    change (t.mqs i).status = false at hi
    rw [hd.mqs] at hi
    by_cases hb : B i = true
    · rw [if_pos hb, Queue.dropped] at hi
      rw [hB] at hb
      rw [if_pos hb] at hu
      split at hi
      · by_cases hst : (s.mqs i).status = true
        · have href := h.pred hst
          omega
        · have hzero := h.unused i (by simpa using hst)
          omega
      · have hzero := h.unused i hi
        omega
    · rw [if_neg hb] at hi
      have hzero := h.unused i hi
      omega
  · intro i
    have hu := husers i
    change t.freed i = _
    rw [hd.freed]
    by_cases hb : B i = true
    · have hb' := hb
      rw [hB] at hb'
      rw [if_pos hb'] at hu
      have hst : (s.mqs i).status = true := by
        by_contra hst
        have hzero := h.unused i (by simpa using hst)
        omega
      have href := h.pred hst
      have hiff : (B i = true ∧ int ((s.mqs i).refcount - 1) = 0) ↔
          (s.users i ≠ 0 ∧ (t.setMask p 0).users i = 0) := by
        constructor
        · omega
        · intro hc
          refine ⟨hb, ?_⟩
          omega
      simp only [hiff]
    · have hb' := hb
      rw [hB] at hb'
      rw [if_neg hb'] at hu
      have hno : ¬ (s.users i ≠ 0 ∧ (t.setMask p 0).users i = 0) := by omega
      rw [if_neg hno, if_neg fun hc => hb hc.1]

end Drop

/-! ### The calls -/

section Calls

variable {s t : MqSys} {p : ProcId}

theorem freedAtZero_of_le (hfreed : t.freed = s.freed) (hle : ∀ i, s.users i ≤ t.users i) :
    FreedAtZero s t := by
  intro i
  have h := hle i
  rw [hfreed, if_neg (by omega)]
  rfl

section
variable (h : Counted s)
include h

/-- The processes change, but not the users of any queue. -/
theorem Counted.same (hinit : t.procs.Active 0) (hmqs : t.mqs = s.mqs)
    (hfreed : t.freed = s.freed) (husers : ∀ i, t.users i = s.users i) :
    Counted t ∧ FreedAtZero s t := by
  refine ⟨⟨hinit, ?_, ?_⟩, freedAtZero_of_le hfreed fun i => (husers i).ge⟩
  · intro i hi
    rw [hmqs] at hi ⊢
    rw [husers]
    exact h.used i hi
  · intro i hi
    rw [hmqs] at hi
    rw [husers]
    exact h.unused i hi

/-- The first process gets a bit that it does not have, and the queue one reference more. -/
theorem Counted.attach {idx : Fin MQMAX} {m : Queue} (hbit : bit idx (s.procs.proc 0).own = false)
    (hm : m.status = true) (href : m.refcount = s.users idx + 1) :
    let t := (s.setMq idx m).setMask 0 ((s.procs.proc 0).own ||| 1#32 <<< idx.val)
    Counted t ∧ FreedAtZero s t := by
  intro t
  have husers : ∀ i, t.users i = s.users i + if i = idx then 1 else 0 := by
    intro i
    have hu := s.procs.count_setOwn (C := bit i) h.init.1
      ((s.procs.proc 0).own ||| 1#32 <<< idx.val)
    change t.users i + (if bit i (s.procs.proc 0).own = true then 1 else 0) = s.users i + _ at hu
    rw [bit_or (by decide)] at hu
    by_cases hi : i = idx
    · subst hi
      simpa [hbit] using hu
    · by_cases hb : bit i (s.procs.proc 0).own = true
      · simpa [hb, hi] using hu
      · simpa [hb, hi] using hu
  have hmqs : t.mqs = update s.mqs idx m := rfl
  refine ⟨⟨active_setOwn h.init _ _, ?_, ?_⟩, freedAtZero_of_le rfl fun i => ?_⟩
  · intro i hi
    rw [hmqs] at hi ⊢
    rw [husers]
    by_cases he : i = idx
    · subst he
      rw [update_self, if_pos rfl]
      omega
    · rw [update_of_ne he] at hi ⊢
      rw [if_neg he]
      exact h.used i hi
  · intro i hi
    rw [hmqs] at hi
    by_cases he : i = idx
    · subst he
      rw [update_self, hm] at hi
      cases hi
    · rw [update_of_ne he] at hi
      rw [husers, if_neg he]
      exact h.unused i hi
  · have := husers i
    omega

theorem Counted.mqget (key : BitVec 32) (page : Bool) :
    Counted (sys_mqget s key page).2 ∧ FreedAtZero s (sys_mqget s key page).2 := by
  have hsame : Counted s ∧ FreedAtZero s s := h.same h.init rfl rfl fun _ => rfl
  unfold sys_mqget
  cases hf : findkey s key with
  | some idx =>
    dsimp only
    have hst : (s.mqs idx).status = true := by
      have hfound := List.find?_some hf
      simp only [decide_eq_true_eq] at hfound
      exact hfound.1
    split
    · exact hsame
    rename_i hb
    refine h.attach
      (by simpa using hb) hst ?_
    dsimp only
    rw [(h.used idx hst).1]
    exact s.procs.int_count_succ _
  | none =>
    dsimp only
    unfold newmq
    split
    · exact hsame
    rename_i idx hidx
    split
    · have hst : (s.mqs idx).status = false := by simpa using List.find?_some hidx
      have hzero := h.unused idx hst
      have hbit : bit idx (s.procs.proc 0).own = false := by
        by_contra hb
        have hpos : 0 < s.users idx :=
          refs_pos (x := (0 : ProcId)) (Entry.holder_iff.mpr ⟨h.init.1, by simpa using hb⟩)
        omega
      refine h.attach hbit rfl ?_
      rw [hzero]
      rfl
    · exact hsame

theorem Counted.exec (hp : s.procs.Active p) (hc : Careful s (.exec p)) :
    Counted (execCommit s p) ∧ FreedAtZero s (execCommit s p) := by
  refine h.drop (releasemq_drops s _) hp.1 fun i => ?_
  have hi := hc i
  rw [Bool.eq_iff_iff, decide_eq_true_eq]
  exact hi.symm

theorem Counted.exit (hp : s.procs.Active p) (h0 : p ≠ 0) :
    Counted { s with procs := s.procs.exit p } ∧
      FreedAtZero s { s with procs := s.procs.exit p } := by
  exact h.same (active_exit h.init (Ne.symm h0)) rfl rfl fun i => count_exit hp

theorem Counted.freeproc {np : ProcId} (hz : (s.procs.proc np).state = .ZOMBIE)
    (hown : (s.procs.proc np).own = 0) : Counted { s with procs := s.procs.freeproc np } ∧
      FreedAtZero s { s with procs := s.procs.freeproc np } := by
  have hne : (0 : ProcId) ≠ np := by
    rintro rfl
    exact h.init.2 hz
  refine h.same (active_of_eq h.init (set_of_ne hne)) rfl rfl fun i => ?_
  apply count_freeproc
  rw [hown, bit_zero]

end

theorem FreedAtZero.trans_same {u : MqSys} (h : FreedAtZero s t) (hfreed : u.freed = t.freed)
    (husers : ∀ i, u.users i = t.users i) : FreedAtZero s u := by
  intro i
  rw [hfreed, husers]
  exact h i

theorem Counted.wait (h : Counted s) (p : ProcId) (copied : Bool) :
    Counted (wait s p copied).2 ∧ FreedAtZero s (wait s p copied).2 := by
  unfold Mq.wait
  split
  · exact h.same h.init rfl rfl fun _ => rfl
  rename_i np hnp
  have hz := zombie_some hnp
  have hd := releasemq2_drops s (s.procs.proc np).own
  obtain ⟨hc, hf⟩ := h.drop hd (by rw [hz]; nofun) fun _ => rfl
  split
  · have hz' : (((releasemq2 s (s.procs.proc np).own).setMask np 0).procs.proc np).state =
        .ZOMBIE := by
      simp [MqSys.setMask, setOwn, Procs.set, hd.procs, hz]
    have hown : (((releasemq2 s (s.procs.proc np).own).setMask np 0).procs.proc np).own = 0 := by
      simp [MqSys.setMask, setOwn, Procs.set]
    refine ⟨(hc.freeproc hz' hown).1, hf.trans_same rfl fun i => ?_⟩
    apply count_freeproc
    rw [hown, bit_zero]
  · exact ⟨hc, hf⟩

theorem Counted.waitpid (h : Counted s) {pid : Int} {copied : Bool}
    (hc : Careful s (.waitpid p pid copied)) :
    Counted (waitpid s p pid copied).2 ∧ FreedAtZero s (waitpid s p pid copied).2 := by
  unfold Mq.waitpid
  split
  · exact h.same h.init rfl rfl fun _ => rfl
  rename_i np hnp
  split
  · rename_i hcopied
    have hown := hc hcopied
    rw [hnp, Option.all_some, decide_eq_true_eq] at hown
    exact h.freeproc (zombie_some hnp) hown
  · exact h.same h.init rfl rfl fun _ => rfl

theorem addmqcount_mqs (s : MqSys) (mask : BitVec 32) (i : Fin MQMAX) :
    ((addmqcount s mask).mqs i).status = (s.mqs i).status ∧
      ((addmqcount s mask).mqs i).refcount =
        if bit i mask = true then int ((s.mqs i).refcount + 1) else (s.mqs i).refcount := by
  by_cases hb : bit i mask = true
  · simp [addmqcount, hb]
  · simp [addmqcount, hb]

/-- A process that is not there yet gets the mask of one that is. -/
theorem Counted.share (h : Counted s) {np : ProcId} {e : Entry (BitVec 32)}
    (hp : s.procs.Active p) (hnp : (s.procs.proc np).state = .UNUSED) (he : e.state ≠ .UNUSED)
    (hown : e.own = (s.procs.proc p).own) :
    let t := { addmqcount s (s.procs.proc p).own with procs := s.procs.set np e }
    Counted t ∧ FreedAtZero s t := by
  intro t
  have husers : ∀ i, t.users i =
      s.users i + if bit i (s.procs.proc p).own = true then 1 else 0 := by
    intro i
    rw [← hown]
    exact count_come hnp he
  have hmqs := addmqcount_mqs s (s.procs.proc p).own
  have hne : (0 : ProcId) ≠ np := by
    rintro rfl
    exact h.init.1 hnp
  refine ⟨⟨active_of_eq h.init (set_of_ne hne), ?_, ?_⟩,
    freedAtZero_of_le rfl fun i => by rw [husers]; exact Nat.le_add_right _ _⟩
  · intro i hi
    rw [(hmqs i).1] at hi
    obtain ⟨href, hpos⟩ := h.used i hi
    rw [(hmqs i).2, husers, href]
    refine ⟨?_, by omega⟩
    split
    · exact s.procs.int_count_succ _
    · rfl
  · intro i hi
    rw [(hmqs i).1] at hi
    have hzero := h.unused i hi
    have hbit : ¬ bit i (s.procs.proc p).own = true := by
      intro hb
      have hpos : 0 < s.users i := refs_pos (x := p) (Entry.holder_iff.mpr ⟨hp.1, hb⟩)
      omega
    rw [husers, if_neg hbit, hzero]

theorem Counted.fork (h : Counted s) (hp : s.procs.Active p) (trapframes pagetable copied : Bool) :
    Counted (fork s p trapframes pagetable copied).2 ∧
      FreedAtZero s (fork s p trapframes pagetable copied).2 := by
  unfold Mq.fork
  split
  · rename_i procs halloc
    have ha := allocproc_spec halloc
    exact h.same (active_of_eq h.init (ha.same 0 h.init.1)) rfl rfl fun i => ha.count _
  rename_i np procs halloc
  have ha := allocproc_spec halloc
  obtain ⟨_, hun, _⟩ := ha.found np rfl
  have hinit := active_of_eq h.init (ha.same 0 h.init.1)
  obtain ⟨halloced, _⟩ := h.same (t := { s with procs }) hinit rfl rfl fun i => ha.count _
  split
  · obtain ⟨hc, hf⟩ := halloced.share (active_of_eq hp (ha.same p hp.1)) hun
      (e := { procs.proc np with
        state := .RUNNABLE, parent := some p, own := (procs.proc p).own }) nofun rfl
    refine ⟨hc, fun i => ?_⟩
    have husers : s.users i = MqSys.users { s with procs } i := (ha.count _).symm
    rw [husers]
    exact hf i
  · have hfree := ha.freeproc
    exact h.same (active_of_eq h.init (hfree.same 0 h.init.1)) rfl rfl fun i => hfree.count _

end Calls

/-! ### Runs -/

section Runs

variable {s t : MqSys} {a : Act}

theorem counted_boot : Counted MqSys.boot := by
  have hzero : ∀ i, MqSys.boot.users i = 0 := by
    intro i
    rw [MqSys.users, count, refs_eq_zero]
    intro p hp
    obtain ⟨_, hb⟩ := Entry.holder_iff.mp hp
    have hown : (MqSys.boot.procs.proc p).own = 0 := by
      simp only [MqSys.boot, boot]
      split <;> rfl
    rw [hown, bit_zero] at hb
    cases hb
  refine ⟨by decide, ?_, fun i _ => hzero i⟩
  rintro _ ⟨⟩

theorem Counted.next (h : Counted s) (hc : Careful s a) (hn : s.next a = some t) :
    Counted t ∧ FreedAtZero s t := by
  unfold MqSys.next at hn
  split at hn
  · rename_i hp
    cases a with
    | mqget p key page =>
      cases hn
      exact h.mqget key page
    | fork p trapframes pagetable copied =>
      cases hn
      exact h.fork hp trapframes pagetable copied
    | exec p =>
      cases hn
      exact h.exec hp hc
    | exit p =>
      simp only [MqSys.exec] at hn
      split at hn
      · cases hn
      · rename_i h0
        cases hn
        exact h.exit hp h0
    | wait p copied =>
      cases hn
      exact h.wait p copied
    | waitpid p pid copied =>
      cases hn
      exact h.waitpid hc
  · cases hn

theorem same_reaping {p : ProcId} {pid : Int} (hc : Careful s (.waitpid p pid true)) :
    SameReaping s p pid := by
  intro hsame
  have hown := hc rfl
  unfold Mq.wait Mq.waitpid
  rw [hsame] at hown ⊢
  cases hz : s.procs.zombie p (-1) with
  | none => exact ⟨rfl, rfl⟩
  | some np =>
    rw [hz, Option.all_some, decide_eq_true_eq] at hown
    dsimp only
    rw [hown]
    exact ⟨rfl, rfl⟩

/-- In every run of such calls the queues in use have the right counts, a queue with a user is in
use, its page is freed when the last user goes and at no other time, and it does not matter by which
call a child is reaped. -/
theorem mq_lifetime {as : List Act} (h : Run (Guarded Careful MqSys.Steps) MqSys.boot as s) :
    (∀ i, (s.mqs i).status = true → (s.mqs i).refcount = s.users i) ∧
      (∀ i, s.users i ≠ 0 → (s.mqs i).status = true) ∧
      (∀ a t, Careful s a → s.Steps a t → FreedAtZero s t) ∧
      ∀ p pid, Careful s (.waitpid p pid true) → SameReaping s p pid := by
  have hcounted : Counted s :=
    h.invariant (fun s a t hst hs => (hs.next hst.1 hst.2).1) counted_boot
  refine ⟨fun i hi => (hcounted.used i hi).1, fun i hi => ?_, ?_, fun p pid => same_reaping⟩
  · by_contra hst
    exact hi (hcounted.unused i (by simpa using hst))
  · intro a t hc hst
    exact (hcounted.next hc hst).2

/-- `init` opens a queue, its child shares and leaves it. -/
theorem mq_lifetime_child : ∃ s, Run (Guarded Careful MqSys.Steps) MqSys.boot
    [.mqget 0 5 true, .fork 0 true true true, .exit 1, .wait 0 true] s ∧
    ((s.mqs 0).status = true ∧ (s.mqs 0).refcount = 1) ∧ s.users 0 = 1 := by
  refine (Run.exists_foldlM (P := fun s => (s.mqs 0).status = true ∧ (s.mqs 0).refcount = 1)
    ?_).imp fun s ⟨hrun, hst, href⟩ => ⟨hrun, ⟨hst, href⟩, ?_⟩
  · decide +kernel
  · have hcount := (mq_lifetime hrun).1 0 hst
    omega

/-- After `exec` in a child, whose mask is not a key, and after `waitpid`, a queue counts processes
that do not use it. -/
theorem mq_counts_too_many :
    (∃ s, Run MqSys.Steps MqSys.boot
      [.mqget 0 5 true, .fork 0 true true true, .exec 1] s ∧
      (s.mqs 0).status = true ∧ (s.mqs 0).refcount = 2 ∧ s.users 0 = 1) ∧
    ∃ s, Run MqSys.Steps MqSys.boot
      [.mqget 0 5 true, .fork 0 true true true, .exit 1, .waitpid 0 2 true] s ∧
      (s.mqs 0).status = true ∧ (s.mqs 0).refcount = 2 ∧ s.users 0 = 1 := by
  constructor
  · exact Run.exists_exec
  · exact Run.exists_exec

end Runs

end Yyds.Mq
