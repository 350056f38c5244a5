import Yyds.Kernel.Access
import Yyds.Sched.Cgroups
import Yyds.Sched.Qos

/-! The system calls that fetch a 64-bit number with `argaddr`. -/
namespace Yyds.Kernel

open Lib Kern Mm Cgroups Qos

section

variable [Layout]

/-- A system call of `p` with the number `v`, on another part of the kernel. -/
def withNumber {G : Type} (p : ProcId) (v : BitVec 64) (call : G → Int × G) : Kern (Sys × G) Int :=
  fun x => match argaddr p v.toNat x.1 with
    | .error msg => .error msg
    | .ok (r, s) => if r < 0 then .ok (-1, s, x.2) else .ok ((call x.2).1, s, (call x.2).2)

def sys_cgroup_set_memory (p : ProcId) (cgroup_id : Int) (limit : BitVec 64) :
    Kern (Sys × Cgroups.State) Int := withNumber p limit (cgroup_set_memory cgroup_id limit)

def sys_qos_set_deadline (p : ProcId) (deadline : BitVec 64) : Kern (Sys × QosSys) Int :=
  withNumber p deadline (qos_set_deadline · p deadline)

variable {s : Sys} {own : Nat → Owner} {p : ProcId} {v : BitVec 64}

theorem withNumber_iff (I : Inv s own) (hp : (s.proc p).pagetable ≠ 0) {G : Type}
    {call : G → Int × G} {g : G} {P : G → Prop} (h0 : (call g).1 = 0) (hP : P (call g).2) :
    (∃ g', withNumber p v call (s, g) = .ok (0, s, g') ∧ P g') ↔
      UserEntry s.mem s.root (some p) v.toNat := by
  constructor
  · rintro ⟨g', h, -⟩
    unfold withNumber at h
    split at h
    · cases h
    rename_i e s' hs
    obtain ⟨m', own', rfl, -, -, hcase⟩ := argaddr_spec I hp hs
    rcases hcase with ⟨-, hu, -⟩ | ⟨rfl, -, -, M⟩ | ⟨rfl, -⟩
    · exact hu
    · -- the page is there now and was not there before
      have hmem : m' = s.mem := congrArg (fun r => r.2.1.mem) (Except.ok.inj h)
      obtain ⟨r, -, hput, -⟩ := M.page
      have hfresh := M.fresh
      rw [← hmem, hput, if_pos ⟨rfl, rfl⟩, has_mk_V] at hfresh
      cases hfresh
    · cases h
  · intro hu
    exact ⟨_, by simp [withNumber, argaddr_user I hp hu, h0], hP⟩

/-- The numbers are passed on, and nothing is mapped, exactly if they are addresses of pages that
the process can use. -/
theorem numbers_passed_iff (I : Inv s own) (hp : (s.proc p).pagetable ≠ 0) {g : Cgroups.State}
    {cgroup_id : Int} {i : Cgroups.Slot} (hi : find cgroup_id g = some i) {q : QosSys} {t : TaskId}
    (ht : qos_find_task q p = some t) (v : BitVec 64) :
    ((∃ g', sys_cgroup_set_memory p cgroup_id v (s, g) = .ok (0, s, g') ∧
        (g'.groups i).memory.memory_limit = v) ↔ UserEntry s.mem s.root (some p) v.toNat) ∧
      ((∃ q', sys_qos_set_deadline p v (s, q) = .ok (0, s, q') ∧ (q'.pool t).deadline = v) ↔
        UserEntry s.mem s.root (some p) v.toNat) := by
  constructor
  · refine withNumber_iff (P := fun g' : Cgroups.State => (g'.groups i).memory.memory_limit = v)
      I hp ?_ ?_ <;>
      simp [cgroup_set_memory, cgroup_set, hi, Cgroups.State.set, Setting.apply, setMemory]
  · refine withNumber_iff (P := fun q' : QosSys => (q'.pool t).deadline = v) I hp ?_ ?_ <;>
      simp [qos_set_deadline, ht, QosSys.setTask]

end

/-- The first process is registered. -/
def registered : QosSys := (qos_register qos_init 0 3).2

/-- 16 is an address in the first page of the first process. -/
theorem numbers_passed_sixteen : let := twentyPages
    ∃ s g', small noFile noInode Tame [] = some s ∧
      sys_cgroup_set_memory 0 0 16 (s, cgroups_init) = .ok (0, s, g') ∧
      (g'.groups 0).memory.memory_limit = 16 := by
  let := twentyPages
  obtain ⟨s, hs, hp, hu⟩ : ∃ s, small noFile noInode Tame [] = some s ∧
      (s.proc 0).pagetable ≠ 0 ∧ UserEntry s.mem s.root (some 0) 16 := by
    decide +kernel +revert
  obtain ⟨s0, ⟨own, I⟩, hrun⟩ := small_run hs
  cases hrun
  obtain ⟨g', hset⟩ := (numbers_passed_iff I hp (show find 0 cgroups_init = some 0 from rfl)
    (show qos_find_task registered 0 = some 0 by decide) 16).1.mpr hu
  exact ⟨s, g', hs, hset⟩

/-- 256 MiB is no address of the process, so the limit is refused; a deadline of 8192 ticks is an
address on the heap, where a page is mapped. -/
theorem numbers_taken_for_addresses : let := twentyPages
    ∃ s, small noFile noInode Tame [(0, .sbrk 8192)] = some s ∧
      (∃ r t, sys_cgroup_set_memory 0 0 0x10000000 (s, cgroups_init) = .ok (r, t) ∧ r = -1 ∧
        (t.2.groups 0).memory.memory_limit = 0) ∧
      has (s.mem.leaf (s.proc 0).pagetable (slot 8192)) PTE_V = false ∧
      ∃ r t, sys_qos_set_deadline 0 8192 (s, registered) = .ok (r, t) ∧ r = 0 ∧
        has (t.1.mem.leaf (s.proc 0).pagetable (slot 8192)) PTE_V = true := by
  decide +kernel

end Yyds.Kernel
