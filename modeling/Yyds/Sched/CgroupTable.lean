import Yyds.Sched.Cgroups

/-! The table of control groups over whole sequences of calls: who is a member of which group, and
what the counters of the groups count. -/
namespace Yyds.Cgroups

open Lib
open Function (update_of_ne update_self)
open Kernel (int)

/-! ### Members -/

section Members

variable {cg cg' : Cgroup}

theorem members_append (cg : Cgroup) (pid : Int) :
    (cg.append pid).members = cg.members ++ [pid] := by
  change (List.range (cg.proc_count + 1)).map (Function.update cg.procs cg.proc_count pid) = _
  rw [List.range_succ, List.map_append, List.map_singleton, update_self]
  congr 1
  refine List.map_congr_left fun j hj => ?_
  exact update_of_ne (List.mem_range.mp hj).ne _ _

/-- The loop of `cgroup_detach` moves down what stands after the `i`-th place. -/
theorem shiftDown_apply (procs : Nat → Int) {i n : Nat} (j : Nat) :
    shiftDown procs i n j = if i ≤ j ∧ j < n - 1 then procs (j + 1) else procs j := by
  -- the loop runs upwards, so that place `j + 1` is read before it is written
  have hloop : ∀ (m i : Nat) (p : Nat → Int),
      (List.range' i m).foldl (fun p j => Function.update p j (p (j + 1))) p j =
        if i ≤ j ∧ j < i + m then p (j + 1) else p j := by
    intro m
    induction m with
    | zero =>
      simp
    | succ m ih =>
      intro i p
      rw [List.range'_succ, List.foldl_cons, ih]
      by_cases hin : i + 1 ≤ j ∧ j < i + 1 + m
      · rw [if_pos hin, if_pos (by omega), update_of_ne (by omega)]
      · rw [if_neg hin]
        by_cases hij : j = i
        · rw [hij, update_self, if_pos (by omega)]
        · rw [update_of_ne hij, if_neg (by omega)]
  rw [shiftDown, hloop]
  refine if_congr ?_ rfl rfl
  omega

theorem members_remove {j : Nat} (hj : j < cg.proc_count) :
    (cg.remove j).members = cg.members.eraseIdx j := by
  refine List.ext_getElem ?_ fun m hm hm' => ?_
  · simp [Cgroup.members, Cgroup.remove, List.length_eraseIdx, hj]
  · have hlen : m < cg.proc_count - 1 := by simpa [Cgroup.members, Cgroup.remove] using hm
    rw [List.getElem_eraseIdx]
    simp only [Cgroup.members, Cgroup.remove, List.getElem_map, List.getElem_range, shiftDown_apply]
    split <;> split <;> first | rfl | omega

theorem members_newGroup (id parent_id : Int) (ticks : BitVec 32) (parent : Option Cgroup) :
    (newGroup id parent_id ticks parent).members = [] := by
  cases parent <;> rfl

@[simp] theorem length_members (cg : Cgroup) : cg.members.length = cg.proc_count := by
  simp [Cgroup.members]

/-- What no setter and no check changes in a group. -/
structure Kept (cg cg' : Cgroup) : Prop where
  used : cg'.used = cg.used
  id : cg'.id = cg.id
  parent : cg'.parent_id = cg.parent_id
  count : cg'.proc_count = cg.proc_count
  members : cg'.members = cg.members
  current : cg'.pids.pids_current = cg.pids.pids_current

theorem Kept.holds (h : Kept cg cg') {p : Int} :
    cg'.used = true ∧ p ∈ cg'.members ↔ cg.used = true ∧ p ∈ cg.members := by
  rw [h.used, h.members]

theorem kept_apply (cg : Cgroup) (x : Setting) : Kept cg (x.apply cg) := by
  cases x <;> exact ⟨rfl, rfl, rfl, rfl, rfl, rfl⟩

theorem kept_answer (cg : Cgroup) (q : Query) (ticks : BitVec 32) :
    Kept cg (q.answer ticks cg).2 ∧ (q.answer ticks cg).2.pids = cg.pids := by
  cases q with
  | checkMemory size => exact ⟨⟨rfl, rfl, rfl, rfl, rfl, rfl⟩, rfl⟩
  | updateMemory delta => exact ⟨⟨rfl, rfl, rfl, rfl, rfl, rfl⟩, rfl⟩
  | check k bytes =>
    dsimp only [Query.answer, Cgroup.check]
    split
    · exact ⟨⟨rfl, rfl, rfl, rfl, rfl, rfl⟩, rfl⟩
    · split <;> cases k <;> exact ⟨⟨rfl, rfl, rfl, rfl, rfl, rfl⟩, rfl⟩

end Members

/-! ### Which group governs a process -/

/-- The groups, and for each pid the group it was last attached to and not detached from. -/
structure Governed where
  table : State
  last : Int → Option Slot

/-- Where the pids were last attached to, after a call. -/
def lastAfter (s : State) (last : Int → Option Slot) : Op → Int → Option Slot
  | .attach id pid =>
    if (cgroup_attach id pid s).1 = 0 then Function.update last pid (find id s) else last
  | .detach id pid =>
    if (cgroup_detach id pid s).1 = 0 ∧ last pid = find id s then Function.update last pid none
    else last
  | .delete id =>
    if (cgroup_delete id s).1 = 0 then fun pid => if last pid = find id s then none else last pid
    else last
  | _ => last

def Governed.step (s : Governed) (a : Call) : Governed :=
  ⟨(exec a.1 a.2 s.table).2, lastAfter s.table s.last a.2⟩

/-- A process is attached only while it is in no other group. -/
def Alone (s : Governed) (a : Call) : Prop :=
  match a.2 with
  | .attach id pid =>
    (cgroup_attach id pid s.table).1 = 0 →
      ∀ j, (s.table.groups j).used = true → pid ∈ (s.table.groups j).members →
        find id s.table = some j
  | _ => True

instance (s : Governed) : DecidablePred (Alone s) := fun (_, a) => by
  cases a <;> dsimp only [Alone] <;> infer_instance

/-- The slot is used and holds the pid. -/
def Holds (s : State) (i : Slot) (pid : Int) : Prop :=
  (s.groups i).used = true ∧ pid ∈ (s.groups i).members

structure GovInv (s : Governed) : Prop where
  single : ∀ pid i j, Holds s.table i pid → Holds s.table j pid → i = j
  member : ∀ pid g, s.last pid = some g → Holds s.table g pid

section Govern

variable {s t : State} {a : Call} {i g : Slot} {p : Int}

theorem holds_set {cg : Cgroup} : Holds (s.set i cg) g p ↔
    (g = i ∧ cg.used = true ∧ p ∈ cg.members) ∨ (g ≠ i ∧ Holds s g p) := by
  unfold Holds
  by_cases hg : g = i
  · subst hg
    simp
  · rw [set_groups_of_ne _ hg]
    simp [hg]

theorem Effect.holds_inv (h : Effect s a t) (ht : Holds t g p) : Holds s g p ∨
    ∃ ticks id, a = (ticks, .attach id p) ∧ find id s = some g ∧
      (cgroup_attach id p s).1 = 0 := by
  cases h with
  | none => exact .inl ht
  | @create _ _ parent i _ _ =>
    rcases holds_set.mp ht with ⟨_, _, hmem⟩ | ⟨_, hold⟩
    · rw [members_newGroup] at hmem
      exact absurd hmem (by simp)
    · exact .inl hold
  | delete _ _ =>
    rcases holds_set.mp ht with ⟨_, hused, _⟩ | ⟨_, hold⟩
    · exact absurd hused (by simp)
    · exact .inl hold
  | @attach ticks id pid i hfind hmem hmax hcount =>
    rcases holds_set.mp ht with ⟨rfl, hused, hp⟩ | ⟨_, hold⟩
    · rw [members_append, List.mem_append, List.mem_singleton] at hp
      rcases hp with hp | rfl
      · exact .inl ⟨hused, hp⟩
      · refine .inr ⟨ticks, id, rfl, hfind, ?_⟩
        have hroom : ¬ ((s.groups g).pids.enabled = true ∧
            (s.groups g).pids.pids_current ≥ (s.groups g).pids.pids_max) := fun hfull =>
          not_le.mpr (hmax hfull.1) hfull.2
        simp only [cgroup_attach, hfind, if_neg hroom, if_neg hmem, if_neg (not_le.mpr hcount)]
    · exact .inl hold
  | detach hfind hj _ =>
    rcases holds_set.mp ht with ⟨rfl, hused, hp⟩ | ⟨_, hold⟩
    · rw [members_remove hj] at hp
      exact .inl ⟨hused, List.mem_of_mem_eraseIdx hp⟩
    · exact .inl hold
  | set _ =>
    rcases holds_set.mp ht with ⟨rfl, hused, hp⟩ | ⟨_, hold⟩
    · exact .inl ((kept_apply _ _).holds.mp ⟨hused, hp⟩)
    · exact .inl hold
  | ask _ =>
    rcases holds_set.mp ht with ⟨rfl, hused, hp⟩ | ⟨_, hold⟩
    · exact .inl ((kept_answer _ _ _).1.holds.mp ⟨hused, hp⟩)
    · exact .inl hold

/-- A member stays one until it is detached. -/
theorem Effect.holds_keep (h : Effect s a t) (hs : Holds s g p) : Holds t g p ∨
    ∃ ticks id, a = (ticks, .detach id p) ∧ find id s = some g ∧
      (cgroup_detach id p s).1 = 0 := by
  have hother : ∀ {i : Slot} {cg : Cgroup}, (g = i → cg.used = true ∧ p ∈ cg.members) →
      Holds (s.set i cg) g p := by
    intro i cg h
    by_cases hg : g = i
    · exact holds_set.mpr (.inl ⟨hg, h hg⟩)
    · exact holds_set.mpr (.inr ⟨hg, hs⟩)
  cases h with
  | none => exact .inl hs
  | create _ hfree =>
    refine .inl (hother fun hg => ?_)
    have hfalse := freeSlot_eq_some hfree
    rw [← hg, hs.1] at hfalse
    exact absurd hfalse (by simp)
  | delete _ hcount =>
    refine .inl (hother fun hg => ?_)
    have hmem := List.length_pos_of_mem hs.2
    rw [length_members, hg, hcount] at hmem
    exact absurd hmem (by simp)
  | attach _ _ _ _ =>
    refine .inl (hother fun hg => ?_)
    subst hg
    rw [members_append]
    exact ⟨hs.1, List.mem_append_left _ hs.2⟩
  | @detach ticks id pid i j hfind hj hpid =>
    by_cases hp : g = i ∧ p = pid
    · obtain ⟨rfl, rfl⟩ := hp
      refine .inr ⟨ticks, id, rfl, hfind, ?_⟩
      simp only [cgroup_detach, hfind]
      split
      · rename_i hnone
        rw [List.find?_eq_none] at hnone
        exact absurd hpid (by simpa using hnone j (List.mem_range.mpr hj))
      · rfl
    · refine .inl (hother fun hg => ?_)
      subst hg
      rw [members_remove hj]
      refine ⟨hs.1, ?_⟩
      have hmem := hs.2
      obtain ⟨m, hm, hpm⟩ := List.getElem_of_mem hmem
      have hne : m ≠ j := by
        rintro rfl
        refine hp ⟨rfl, ?_⟩
        rw [← hpm, ← hpid]
        simp [Cgroup.members]
      rw [← hpm]
      exact List.mem_eraseIdx_iff_getElem.mpr ⟨m, hm, hne, rfl⟩
  | set _ =>
    refine .inl (hother fun hg => ?_)
    subst hg
    exact (kept_apply _ _).holds.mpr hs
  | ask _ =>
    refine .inl (hother fun hg => ?_)
    subst hg
    exact (kept_answer _ _ _).1.holds.mpr hs

theorem attach_holds {id pid : Int} (h : (cgroup_attach id pid s).1 = 0) :
    ∃ i, find id s = some i ∧ Holds (cgroup_attach id pid s).2 i pid := by
  unfold cgroup_attach at h ⊢
  cases hfind : find id s with
  | none => simp [hfind] at h
  | some i =>
    have hused := (find_eq_some hfind).1
    refine ⟨i, rfl, ?_⟩
    simp only [hfind] at h ⊢
    split at h
    · exact absurd h (by simp)
    split at h
    · rename_i hfull hmem
      rw [if_neg hfull, if_pos hmem]
      exact ⟨hused, hmem⟩
    split at h
    · exact absurd h (by simp)
    · rename_i hfull hmem hcount
      rw [if_neg hfull, if_neg hmem, if_neg hcount]
      refine holds_set.mpr (.inl ⟨rfl, hused, ?_⟩)
      rw [members_append]
      simp

end Govern

namespace GovInv

theorem init : GovInv ⟨cgroups_init, fun _ => none⟩ := by
  refine ⟨fun pid i j hi hj => ?_, fun pid g h => absurd h (by simp)⟩
  have hroot : ∀ i, Holds cgroups_init i pid → i = 0 := by
    intro i hi
    by_contra h0
    have hused := hi.1
    rw [show cgroups_init.groups i = Cgroup.zero from if_neg h0] at hused
    exact absurd hused (by decide)
  rw [hroot i hi, hroot j hj]

variable {s : Governed} {a : Call}

theorem single_step (h : GovInv s) (ha : Alone s a) (pid : Int) (i j : Slot)
    (hi : Holds (s.step a).table i pid) (hj : Holds (s.step a).table j pid) : i = j := by
  have he : Effect s.table a (s.step a).table := effect_exec s.table a
  rcases he.holds_inv hi with hsi | ⟨_, id, rfl, hfi, hret⟩
  · rcases he.holds_inv hj with hsj | ⟨_, id, rfl, hfj, hret⟩
    · exact h.single pid i j hsi hsj
    · have hfind := ha hret i hsi.1 hsi.2
      rw [hfj] at hfind
      exact (Option.some.inj hfind).symm
  · rcases he.holds_inv hj with hsj | ⟨_, id', heq, hfj, _⟩
    · have hfind := ha hret j hsj.1 hsj.2
      rw [hfi] at hfind
      exact Option.some.inj hfind
    · cases heq
      rw [hfi] at hfj
      exact Option.some.inj hfj

theorem member_step (h : GovInv s) (pid : Int) (g : Slot)
    (hlast : (s.step a).last pid = some g) : Holds (s.step a).table g pid := by
  have he : Effect s.table a (s.step a).table := effect_exec s.table a
  obtain ⟨ticks, op⟩ := a
  -- a pid that was attached before is still a member, unless it is the one detached
  have hold : s.last pid = some g → (∀ id, op ≠ .detach id pid) →
      Holds (s.step (ticks, op)).table g pid := by
    intro hl hop
    rcases he.holds_keep (h.member pid g hl) with hk | ⟨_, id, heq, _⟩
    · exact hk
    · cases heq
      exact absurd rfl (hop id)
  cases op with
  | attach id p =>
    dsimp only [Governed.step, lastAfter] at hlast
    split at hlast
    · rename_i hret
      by_cases hp : pid = p
      · subst hp
        rw [update_self] at hlast
        obtain ⟨i, hfind, hmem⟩ := attach_holds hret
        rw [hfind] at hlast
        cases hlast
        exact hmem
      · rw [update_of_ne hp] at hlast
        exact hold hlast (by simp)
    · exact hold hlast (by simp)
  | detach id p =>
    dsimp only [Governed.step, lastAfter] at hlast
    split at hlast
    · by_cases hp : pid = p
      · subst hp
        exact absurd hlast (by simp)
      · rw [update_of_ne hp] at hlast
        refine hold hlast fun id' heq => hp ?_
        cases heq
        rfl
    · rename_i hno
      rcases he.holds_keep (h.member pid g hlast) with hk | ⟨_, id', heq, hfind, hret⟩
      · exact hk
      · cases heq
        exact absurd ⟨hret, hlast.trans hfind.symm⟩ hno
  | delete id =>
    dsimp only [Governed.step, lastAfter] at hlast
    split at hlast
    · rw [ite_eq_iff] at hlast
      rcases hlast with ⟨_, hno⟩ | ⟨_, hlast⟩
      · exact absurd hno (by simp)
      · exact hold hlast (by simp)
    · exact hold hlast (by simp)
  | create parent_id => exact hold hlast (by simp)
  | set id x => exact hold hlast (by simp)
  | ask p q => exact hold hlast (by simp)

theorem step (h : GovInv s) (ha : Alone s a) : GovInv (s.step a) :=
  ⟨h.single_step ha, h.member_step⟩

/-- Where a pid is a member of one group only, that group is the first one found. -/
theorem charged_eq (h : GovInv s) {pid : Int} {g : Slot} (hlast : s.last pid = some g) :
    charged pid s.table = some g := by
  have hg := h.member pid g hlast
  cases hch : charged pid s.table with
  | none =>
    have hnone := List.find?_eq_none.mp hch g (List.mem_finRange g)
    exact absurd hg (by simpa [Holds] using hnone)
  | some i => rw [h.single pid i g (charged_eq_some hch) hg]

end GovInv

/-- If processes are attached only while they are in no other group, every pid is a member of at
most one group, and every check and update for a pid is made against the group it was last
attached to. -/
theorem governed_by_last_attached {calls : List Call} {s : Governed}
    (h : Run (Guarded Alone fun s a t => s.step a = t) ⟨cgroups_init, fun _ => none⟩ calls s) :
    (∀ pid i j, Holds s.table i pid → Holds s.table j pid → i = j) ∧
    ∀ pid g, s.last pid = some g → Holds s.table g pid ∧
      ∀ ticks q, exec ticks (.ask pid q) s.table =
        ((q.answer ticks (s.table.groups g)).1,
          s.table.set g (q.answer ticks (s.table.groups g)).2) := by
  have hs : GovInv s := by
    refine h.invariant (fun s a t hst hinv => ?_) GovInv.init
    rw [← hst.2]
    exact hinv.step hst.1
  refine ⟨hs.single, fun pid g hlast => ⟨hs.member pid g hlast, fun ticks q => ?_⟩⟩
  simp only [exec, cgroup_ask, hs.charged_eq hlast]

/-- A process that moves from the root group to a new one. -/
theorem governed_after_move : ∃ s,
    Run (Guarded Alone fun s a t => s.step a = t) ⟨cgroups_init, fun _ => none⟩
      [(0, .attach 0 5), (0, .create (-1)), (0, .detach 0 5), (0, .attach 1 5)] s ∧
    s.last 5 = some 1 ∧ Holds s.table 1 5 := by
  refine (Run.exists_guards).imp
    fun s ⟨hrun, hlast⟩ => ⟨hrun, hlast, ((governed_by_last_attached hrun).2 5 1 hlast).1⟩

/-- A process is attached to a second group: it is a member of both, and a size that the group it
was last attached to refuses is granted by the other. -/
theorem governed_by_first_slot : ∃ s,
    Run (fun s a t => Governed.step s a = t) ⟨cgroups_init, fun _ => none⟩
      [(0, .attach 0 5), (0, .create (-1)), (0, .set 1 (.memory 100)), (0, .attach 1 5)] s ∧
    s.last 5 = some 1 ∧ 5 ∈ (s.table.groups 0).members ∧ 5 ∈ (s.table.groups 1).members ∧
    (cgroup_check_memory 5 200 0 s.table).1 = 1 ∧
    (Query.answer 0 (s.table.groups 1) (.checkMemory 200)).1 = 0 :=
  ⟨_, Run.of_foldl _ _ _, by decide +kernel, by decide +kernel, by decide +kernel,
    by decide +kernel, by decide +kernel⟩

/-! ### What the counters count -/

/-- The groups, and for each the number of its processes when `pids_max` was last lowered. -/
structure Book where
  table : State
  lowered : Slot → Nat

/-- The numbers of processes at the last lowering, after a call. A new group starts at 0. -/
def loweredAfter (s : State) (lowered : Slot → Nat) : Op → Slot → Nat
  | .set id (.pids max_pids) =>
    fun i => if find id s = some i ∧ max_pids < (s.groups i).pids.pids_max
      then (s.groups i).proc_count else lowered i
  | .create _ => fun i => if freeSlot s = some i then 0 else lowered i
  | _ => lowered

def Book.step (s : Book) (a : Call) : Book :=
  ⟨(exec a.1 a.2 s.table).2, loweredAfter s.table s.lowered a.2⟩

/-- A group is created without a parent or under one without processes, and deleted only while it
is the parent of no group. -/
def Childless (s : Book) (a : Call) : Prop :=
  match a.2 with
  | .create parent_id =>
    -1 ≤ parent_id ∧ ∀ p, find parent_id s.table = some p →
      (s.table.groups p).pids.pids_current = 0
  | .delete id =>
    (cgroup_delete id s.table).1 = 0 →
      ∀ j, (s.table.groups j).used = true → (s.table.groups j).parent_id ≠ id
  | _ => True

instance (s : Book) : DecidablePred (Childless s) := fun (_, a) => by
  cases a <;> dsimp only [Childless] <;> infer_instance

/-- The number of used groups. -/
def usedGroups (s : State) : Nat :=
  (Finset.univ.filter fun i => (s.groups i).used = true).card

/-- What holds of one used group. -/
structure Counted (cg : Cgroup) (lowered : Nat) : Prop where
  current : cg.pids.pids_current = cg.proc_count
  distinct : cg.members.toFinset.card = cg.proc_count
  size : cg.proc_count ≤ MAX_PROCS_PER_CGROUP
  bound : (cg.proc_count : Int) ≤ max cg.pids.pids_max lowered

/-- The parent is none, or a used group. -/
def ParentOk (s : State) (parent_id : Int) : Prop :=
  parent_id = -1 ∨ ∃ j, (s.groups j).used = true ∧ (s.groups j).id = parent_id

structure BookInv (s : Book) : Prop where
  on : AllOn s.table
  counted : ∀ i, (s.table.groups i).used = true → Counted (s.table.groups i) (s.lowered i)
  groups : s.table.group_count = usedGroups s.table
  parent : ∀ i, (s.table.groups i).used = true →
    ParentOk s.table (s.table.groups i).parent_id

namespace Counted

variable {cg cg' : Cgroup} {l l' : Nat}

theorem nodup (h : Counted cg l) : cg.members.Nodup := by
  have hcard := h.distinct
  rw [← length_members] at hcard
  exact Multiset.toFinset_card_eq_card_iff_nodup.mp hcard

theorem card_of_nodup (h : cg.members.Nodup) : cg.members.toFinset.card = cg.proc_count := by
  rw [List.toFinset_card_of_nodup h, length_members]

theorem append (h : Counted cg l) {pid : Int} (hmem : pid ∉ cg.members)
    (hmax : cg.pids.pids_current < cg.pids.pids_max)
    (hcount : cg.proc_count < MAX_PROCS_PER_CGROUP) : Counted (cg.append pid) l := by
  have hcur := h.current
  have hsmall : (cg.proc_count : Int) < 32 := by exact_mod_cast hcount
  refine ⟨?_, card_of_nodup ?_, hcount, ?_⟩
  · change int (cg.pids.pids_current + 1) = ((cg.proc_count + 1 : Nat) : Int)
    rw [hcur, int, Int.bmod_eq_of_le (by omega) (by omega)]
    rfl
  · rw [members_append]
    exact List.nodup_append.mpr ⟨h.nodup, List.nodup_singleton _, by grind⟩
  · change ((cg.proc_count + 1 : Nat) : Int) ≤ max cg.pids.pids_max l
    omega

theorem remove (h : Counted cg l) {j : Nat} (hj : j < cg.proc_count) : Counted (cg.remove j) l := by
  have hcur := h.current
  have hsize := h.size
  have hbound := h.bound
  have hsmall : (cg.proc_count : Int) ≤ 32 := by exact_mod_cast hsize
  refine ⟨?_, card_of_nodup ?_, ?_, ?_⟩
  · change int (cg.pids.pids_current - 1) = ((cg.proc_count - 1 : Nat) : Int)
    rw [int, Int.bmod_eq_of_le (by omega) (by omega)]
    omega
  · rw [members_remove hj]
    exact h.nodup.sublist (List.eraseIdx_sublist _ _)
  · change cg.proc_count - 1 ≤ _
    omega
  · change ((cg.proc_count - 1 : Nat) : Int) ≤ max cg.pids.pids_max l
    omega

theorem kept (h : Counted cg l) (hk : Kept cg cg')
    (hbound : (cg.proc_count : Int) ≤ max cg'.pids.pids_max l') : Counted cg' l' := by
  refine ⟨?_, ?_, ?_, ?_⟩
  · rw [hk.current, hk.count]
    exact h.current
  · rw [hk.members, hk.count]
    exact h.distinct
  · rw [hk.count]
    exact h.size
  · rw [hk.count]
    exact hbound

theorem newGroup {parent : Option Cgroup} (h : ∀ p ∈ parent, p.pids.pids_current = 0)
    (id parent_id : Int) (ticks : BitVec 32) : Counted (newGroup id parent_id ticks parent) 0 := by
  have hcount : (Cgroups.newGroup id parent_id ticks parent).proc_count = 0 := by
    cases parent <;> rfl
  refine ⟨?_, ?_, ?_, ?_⟩
  · cases parent with
    | none => rfl
    | some p => exact h p rfl
  · rw [members_newGroup, hcount]
    rfl
  · rw [hcount]
    exact Nat.zero_le _
  · rw [hcount]
    exact le_max_right _ _

end Counted

section Bookkeeping

variable {s : State} {i : Slot} {cg : Cgroup}

theorem counted_set {lowered : Slot → Nat} (hi : cg.used = true → Counted cg (lowered i))
    (hs : ∀ j, j ≠ i → (s.groups j).used = true → Counted (s.groups j) (lowered j)) (j : Slot)
    (hj : ((s.set i cg).groups j).used = true) : Counted ((s.set i cg).groups j) (lowered j) := by
  by_cases hji : j = i
  · subst hji
    rw [set_groups_self] at hj ⊢
    exact hi hj
  · rw [set_groups_of_ne _ hji] at hj ⊢
    exact hs j hji hj

theorem filter_used_set : (Finset.univ.filter fun j => ((s.set i cg).groups j).used = true) =
    if cg.used = true then insert i (Finset.univ.filter fun j => (s.groups j).used = true)
    else (Finset.univ.filter fun j => (s.groups j).used = true).erase i := by
  ext j
  by_cases hji : j = i
  · split <;> simp_all
  · split <;> simp [set_groups_of_ne _ hji, hji]

theorem usedGroups_create (h : (s.groups i).used = false) (hcg : cg.used = true) :
    usedGroups (s.set i cg) = usedGroups s + 1 := by
  rw [usedGroups, filter_used_set, if_pos hcg, Finset.card_insert_of_notMem (by simp [h])]
  rfl

theorem usedGroups_delete (h : (s.groups i).used = true) (hcg : cg.used = false) :
    usedGroups (s.set i cg) + 1 = usedGroups s := by
  rw [usedGroups, filter_used_set, if_neg (by simp [hcg])]
  exact Finset.card_erase_add_one (by simp [h])

theorem usedGroups_kept (h : cg.used = (s.groups i).used) :
    usedGroups (s.set i cg) = usedGroups s := by
  refine congrArg Finset.card (Finset.filter_congr fun j _ => ?_)
  by_cases hji : j = i
  · subst hji
    rw [set_groups_self, h]
  · rw [set_groups_of_ne _ hji]

theorem usedGroups_le (s : State) : usedGroups s ≤ MAX_CGROUPS :=
  (Finset.card_filter_le _ _).trans (by simp)

theorem ParentOk.mono {t : State} {parent_id : Int} (h : ParentOk s parent_id)
    (hst : ∀ j, (s.groups j).used = true →
      (t.groups j).used = true ∧ (t.groups j).id = (s.groups j).id) : ParentOk t parent_id := by
  refine h.imp_right fun ⟨j, hused, hid⟩ => ?_
  exact ⟨j, (hst j hused).1, (hst j hused).2.trans hid⟩

theorem kept_ids (hused : cg.used = (s.groups i).used) (hid : cg.id = (s.groups i).id) (j : Slot)
    (hj : (s.groups j).used = true) :
    ((s.set i cg).groups j).used = true ∧ ((s.set i cg).groups j).id = (s.groups j).id := by
  by_cases hji : j = i
  · subst hji
    rw [set_groups_self]
    exact ⟨hused.trans hj, hid⟩
  · rw [set_groups_of_ne _ hji]
    exact ⟨hj, rfl⟩

end Bookkeeping

namespace BookInv

variable {s : Book} {a : Call} {i : Slot}

/-- One used group changes and stays the group it is. -/
theorem update (hs : BookInv s) {cg : Cgroup} {lowered : Slot → Nat}
    (hi : (s.table.groups i).used = true) (hon : AllOn (s.table.set i cg))
    (hused : cg.used = (s.table.groups i).used) (hid : cg.id = (s.table.groups i).id)
    (hparent : cg.parent_id = (s.table.groups i).parent_id)
    (hcount : Counted cg (lowered i)) (hlow : ∀ j, j ≠ i → lowered j = s.lowered j) :
    BookInv ⟨s.table.set i cg, lowered⟩ := by
  refine ⟨hon, counted_set (fun _ => hcount) fun j hji hj => ?_, ?_, fun j hj => ?_⟩
  · dsimp only
    rw [hlow j hji]
    exact hs.counted j hj
  · exact hs.groups.trans (congrArg Nat.cast (usedGroups_kept hused).symm)
  · refine ParentOk.mono ?_ (kept_ids hused hid)
    by_cases hji : j = i
    · subst hji
      rw [set_groups_self, hparent]
      exact hs.parent j hi
    · rw [set_groups_of_ne _ hji] at hj ⊢
      exact hs.parent j hj

theorem create (hs : BookInv s) {cg : Cgroup} {lowered : Slot → Nat}
    (hfree : (s.table.groups i).used = false) (hon : AllOn (s.table.create i cg))
    (hused : cg.used = true) (hparent : ParentOk s.table cg.parent_id)
    (hcount : Counted cg (lowered i)) (hlow : ∀ j, j ≠ i → lowered j = s.lowered j) :
    BookInv ⟨s.table.create i cg, lowered⟩ := by
  have hids : ∀ j, (s.table.groups j).used = true → ((s.table.set i cg).groups j).used = true ∧
        ((s.table.set i cg).groups j).id = (s.table.groups j).id := by
    intro j hj
    have hji : j ≠ i := by
      rintro rfl
      simp [hfree] at hj
    rw [set_groups_of_ne _ hji]
    exact ⟨hj, rfl⟩
  refine ⟨hon, counted_set (fun _ => hcount) fun j hji hj => ?_, ?_, fun j hj => ?_⟩
  · dsimp only
    rw [hlow j hji]
    exact hs.counted j hj
  · have hle : usedGroups s.table ≤ 16 := usedGroups_le s.table
    change int (s.table.group_count + 1) = (usedGroups (s.table.set i cg) : Int)
    rw [usedGroups_create hfree hused, hs.groups, int, Int.bmod_eq_of_le (by omega) (by omega)]
    rfl
  · refine ParentOk.mono ?_ hids
    dsimp only [create_groups] at hj ⊢
    by_cases hji : j = i
    · subst hji
      rw [set_groups_self]
      exact hparent
    · rw [set_groups_of_ne _ hji] at hj ⊢
      exact hs.parent j hj

theorem delete (hs : BookInv s) (hi : (s.table.groups i).used = true)
    (hon : AllOn (s.table.delete i))
    (hchild : ∀ j, (s.table.groups j).used = true →
      (s.table.groups j).parent_id ≠ (s.table.groups i).id) :
    BookInv ⟨s.table.delete i, s.lowered⟩ := by
  refine ⟨hon, counted_set (fun h => absurd h (by simp)) fun j _ hj => hs.counted j hj, ?_,
    fun j hj => ?_⟩
  · have hle : usedGroups s.table ≤ 16 := usedGroups_le s.table
    have hcard : usedGroups (s.table.set i { s.table.groups i with used := false }) + 1 =
        usedGroups s.table := usedGroups_delete hi rfl
    change int (s.table.group_count - 1) =
      (usedGroups (s.table.set i { s.table.groups i with used := false }) : Int)
    rw [hs.groups, int, Int.bmod_eq_of_le (by omega) (by omega)]
    omega
  · dsimp only [delete_groups] at hj ⊢
    have hji : j ≠ i := by
      rintro rfl
      simp at hj
    rw [set_groups_of_ne _ hji] at hj ⊢
    refine (hs.parent j hj).imp_right fun ⟨k, hused, hid⟩ => ⟨k, ?_⟩
    have hki : k ≠ i := by
      rintro rfl
      exact hchild j hj hid.symm
    rw [delete_groups, set_groups_of_ne _ hki]
    exact ⟨hused, hid⟩

theorem init : BookInv ⟨cgroups_init, fun _ => 0⟩ := by
  have hroot : ∀ i, (cgroups_init.groups i).used = true → cgroups_init.groups i = rootGroup := by
    intro i hi
    by_cases h0 : i = 0
    · rw [h0]
      rfl
    · rw [show cgroups_init.groups i = Cgroup.zero from if_neg h0] at hi
      exact absurd hi (by decide)
  refine ⟨allOn_init, fun i hi => ?_, by decide +kernel, fun i hi => ?_⟩
  · dsimp only
    rw [hroot i hi]
    exact ⟨rfl, rfl, by decide, by decide⟩
  · rw [hroot i hi]
    exact .inl rfl

/-- Only the numbers of used groups matter. -/
theorem congr_lowered (hs : BookInv s) {lowered : Slot → Nat}
    (h : ∀ j, (s.table.groups j).used = true → lowered j = s.lowered j) :
    BookInv ⟨s.table, lowered⟩ := by
  refine { hs with counted := fun j hj => ?_ }
  dsimp only
  rw [h j hj]
  exact hs.counted j hj

theorem step_set (hs : BookInv s) (ticks : BitVec 32) (id : Int) (x : Setting) :
    BookInv (s.step (ticks, .set id x)) := by
  have hon : AllOn (s.step (ticks, .set id x)).table := hs.on.step rfl
  unfold Book.step at hon ⊢
  dsimp only [exec, cgroup_set] at hon ⊢
  cases hfind : find id s.table with
  | none =>
    refine hs.congr_lowered fun j _ => ?_
    cases x <;> simp [loweredAfter, hfind]
  | some i =>
    rw [hfind] at hon
    have hi := (find_eq_some hfind).1
    have hc := hs.counted i hi
    have hk := kept_apply (s.table.groups i) x
    refine hs.update hi hon hk.used hk.id hk.parent (hc.kept hk ?_) fun j hji => ?_
    · have hbound := hc.bound
      cases x with
      | pids max_pids =>
        dsimp only [Setting.apply, setPids, loweredAfter]
        split
        · exact le_max_right _ _
        · rename_i hnot
          have hle : (s.table.groups i).pids.pids_max ≤ max_pids :=
            not_lt.mp fun hlt => hnot ⟨hfind, hlt⟩
          omega
      | _ => exact hbound
    · have hij : i ≠ j := fun h => hji h.symm
      cases x <;> simp [loweredAfter, hfind, hij]

theorem step (hs : BookInv s) (ha : Childless s a) : BookInv (s.step a) := by
  have hon : AllOn (s.step a).table := hs.on.step rfl
  have he := effect_exec s.table a
  obtain ⟨ticks, op⟩ := a
  unfold Book.step at hon ⊢
  cases op with
  | set id x => exact hs.step_set ticks id x
  | create parent_id =>
    generalize (exec ticks (.create parent_id) s.table).2 = t at hon he ⊢
    cases he with
    | none =>
      refine hs.congr_lowered fun j hj => if_neg fun hfree => ?_
      simp [freeSlot_eq_some hfree] at hj
    | @create _ _ parent i hparent hfree =>
      obtain ⟨hle, hzero⟩ : -1 ≤ parent_id ∧ _ := ha
      have hpid : (newGroup s.table.next_id parent_id ticks parent).parent_id = parent_id := by
        cases parent <;> rfl
      have hused : (newGroup s.table.next_id parent_id ticks parent).used = true := by
        cases parent <;> rfl
      refine hs.create (freeSlot_eq_some hfree) hon hused ?_ ?_ fun j hji => if_neg fun h => ?_
      · cases hparent with
        | root hneg => exact .inl (by omega)
        | group _ hfind => exact .inr ⟨_, find_eq_some hfind⟩
      · dsimp only [loweredAfter]
        rw [if_pos hfree]
        refine Counted.newGroup (fun p hp => ?_) _ _ _
        cases hparent with
        | root _ => cases hp
        | group _ hfind =>
          cases hp
          exact hzero _ hfind
      · rw [hfree] at h
        exact hji (Option.some.inj h).symm
  | delete id =>
    have hguard : (cgroup_delete id s.table).1 = 0 → _ := ha
    generalize ht : (exec ticks (.delete id) s.table).2 = t at hon he ⊢
    cases he with
    | none => exact hs
    | @delete _ _ i hfind hcount =>
      obtain ⟨hi, hid⟩ := find_eq_some hfind
      refine hs.delete hi hon ?_
      rw [hid]
      refine hguard ?_
      simp [cgroup_delete, hfind, hcount]
  | attach id pid =>
    generalize (exec ticks (.attach id pid) s.table).2 = t at hon he ⊢
    cases he with
    | none => exact hs
    | attach hfind hmem hmax hcount =>
      have hi := (find_eq_some hfind).1
      exact hs.update hi hon rfl rfl rfl
        ((hs.counted _ hi).append hmem (hmax (hs.on _ hi).pids) hcount) fun _ _ => rfl
  | detach id pid =>
    generalize (exec ticks (.detach id pid) s.table).2 = t at hon he ⊢
    cases he with
    | none => exact hs
    | detach hfind hj _ =>
      have hi := (find_eq_some hfind).1
      exact hs.update hi hon rfl rfl rfl ((hs.counted _ hi).remove hj) fun _ _ => rfl
  | ask pid q =>
    generalize (exec ticks (.ask pid q) s.table).2 = t at hon he ⊢
    cases he with
    | none => exact hs
    | @ask _ _ _ i hch =>
      have hi := (charged_eq_some hch).1
      obtain ⟨hk, hpids⟩ := kept_answer (s.table.groups i) q ticks
      refine hs.update hi hon hk.used hk.id hk.parent ((hs.counted i hi).kept hk ?_) fun _ _ => rfl
      rw [hpids]
      exact (hs.counted i hi).bound

end BookInv

/-- If groups are created without a parent or under one without processes, and deleted only while
they are no group's parent, then in every used group the counters count the distinct members, which
are at most `pids_max` or as many as when that was lowered; `group_count` counts the used groups;
and the parent of every used group is used. -/
theorem bookkeeping {calls : List Call} {s : Book}
    (h : Run (Guarded Childless fun s a t => s.step a = t) ⟨cgroups_init, fun _ => 0⟩ calls s) :
    (∀ i, (s.table.groups i).used = true →
      (s.table.groups i).pids.pids_current = (s.table.groups i).proc_count ∧
      (s.table.groups i).proc_count = (s.table.groups i).members.toFinset.card ∧
      ((s.table.groups i).proc_count : Int) ≤
        max (s.table.groups i).pids.pids_max (s.lowered i)) ∧
    s.table.group_count = usedGroups s.table ∧
    ∀ i, (s.table.groups i).used = true →
      (s.table.groups i).parent_id = -1 ∨
        ∃ j, (s.table.groups j).used = true ∧
          (s.table.groups j).id = (s.table.groups i).parent_id := by
  have hs : BookInv s := by
    refine h.invariant (fun s a t hst hinv => ?_) BookInv.init
    rw [← hst.2]
    exact hinv.step hst.1
  refine ⟨fun i hi => ?_, hs.groups, hs.parent⟩
  have hc := hs.counted i hi
  exact ⟨hc.current, hc.distinct.symm, hc.bound⟩

/-- A group with two processes and a child, whose `pids_max` is then lowered to 1. -/
theorem bookkeeping_lowered : ∃ s,
    Run (Guarded Childless fun s a t => s.step a = t) ⟨cgroups_init, fun _ => 0⟩
      [(0, .create (-1)), (0, .create 1), (0, .attach 1 5), (0, .attach 1 6), (0, .set 1 (.pids 1)),
        (0, .attach 1 7)] s ∧
    (s.table.groups 1).proc_count = 2 ∧
    ((s.table.groups 1).proc_count : Int) ≤ max (s.table.groups 1).pids.pids_max (s.lowered 1) := by
  refine (Run.exists_guards (P := fun s => (s.table.groups 1).used = true ∧
    (s.table.groups 1).proc_count = 2) ?_).imp
    fun s ⟨hrun, hused, hcount⟩ => ⟨hrun, hcount, ((bookkeeping hrun).1 1 hused).2.2⟩
  decide +kernel

/-- A child of a group with a process starts with that process counted and none in its array, and
when the parent is deleted the child keeps the id of a group that is gone. -/
theorem bookkeeping_broken : ∃ s,
    Run (fun s a t => Book.step s a = t) ⟨cgroups_init, fun _ => 0⟩
      [(0, .create (-1)), (0, .attach 1 5), (0, .create 1), (0, .detach 1 5), (0, .delete 1)] s ∧
    (s.table.groups 2).used = true ∧ (s.table.groups 2).pids.pids_current = 1 ∧
    (s.table.groups 2).proc_count = 0 ∧ (s.table.groups 2).parent_id = 1 ∧
    ∀ j, (s.table.groups j).used = true → (s.table.groups j).id ≠ 1 :=
  ⟨_, Run.of_foldl _ _ _, by decide +kernel, by decide +kernel, by decide +kernel,
    by decide +kernel, by decide +kernel⟩

end Yyds.Cgroups
