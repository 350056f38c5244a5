import Yyds.Embassy.Partition

/-! Tasks and the tasks they depend on: when a task runs, and when it waits on the blocked list. -/
namespace Yyds.Embassy

open Lib Function View

/-! ### The dependencies of one task -/

/-- The dependencies that have not ended. -/
def Task.openDeps (k : Task) : List Int :=
  ((List.range k.dep_count).map k.dep_task_ids).filter (· ≠ -1)

/-- Every dependency is counted as ended or still open, and none is open twice. -/
structure Task.Sound (k : Task) : Prop where
  count : k.completed_deps + k.openDeps.length = k.dep_count
  nodup : k.openDeps.Nodup

/-- The same dependencies. -/
structure Task.SameDeps (k k' : Task) : Prop where
  task_id : k'.task_id = k.task_id
  dep_count : k'.dep_count = k.dep_count
  completed_deps : k'.completed_deps = k.completed_deps
  dep_task_ids : k'.dep_task_ids = k.dep_task_ids

variable {k k' : Task} {task_id dep_task_id : Int} {i : Nat}

namespace Task

theorem SameDeps.rfl : k.SameDeps k := ⟨Eq.refl _, Eq.refl _, Eq.refl _, Eq.refl _⟩

theorem SameDeps.openDeps (h : k.SameDeps k') : k'.openDeps = k.openDeps := by
  unfold Task.openDeps
  rw [h.dep_count, h.dep_task_ids]

theorem SameDeps.sound (h : k.SameDeps k') (hk : k.Sound) : k'.Sound := by
  refine ⟨?_, h.openDeps ▸ hk.nodup⟩
  rw [h.completed_deps, h.openDeps, h.dep_count]
  exact hk.count

theorem swept_sameDeps (f : Task → Task) (done : Task → Bool) (k : Task) :
    (f k).SameDeps (k.swept f done) := by
  unfold swept
  split
  · exact ⟨Eq.refl _, Eq.refl _, Eq.refl _, Eq.refl _⟩
  · exact .rfl

theorem openDeps_depend (hd : dep_task_id ≠ -1) :
    (k.depend dep_task_id).openDeps = k.openDeps ++ [dep_task_id] := by
  have hold : (List.range k.dep_count).map (update k.dep_task_ids k.dep_count dep_task_id) =
      (List.range k.dep_count).map k.dep_task_ids := by
    refine List.map_congr_left fun j hj => update_of_ne ?_ ..
    have := List.mem_range.mp hj
    omega
  simp [openDeps, depend, List.range_succ, hold, hd]

theorem mem_openDeps_iff (hid : task_id ≠ -1) :
    task_id ∈ k.openDeps ↔ (k.depIndex task_id).isSome := by
  simp [openDeps, depIndex, hid]

theorem openDeps_depDone (hid : task_id ≠ -1) (hi : k.depIndex task_id = some i) :
    (k.depDone i).openDeps = k.openDeps.erase task_id := by
  obtain ⟨hki, as, bs, hrange, has⟩ := List.find?_eq_some_iff_append.mp hi
  have hki : k.dep_task_ids i = task_id := by simpa using hki
  have hnd : (as ++ i :: bs).Nodup := hrange ▸ List.nodup_range
  have hkeep : ∀ j ∈ as ++ bs, update k.dep_task_ids i (-1) j = k.dep_task_ids j := by
    intro j hj
    refine update_of_ne ?_ ..
    rintro rfl
    exact (List.nodup_middle.mp hnd).notMem hj
  have hbefore : task_id ∉ (as.map k.dep_task_ids).filter (· ≠ -1) := by
    intro hmem
    obtain ⟨j, hj, heq⟩ := List.mem_map.mp (List.mem_of_mem_filter hmem)
    simpa [heq] using has j hj
  have hold : k.openDeps = (as.map k.dep_task_ids).filter (· ≠ -1) ++
      task_id :: (bs.map k.dep_task_ids).filter (· ≠ -1) := by
    rw [openDeps, hrange, List.map_append, List.map_cons, List.filter_append, hki,
      List.filter_cons_of_pos (by simpa using hid)]
  have hnew : (k.depDone i).openDeps = (as.map k.dep_task_ids).filter (· ≠ -1) ++
      (bs.map k.dep_task_ids).filter (· ≠ -1) := by
    simp only [openDeps, depDone, hrange, List.map_append, List.map_cons, List.filter_append,
      update_self]
    rw [List.map_congr_left fun j hj => hkeep j (List.mem_append_left _ hj),
      List.map_congr_left fun j hj => hkeep j (List.mem_append_right _ hj),
      List.filter_cons_of_neg (by simp)]
  rw [hnew, hold, List.erase_append_right _ hbefore, List.erase_cons_head]

theorem openDeps_check (hid : task_id ≠ -1) :
    (k.check task_id).openDeps = k.openDeps.erase task_id := by
  unfold check
  cases hi : k.depIndex task_id with
  | none =>
    refine (List.erase_of_not_mem ?_).symm
    rw [mem_openDeps_iff hid, hi]
    exact Bool.false_ne_true
  | some i => exact openDeps_depDone hid hi

theorem check_task_id (task_id : Int) (k : Task) : (k.check task_id).task_id = k.task_id := by
  unfold check
  split <;> rfl

theorem Sound.check (h : k.Sound) (hid : task_id ≠ -1) : (k.check task_id).Sound := by
  refine ⟨?_, ?_⟩
  · rw [openDeps_check hid]
    have hcount := h.count
    unfold Task.check
    cases hi : k.depIndex task_id with
    | none =>
      have hmem : task_id ∉ k.openDeps := by
        rw [mem_openDeps_iff hid, hi]
        exact Bool.false_ne_true
      rw [List.erase_of_not_mem hmem]
      exact hcount
    | some i =>
      have hmem : task_id ∈ k.openDeps := by
        rw [mem_openDeps_iff hid, hi]
        rfl
      have hpos := List.length_pos_of_mem hmem
      rw [List.length_erase_of_mem hmem]
      dsimp only [depDone]
      omega
  · rw [openDeps_check hid]
    exact h.nodup.erase task_id

theorem checked_iff (h : k.Sound) (hid : task_id ≠ -1) :
    k.checked task_id = true ↔ task_id ∈ k.openDeps ∧ k.openDeps.erase task_id = [] := by
  have hcount := h.count
  rw [mem_openDeps_iff hid]
  unfold checked
  cases hi : k.depIndex task_id with
  | none => simp
  | some i =>
    have hmem : task_id ∈ k.openDeps := by
      rw [mem_openDeps_iff hid, hi]
      rfl
    rw [← List.length_eq_zero_iff, List.length_erase_of_mem hmem]
    simp only [decide_eq_true_eq, Option.isSome_some, true_and]
    omega

theorem Sound.depend (h : k.Sound) (hd : dep_task_id ≠ -1) (hnew : dep_task_id ∉ k.openDeps) :
    (k.depend dep_task_id).Sound := by
  refine ⟨?_, ?_⟩
  · have hcount := h.count
    rw [openDeps_depend hd]
    simp only [Task.depend, List.length_append, List.length_singleton]
    omega
  · rw [openDeps_depend hd]
    exact h.nodup.append (List.nodup_singleton _) (by simpa using hnew)

end Task

/-! ### All tasks -/

/-- A task with this id exists. -/
def View.HasId (v : View) (task_id : Int) : Prop :=
  ∃ t, v.alloc t = true ∧ (v.task t).task_id = task_id

/-- `deps` are the pairs that `embassy_add_dependency` has accepted. -/
structure View.Deps (v : View) (deps : List (Int × Int)) : Prop where
  counter : 0 ≤ v.task_counter ∧ v.task_counter < 2 ^ 31
  range : ∀ t, v.alloc t = true → 0 ≤ (v.task t).task_id ∧ (v.task t).task_id < v.task_counter
  ids : ∀ t u, v.alloc t = true → v.alloc u = true → (v.task t).task_id = (v.task u).task_id → t = u
  pairs : ∀ p ∈ deps, p.1 < v.task_counter ∧ p.2 < v.task_counter
  sound : ∀ t, v.alloc t = true → (v.task t).Sound
  opens : ∀ t, v.alloc t = true → ∀ d,
    d ∈ (v.task t).openDeps ↔ ((v.task t).task_id, d) ∈ deps ∧ v.HasId d
  blocked : ∀ t, v.alloc t = true → (t ∈ v.queue .blocked ↔ (v.task t).openDeps ≠ [])

variable {v w : View} {q : Queue} {t : Nat} {deps : List (Int × Int)} {out : List Nat} {n : Int}

theorem View.HasId.congr (halloc : w.alloc = v.alloc)
    (hid : ∀ t, (w.task t).task_id = (v.task t).task_id) : w.HasId task_id ↔ v.HasId task_id := by
  unfold View.HasId
  rw [halloc]
  simp only [hid]

section
variable (hnd : (v.queue .blocked).Nodup)
include hnd

/-- What `embassy_check_dependencies` does to a task on the blocked list. -/
theorem View.checkDependencies_task (ht : t ∈ v.queue .blocked) :
    ((v.task t).check task_id).SameDeps ((v.checkDependencies task_id).task t) := by
  unfold checkDependencies
  rw [sweep_task (q := .blocked) nofun hnd, if_pos ht]
  exact Task.swept_sameDeps ..

theorem View.checkDependencies_other (ht : t ∉ v.queue .blocked) :
    (v.checkDependencies task_id).task t = v.task t := by
  unfold checkDependencies
  rw [sweep_task (q := .blocked) nofun hnd, if_neg ht]

theorem View.checkDependencies_blocked :
    t ∈ (v.checkDependencies task_id).queue .blocked ↔
      t ∈ v.queue .blocked ∧ (v.task t).checked task_id = false := by
  unfold checkDependencies
  rw [sweep_eq (q := .blocked) nofun hnd,
    swept_queue (d := .blocked) nofun, if_pos rfl, List.mem_filter]
  refine and_congr_right fun ht => ?_
  simp [ht]

end

namespace View.Deps

section
variable (h : v.Deps deps)
include h

theorem ne_neg_one (ht : v.alloc t = true) : (v.task t).task_id ≠ -1 := by
  have := (h.range t ht).1
  omega

theorem congr (halloc : w.alloc = v.alloc) (hcounter : w.task_counter = v.task_counter)
    (hblocked : ∀ t, t ∈ w.queue .blocked ↔ t ∈ v.queue .blocked)
    (htask : ∀ t, (v.task t).SameDeps (w.task t)) : w.Deps deps := by
  have hid : ∀ t, (w.task t).task_id = (v.task t).task_id := fun t => (htask t).task_id
  refine ⟨hcounter ▸ h.counter, fun t ht => ?_, fun t u ht hu heq => ?_, hcounter ▸ h.pairs,
    fun t ht => ?_, fun t ht d => ?_, fun t ht => ?_⟩
  · rw [hid, hcounter]
    exact h.range t (halloc ▸ ht)
  · rw [hid, hid] at heq
    exact h.ids t u (halloc ▸ ht) (halloc ▸ hu) heq
  · exact (htask t).sound (h.sound t (halloc ▸ ht))
  · rw [(htask t).openDeps, hid, View.HasId.congr halloc hid]
    exact h.opens t (halloc ▸ ht) d
  · rw [(htask t).openDeps, hblocked]
    exact h.blocked t (halloc ▸ ht)

/-- A task ends, and every other task no longer waits for it. -/
theorem ends (ht : v.alloc t = true)
    (halloc : w.alloc = update v.alloc t false)
    (hcounter : w.task_counter = v.task_counter)
    (hid : ∀ u ≠ t, (w.task u).task_id = (v.task u).task_id)
    (hsound : ∀ u ≠ t, v.alloc u = true → (w.task u).Sound)
    (hopens : ∀ u ≠ t, v.alloc u = true → ∀ d,
      d ∈ (w.task u).openDeps ↔ d ∈ (v.task u).openDeps ∧ d ≠ (v.task t).task_id)
    (hblocked : ∀ u ≠ t, v.alloc u = true → (u ∈ w.queue .blocked ↔ (w.task u).openDeps ≠ [])) :
    w.Deps deps := by
  have hold : ∀ u, w.alloc u = true → u ≠ t ∧ v.alloc u = true := by
    intro u hu
    rw [halloc, update_apply] at hu
    split at hu
    · exact absurd hu Bool.false_ne_true
    · exact ⟨‹_›, hu⟩
  have hhas : ∀ d, w.HasId d ↔ v.HasId d ∧ d ≠ (v.task t).task_id := by
    intro d
    constructor
    · rintro ⟨u, hu, rfl⟩
      obtain ⟨hne, hu⟩ := hold u hu
      rw [hid u hne]
      exact ⟨⟨u, hu, rfl⟩, fun heq => hne (h.ids u t hu ht heq)⟩
    · rintro ⟨⟨u, hu, rfl⟩, hne⟩
      have hut : u ≠ t := fun heq => hne (by rw [heq])
      refine ⟨u, ?_, hid u hut⟩
      rw [halloc, update_of_ne hut]
      exact hu
  refine ⟨hcounter ▸ h.counter, fun u hu => ?_, fun u x hu hx heq => ?_, hcounter ▸ h.pairs,
    fun u hu => ?_, fun u hu d => ?_, fun u hu => ?_⟩
  · obtain ⟨hne, hu⟩ := hold u hu
    rw [hid u hne, hcounter]
    exact h.range u hu
  · obtain ⟨hne, hu⟩ := hold u hu
    obtain ⟨hne', hx⟩ := hold x hx
    rw [hid u hne, hid x hne'] at heq
    exact h.ids u x hu hx heq
  · obtain ⟨hne, hu⟩ := hold u hu
    exact hsound u hne hu
  · obtain ⟨hne, hu⟩ := hold u hu
    rw [hopens u hne hu, hid u hne, hhas, h.opens u hu, and_assoc]
  · obtain ⟨hne, hu⟩ := hold u hu
    exact hblocked u hne hu

/-- The tasks that depend on the one that ends are told. -/
theorem checkEnds (ht : v.alloc t = true) {u : View} (halloc : u.alloc = v.alloc)
    (hcounter : u.task_counter = v.task_counter) (htask : u.task = v.task)
    (hlist : u.queue .blocked = v.queue .blocked) (hnd : (v.queue .blocked).Nodup) :
    View.Deps { u.checkDependencies (u.task t).task_id with
      alloc := update (u.checkDependencies (u.task t).task_id).alloc t false } deps := by
  have hid := h.ne_neg_one ht
  have hin : ∀ x ∈ v.queue .blocked, ((v.task x).check (v.task t).task_id).SameDeps
      ((u.checkDependencies (u.task t).task_id).task x) := by
    intro x hx
    rw [← htask]
    exact checkDependencies_task (hlist ▸ hnd) (hlist ▸ hx)
  have hother : ∀ x ∉ v.queue .blocked,
      (u.checkDependencies (u.task t).task_id).task x = v.task x := by
    intro x hx
    rw [checkDependencies_other (hlist ▸ hnd) (hlist ▸ hx), htask]
  have hmem : ∀ x, x ∈ (u.checkDependencies (u.task t).task_id).queue .blocked ↔
      x ∈ v.queue .blocked ∧ (v.task x).checked (v.task t).task_id = false := by
    intro x
    rw [checkDependencies_blocked (hlist ▸ hnd), hlist, htask]
  refine h.ends ht ?_ ?_ (fun x hne => ?_) (fun x hne hx => ?_) (fun x hne hx d => ?_)
    fun x hne hx => ?_
  · exact congrArg (update · t false) (sweep_alloc.trans halloc)
  · exact sweep_counter.trans hcounter
  · by_cases hb : x ∈ v.queue .blocked
    · exact (hin x hb).task_id.trans (Task.check_task_id ..)
    · exact congrArg Task.task_id (hother x hb)
  · by_cases hb : x ∈ v.queue .blocked
    · exact (hin x hb).sound ((h.sound x hx).check hid)
    · exact (hother x hb) ▸ h.sound x hx
  · by_cases hb : x ∈ v.queue .blocked
    · refine (congrArg (d ∈ ·) (hin x hb).openDeps).to_iff.trans ?_
      rw [Task.openDeps_check hid, (h.sound x hx).nodup.mem_erase_iff, and_comm]
    · have hnil : (v.task x).openDeps = [] := not_not.mp fun hne => hb ((h.blocked x hx).mpr hne)
      refine (congrArg (d ∈ Task.openDeps ·) (hother x hb)).to_iff.trans ?_
      rw [hnil]
      simp
  · refine (hmem x).trans ?_
    by_cases hb : x ∈ v.queue .blocked
    · have hne := (h.blocked x hx).mp hb
      refine Iff.trans ?_ (not_congr (congrArg (· = []) (hin x hb).openDeps).to_iff).symm
      rw [and_iff_right hb, ← Bool.not_eq_true, not_iff_not, Task.checked_iff (h.sound x hx) hid,
        Task.openDeps_check hid]
      refine and_iff_right_of_imp fun hnil => ?_
      by_contra hnot
      rw [List.erase_of_not_mem hnot] at hnil
      exact hne hnil
    · refine iff_of_false (fun hand => hb hand.1) ?_
      refine (not_congr (congrArg (Task.openDeps · = []) (hother x hb)).to_iff).not.mpr ?_
      exact fun hne => hb ((h.blocked x hx).mpr hne)

theorem destroyAt (ht : v.alloc t = true) (hnd : ∀ q, (v.queue q).Nodup)
    (honly : ∀ d, t ∈ v.queue d → d = q)
    (hquiet : q = .blocked → ∀ u ≠ t, v.alloc u = true → (v.task t).task_id ∉ (v.task u).openDeps) :
    (v.destroyAt q t).Deps deps := by
  unfold View.destroyAt
  dsimp only
  by_cases hb : q = .blocked
  · subst hb
    refine h.ends ht rfl rfl (fun u _ => rfl) (fun u _ hu => h.sound u hu) (fun u hne hu d => ?_)
      fun u hne hu => ?_
    · refine (and_iff_left_of_imp ?_).symm
      rintro hd rfl
      exact hquiet rfl u hne hu hd
    · refine (mem_remove (hnd .blocked) honly .blocked u).trans ?_
      rw [and_iff_left hne]
      exact h.blocked u hu
  · rw [if_pos hb]
    refine h.checkEnds ht rfl rfl rfl ?_ (hnd .blocked)
    exact update_of_ne (Ne.symm hb) ..

/-- A new id names nothing yet. -/
theorem create {page : Nat} (hpage : v.alloc page = false) (hqueue : page ∉ v.queue .blocked)
    (hcounter : v.task_counter < 2 ^ 31 - 1) (priority : Int) :
    (v.create page priority).Deps deps := by
  have halloc : (v.create page priority).alloc = update v.alloc page true := rfl
  have hnext : (v.create page priority).task_counter = v.task_counter + 1 := by
    have hlow := h.counter.1
    refine Int.bmod_eq_of_le ?_ ?_ <;> omega
  have hself : (v.create page priority).task page = .fresh v.task_counter priority := by
    simp [View.create, View.addReady, View.setTask, View.setQueue, Task.fresh]
  have hother : ∀ x ≠ page, (v.create page priority).task x = v.task x := by
    intro x hx
    simp [View.create, View.addReady, View.setTask, View.setQueue, hx]
  have hcases : ∀ x, (v.create page priority).alloc x = true →
      x = page ∨ x ≠ page ∧ v.alloc x = true := by
    intro x hx
    rw [halloc, update_apply] at hx
    split at hx
    · exact .inl ‹_›
    · exact .inr ⟨‹_›, hx⟩
  have hrange : ∀ x, v.alloc x = true → (v.task x).task_id ≠ v.task_counter := by
    intro x hx
    have := (h.range x hx).2
    omega
  have hhas : ∀ d ≠ v.task_counter, (v.create page priority).HasId d ↔ v.HasId d := by
    intro d hd
    constructor
    · rintro ⟨x, hx, rfl⟩
      rcases hcases x hx with rfl | ⟨hne, hx⟩
      · rw [hself] at hd
        exact absurd rfl hd
      · rw [hother x hne]
        exact ⟨x, hx, rfl⟩
    · rintro ⟨x, hx, rfl⟩
      have hne : x ≠ page := by
        rintro rfl
        exact Bool.false_ne_true (hpage.symm.trans hx)
      refine ⟨x, ?_, by rw [hother x hne]⟩
      rw [halloc, update_of_ne hne]
      exact hx
  refine ⟨?_, fun x hx => ?_, fun x y hx hy heq => ?_, fun p hp => ?_, fun x hx => ?_,
    fun x hx d => ?_, fun x hx => ?_⟩
  · have hlow := h.counter.1
    omega
  · rcases hcases x hx with rfl | ⟨hne, hx⟩
    · have hlow := h.counter.1
      rw [hself]
      dsimp only [Task.fresh]
      omega
    · have := h.range x hx
      rw [hother x hne]
      omega
  · rcases hcases x hx with rfl | ⟨hne, hx⟩
    · rcases hcases y hy with rfl | ⟨hne', hy⟩
      · rfl
      · rw [hself, hother y hne'] at heq
        exact absurd heq.symm (hrange y hy)
    · rcases hcases y hy with rfl | ⟨hne', hy⟩
      · rw [hself, hother x hne] at heq
        exact absurd heq (hrange x ‹_›)
      · rw [hother x hne, hother y hne'] at heq
        exact h.ids x y ‹_› hy heq
  · have := h.pairs p hp
    omega
  · rcases hcases x hx with rfl | ⟨hne, hx⟩
    · rw [hself]
      exact ⟨rfl, List.nodup_nil⟩
    · rw [hother x hne]
      exact h.sound x hx
  · rcases hcases x hx with rfl | ⟨hne, hx⟩
    · rw [hself]
      refine iff_of_false (List.not_mem_nil) fun hand => ?_
      exact absurd (h.pairs _ hand.1).1 (Int.lt_irrefl _)
    · rw [hother x hne, h.opens x hx]
      refine and_congr_right fun hp => ?_
      have := (h.pairs _ hp).2
      exact (hhas d (by dsimp only at this; omega)).symm
  · rcases hcases x hx with rfl | ⟨hne, hx⟩
    · rw [hself]
      exact iff_of_false hqueue fun hne => hne rfl
    · rw [hother x hne]
      exact h.blocked x hx

/-- A task that is ready or blocked gets a dependency that it does not have yet. -/
theorem depend (ht : v.alloc t = true) (hd : v.HasId dep_task_id)
    (hnew : dep_task_id ∉ (v.task t).openDeps) (halloc : w.alloc = v.alloc)
    (hcounter : w.task_counter = v.task_counter)
    (hself : ((v.task t).depend dep_task_id).SameDeps (w.task t))
    (hother : ∀ x ≠ t, w.task x = v.task x) (hin : t ∈ w.queue .blocked)
    (hblocked : ∀ x ≠ t, x ∈ w.queue .blocked ↔ x ∈ v.queue .blocked) :
    w.Deps (((v.task t).task_id, dep_task_id) :: deps) := by
  obtain ⟨y, hy, hyd⟩ := hd
  have hdne : dep_task_id ≠ -1 := hyd ▸ h.ne_neg_one hy
  have hopen : (w.task t).openDeps = (v.task t).openDeps ++ [dep_task_id] := by
    rw [hself.openDeps, Task.openDeps_depend hdne]
  have hid : ∀ x, (w.task x).task_id = (v.task x).task_id := by
    intro x
    by_cases hx : x = t
    · subst hx
      exact hself.task_id
    · rw [hother x hx]
  have hhas : ∀ d, w.HasId d ↔ v.HasId d := fun d => View.HasId.congr halloc hid
  refine ⟨hcounter ▸ h.counter, fun x hx => ?_, fun x x' hx hx' heq => ?_, fun p hp => ?_,
    fun x hx => ?_, fun x hx d => ?_, fun x hx => ?_⟩
  · rw [hid, hcounter]
    exact h.range x (halloc ▸ hx)
  · rw [hid, hid] at heq
    exact h.ids x x' (halloc ▸ hx) (halloc ▸ hx') heq
  · rw [hcounter]
    rcases List.mem_cons.mp hp with rfl | hp
    · exact ⟨(h.range t ht).2, hyd ▸ (h.range y hy).2⟩
    · exact h.pairs p hp
  · by_cases hxt : x = t
    · subst hxt
      exact hself.sound ((h.sound x ht).depend hdne hnew)
    · rw [hother x hxt]
      exact h.sound x (halloc ▸ hx)
  · rw [hid, hhas]
    by_cases hxt : x = t
    · subst hxt
      rw [hopen, List.mem_append, List.mem_singleton, h.opens x ht, List.mem_cons]
      constructor
      · rintro (⟨hp, hhas⟩ | rfl)
        · exact ⟨.inr hp, hhas⟩
        · exact ⟨.inl rfl, ⟨y, hy, hyd⟩⟩
      · rintro ⟨heq | hp, hhas⟩
        · exact .inr (Prod.mk.inj heq).2
        · exact .inl ⟨hp, hhas⟩
    · rw [hother x hxt, h.opens x (halloc ▸ hx), List.mem_cons]
      refine and_congr_left fun _ => (or_iff_right fun heq => ?_).symm
      exact hxt (h.ids x t (halloc ▸ hx) ht (Prod.mk.inj heq).1)
  · by_cases hxt : x = t
    · subst hxt
      rw [hopen]
      exact iff_of_true hin (by simp)
    · rw [hblocked x hxt, hother x hxt]
      exact h.blocked x (halloc ▸ hx)

end

end View.Deps

/-! ### The machine -/

/-- The scheduler, and the dependencies that `embassy_add_dependency` has accepted. -/
structure Machine where
  state : State
  deps : List (Int × Int)

/-- A call that returned `r` is recorded. -/
def record (deps : List (Int × Int)) (r : Int) : Op → List (Int × Int)
  | .addDependency task_id dep_task_id => if r = 0 then (task_id, dep_task_id) :: deps else deps
  | _ => deps

def Machine.step (x : Machine) (a : Op) : Option Machine :=
  if a.Possible x.state then
    (a.exec x.state).toOption.map fun (r, s) => ⟨s, record x.deps r a⟩
  else none

def MSteps (x : Machine) (a : Op) (y : Machine) : Prop := x.step a = some y

def Machine.init : Machine := ⟨.init, []⟩

def OnBlocked (s : State) (task_id : Int) : Prop :=
  (result (findIn .blocked task_id) s).join.isSome
  deriving Decidable

/-- If the task is on the blocked list, no other task there depends on it. -/
def Quiet (x : Machine) (task_id : Int) : Prop :=
  OnBlocked x.state task_id → ∀ p ∈ x.deps, p.2 = task_id → p.1 ≠ task_id → ¬ OnBlocked x.state p.1
  deriving Decidable

/-- Ids are not used up; a dependency is given to a task that does not wait and does not have it
yet; and a task that ends on the blocked list has no other that depends on it. -/
def Orderly (x : Machine) : Op → Prop
  | .create _ _ => x.state.task_counter < 2 ^ 31 - 1
  | .addDependency task_id dep_task_id =>
    (result (embassy_find_task task_id) x.state).all fun t =>
      t = 0 || (x.state.task t).state ≠ .WAITING && (x.state.task t).depIndex dep_task_id = none
  | .destroy task_id => Quiet x task_id
  | .scheduleEnd t => Quiet x (x.state.task t).task_id
  | _ => True

instance (x : Machine) : DecidablePred (Orderly x) := fun a => by
  refine a.casesOn ?_ ?_ ?_ ?_ ?_ ?_ ?_ ?_ ?_ ?_ <;> intros <;> dsimp only [Orderly] <;>
    infer_instance

def Respects (x : Machine) (a : Op) : Prop := Regular x.state a ∧ Orderly x a
  deriving Decidable

variable {y : Machine} {a : Op}

theorem MSteps.cases {x : Machine} (h : MSteps x a y) :
    a.Possible x.state ∧ ∃ r, a.exec x.state = .ok (r, y.state) ∧ y.deps = record x.deps r a := by
  unfold MSteps Machine.step at h
  split at h
  · refine ⟨‹_›, ?_⟩
    cases hexec : a.exec x.state with
    | error e =>
      rw [hexec] at h
      exact absurd h nofun
    | ok r =>
      rw [hexec] at h
      obtain rfl := Option.some.inj h
      exact ⟨r.1, rfl, rfl⟩
  · exact absurd h nofun

/-! ### One call -/

variable {x : Machine}

namespace View.Deps

section
variable (h : v.Deps deps)
include h

theorem alike (hw : v.Alike w) : w.Deps deps := by
  obtain ⟨_, _, hcore⟩ := hw.core
  refine h.congr hw.alloc (by rw [hcore]) (fun t => by rw [hw.queue]) fun t => ?_
  obtain ⟨_, heq⟩ := hw.task t
  rw [heq]
  exact ⟨rfl, rfl, rfl, rfl⟩

theorem updateWaiting (hnd : (v.queue .waiting).Nodup) (ticks : BitVec 32) :
    (v.updateWaiting ticks).Deps deps := by
  refine h.congr sweep_alloc sweep_counter (fun t => ?_) fun t => ?_
  · unfold View.updateWaiting
    rw [sweep_eq (q := .waiting) nofun hnd, swept_queue (d := .blocked) nofun,
      if_neg nofun]
  · unfold View.updateWaiting
    rw [sweep_task (q := .waiting) nofun hnd]
    split
    · exact Task.swept_sameDeps id _ _
    · exact .rfl

theorem set {f : Task → Task} (hf : ∀ k : Task, k.SameDeps (f k)) : (v.setTask t f).Deps deps := by
  refine h.congr rfl rfl (fun _ => Iff.rfl) fun u => ?_
  by_cases hu : u = t
  · subst hu
    rw [setTask_self]
    exact hf _
  · rw [setTask_of_ne _ _ hu]
    exact .rfl

theorem getNext : v.getNext.Deps deps := by
  unfold View.getNext
  split
  · exact h.congr rfl rfl (fun _ => Iff.rfl) fun _ => .rfl
  rename_i i t _
  have hset := h.set (t := t) (f := fun k => { k with state := .RUNNING })
    fun _ => ⟨rfl, rfl, rfl, rfl⟩
  refine hset.congr rfl rfl (fun u => ?_) fun _ => .rfl
  have hlist : (v.remove (.ready i) t).queue .blocked = v.queue .blocked :=
    v.setQueue_of_ne _ nofun
  exact iff_of_eq (congrArg (u ∈ ·) hlist)

theorem scheduleBegin (hw : v.Whole) (ticks : BitVec 32) : (v.scheduleBegin ticks).2.Deps deps := by
  have hboost := View.Alike.periodicBoost v ticks
  have hnd := (hw.alike hboost).holds.nodup .waiting
  have hnext := ((h.alike hboost).updateWaiting hnd ticks).getNext
  unfold View.scheduleBegin
  dsimp only
  split
  · exact hnext.congr rfl rfl (fun _ => Iff.rfl) fun _ => .rfl
  · exact hnext

theorem yield : v.yield.Deps deps := by
  unfold View.yield
  split
  · have hset := h.set (t := v.current_task) (f := fun k => { k with state := .READY })
      fun _ => ⟨rfl, rfl, rfl, rfl⟩
    refine hset.congr rfl rfl (fun u => ?_) fun _ => .rfl
    exact iff_of_eq (congrArg (u ∈ ·)
      (addReady_queue (t := v.current_task) (d := .blocked) nofun))
  · exact h

theorem delay (milliseconds : Int) (ticks : BitVec 32) :
    (v.delay milliseconds ticks).Deps deps := by
  unfold View.delay
  split
  · have hset := h.set (t := v.current_task) (f := fun k =>
      { k with wake_time := wakeTime milliseconds ticks, state := .WAITING })
      fun _ => ⟨rfl, rfl, rfl, rfl⟩
    refine hset.congr rfl rfl (fun u => ?_) fun _ => .rfl
    have hlist : (v.setQueue .waiting (v.current_task :: v.queue .waiting)).queue .blocked =
        v.queue .blocked := v.setQueue_of_ne _ nofun
    exact iff_of_eq (congrArg (u ∈ ·) hlist)
  · exact h

end

end View.Deps

variable {s : State}

theorem Repr.onBlocked_iff (h : Repr s v) :
    OnBlocked s task_id ↔ ∃ t ∈ v.queue .blocked, (v.task t).task_id = task_id := by
  unfold OnBlocked
  rcases h.findIn_cases .blocked task_id with ⟨hnone, heq⟩ | ⟨m, t, m', hq, hid, _, heq⟩
  · rw [result, heq]
    refine iff_of_false Bool.false_ne_true ?_
    rintro ⟨t, ht, hid⟩
    simpa [hid] using List.find?_eq_none.mp hnone t ht
  · rw [result, heq]
    exact iff_of_true rfl ⟨t, by rw [hq]; simp, hid⟩

section
variable (h : v.Deps x.deps) (hv : Repr x.state v)
include h hv

/-- No other task has an open dependency on a task that may end on the blocked list. -/
theorem View.Deps.quiet (ht : t ∈ v.queue .blocked) (hq : Quiet x (v.task t).task_id) (u : Nat)
    (hne : u ≠ t) (hu : v.alloc u = true) : (v.task t).task_id ∉ (v.task u).openDeps := by
  intro hmem
  have hblocked := (h.blocked u hu).mpr (List.ne_nil_of_mem hmem)
  have hdep := ((h.opens u hu _).mp hmem).1
  have hid : (v.task u).task_id ≠ (v.task t).task_id :=
    fun heq => hne (h.ids u t hu (hv.allocated _ t ht) heq)
  exact hq (hv.onBlocked_iff.mpr ⟨t, ht, rfl⟩) _ hdep rfl hid
    (hv.onBlocked_iff.mpr ⟨u, hblocked, rfl⟩)

theorem View.Deps.destroy (hw : v.Whole) (hq : Quiet x task_id) :
    (v.destroy task_id).Deps x.deps := by
  unfold View.destroy
  split
  · exact h
  · rename_i q t hloc
    obtain ⟨ht, rfl, _⟩ := locate_some hloc
    refine h.destroyAt (hv.allocated q t ht) hw.holds.nodup
      (fun d hd => hw.holds.disjoint d q t hd ht) fun hb u hne hu => ?_
    exact h.quiet hv (hb ▸ ht) hq u hne hu

theorem View.Deps.scheduleEnd (hw : v.Whole) (hloc : v.locate (v.task t).task_id = some (q, t))
    (hq : Quiet x (v.task t).task_id) : (v.scheduleEnd t).Deps x.deps := by
  have ht := (locate_some hloc).1
  have hframes : View.Deps { v with frames := v.frames.erase t } x.deps :=
    h.congr rfl rfl (fun _ => Iff.rfl) fun _ => .rfl
  have hdone := hframes.set (t := t) (f := fun k => { k with state := .COMPLETED })
    fun _ => ⟨rfl, rfl, rfl, rfl⟩
  rw [scheduleEnd_eq hloc]
  refine hdone.destroyAt (hv.allocated q t ht) hw.holds.nodup
    (fun d hd => hw.holds.disjoint d q t hd ht) fun hb u hne hu => ?_
  rw [setTask_self, setTask_of_ne _ _ hne]
  exact h.quiet hv (hb ▸ ht) hq u hne hu

theorem View.Deps.addDependency (hw : v.Whole)
    (ho : Orderly x (.addDependency task_id dep_task_id)) :
    (v.addDependency task_id dep_task_id).2.Deps
      (record x.deps (v.addDependency task_id dep_task_id).1
        (.addDependency task_id dep_task_id)) := by
  unfold View.addDependency
  split
  · exact h
  rename_i q t hloc
  obtain ⟨ht, rfl, _⟩ := locate_some hloc
  have hal := hv.allocated q t ht
  split
  · exact h
  rename_i hno
  obtain ⟨_, hdep⟩ := not_or.mp hno
  obtain ⟨⟨d, y⟩, hy⟩ := Option.ne_none_iff_exists'.mp hdep
  obtain ⟨hmem, rfl, _⟩ := locate_some hy
  obtain ⟨hwait, hdeps⟩ : (v.task t).state ≠ .WAITING ∧
      (v.task t).depIndex (v.task y).task_id = none := by
    rw [Orderly, result, hv.find_some hloc, hv.task_eq] at ho
    simpa [hv.ne_zero ht] using ho
  have hnew : (v.task y).task_id ∉ (v.task t).openDeps := by
    rw [Task.mem_openDeps_iff (h.ne_neg_one (hv.allocated d y hmem)), hdeps]
    exact Bool.false_ne_true
  have hhas : v.HasId (v.task y).task_id := ⟨y, hv.allocated d y hmem, rfl⟩
  have hself := v.setTask_self t fun k => k.depend (v.task y).task_id
  dsimp only [record]
  by_cases hstate : (v.task t).state = .READY
  · rw [if_pos hstate]
    have hqb : q ≠ .blocked := by
      rintro rfl
      rw [hw.holds.state .blocked t ht] at hstate
      cases hstate
    have hlist : ((v.setTask t fun k => k.depend (v.task y).task_id).block q t).queue .blocked =
        t :: v.queue .blocked := block_blocked _ t hqb
    refine h.depend hal hhas hnew rfl rfl ?_ (fun z hz => ?_) ?_ fun z hz => ?_
    · rw [block_self, hself]
      exact ⟨rfl, rfl, rfl, rfl⟩
    · exact (update_of_ne hz ..).trans (v.setTask_of_ne (fun k => k.depend (v.task y).task_id) hz)
    · exact List.mem_cons_self
    · rw [hlist, List.mem_cons, or_iff_right hz]
  · rw [if_neg hstate]
    refine h.depend hal hhas hnew rfl rfl (hself ▸ .rfl) (fun z hz => ?_) ?_ fun z _ => Iff.rfl
    · exact v.setTask_of_ne _ hz
    · have hq := hw.holds.state q t ht
      cases q with
      | ready i => exact absurd hq hstate
      | waiting => exact absurd hq hwait
      | blocked => exact ht

theorem View.Deps.exec (hw : v.Whole) (ha : a.Possible x.state) (hc : Respects x a) :
    (v.exec a).2.Deps (record x.deps (v.exec a).1 a) := by
  obtain ⟨hr, ho⟩ := hc
  cases a with
  | create page priority =>
    have hpage : v.alloc page = false := (congrFun (congrArg Core.alloc hv.core) page).symm.trans ha
    have hcounter : v.task_counter < 2 ^ 31 - 1 :=
      (congrArg Core.task_counter hv.core).symm.trans_lt ho
    have hout : page ∉ v.queue .blocked := fun hmem =>
      Bool.false_ne_true (hpage.symm.trans (hv.allocated _ page hmem))
    dsimp only [exec, record]
    split
    · exact h
    · exact h.create hpage hout hcounter priority
  | destroy task_id => exact h.destroy hv hw ho
  | addDependency task_id dep_task_id => exact h.addDependency hv hw ho
  | boostPriority task_id => exact h.alike (.boostPriority v task_id)
  | periodicBoost ticks => exact h.alike (.periodicBoost v ticks)
  | updateWaiting ticks => exact h.updateWaiting (hw.holds.nodup .waiting) ticks
  | scheduleBegin ticks => exact h.scheduleBegin hw ticks
  | scheduleEnd t =>
    obtain ⟨q, hloc⟩ := hv.regular_end hr
    have hq : Quiet x (v.task t).task_id := by
      rw [← hv.task_eq]
      exact ho
    exact h.scheduleEnd hv hw hloc hq
  | yield => exact h.yield
  | delay milliseconds ticks => exact h.delay milliseconds ticks

end

/-! ### Runs -/

/-- The links are lists on which both invariants hold. -/
def Machine.Ok (x : Machine) : Prop := ∃ v, Repr x.state v ∧ v.Whole ∧ v.Deps x.deps

theorem Machine.Ok.step (h : x.Ok) (hst : Guarded Respects MSteps x a y) : y.Ok := by
  obtain ⟨v, hv, hw, hd⟩ := h
  obtain ⟨hc, hst⟩ := hst
  obtain ⟨ha, r, hexec, hdeps⟩ := hst.cases
  obtain ⟨⟨u, hu, hsim⟩, hwhole⟩ := hv.exec_sim hw ha hc.1
  obtain ⟨rfl, rfl⟩ := Prod.mk.inj (Except.ok.inj (hu.symm.trans hexec))
  exact ⟨_, hsim, hwhole, hdeps ▸ hd.exec hv hw ha hc⟩

theorem Machine.Ok.init : Machine.init.Ok := by
  obtain ⟨v, hv, hw⟩ := Repr.init
  have hnone : ∀ t, v.alloc t ≠ true := by
    intro t ht
    exact Bool.false_ne_true (hv.alloc_of ht)
  have hcounter : v.task_counter = 0 := (congrArg Core.task_counter hv.core).symm
  refine ⟨v, hv, hw, ⟨?_, fun t ht => ?_, fun t _ ht => ?_, nofun, fun t ht => ?_, fun t ht => ?_,
    fun t ht => ?_⟩⟩
  · rw [hcounter]
    decide
  all_goals exact absurd ht (hnone t)

/-- A task with this id was created and has neither ended nor been destroyed. -/
def State.LiveId (s : State) (task_id : Int) : Prop :=
  ∃ t, s.Live t ∧ (s.task t).task_id = task_id

theorem View.Whole.liveId_iff (hw : v.Whole) (h : Repr s v) :
    s.LiveId task_id ↔ v.HasId task_id := by
  refine exists_congr fun t => ?_
  rw [hw.live_iff h, mem_tasks, ← hw.holds.alloc t, h.task_eq]

/-- A task that is not on the blocked list depends on no task that exists. -/
theorem View.Deps.no_live (h : v.Deps deps) (ht : v.alloc t = true) (hb : t ∉ v.queue .blocked)
    {d : Int} (hd : ((v.task t).task_id, d) ∈ deps) : ¬ v.HasId d := by
  intro hhas
  have hmem := (h.opens t ht d).mpr ⟨hd, hhas⟩
  exact hb ((h.blocked t ht).mpr (List.ne_nil_of_mem hmem))

theorem dependencies_respected {xs : List Op} {x : Machine}
    (h : Run (Guarded Respects MSteps) .init xs x) :
    (∀ ticks y, Guarded Respects MSteps x (.scheduleBegin ticks) y → y.state.current_task ≠ 0 →
      ∀ d, ((y.state.task y.state.current_task).task_id, d) ∈ y.deps → ¬ y.state.LiveId d) ∧
    ∀ l, Chain x.state.next 0 (x.state.head .blocked) l → ∀ t ∈ l,
      ∃ d, ((x.state.task t).task_id, d) ∈ x.deps ∧ x.state.LiveId d := by
  have hok : x.Ok := h.invariant (fun _ _ _ hst hx => hx.step hst) Machine.Ok.init
  constructor
  · intro ticks y hst hcur d hd hlive
    obtain ⟨v, hv, hw, hdeps⟩ := hok.step hst
    rw [hw.liveId_iff hv] at hlive
    rw [hv.current_task_eq, hv.task_eq] at hd
    rw [hv.current_task_eq] at hcur
    obtain ⟨hal, hout⟩ := Repr.current_out hw hcur
    exact hdeps.no_live hal (hout .blocked) hd hlive
  · intro l hl t ht
    obtain ⟨v, hv, hw, hdeps⟩ := hok
    obtain rfl := hl.unique (hv.threads.chain .blocked)
    have hal := hv.allocated .blocked t ht
    obtain ⟨d, hd⟩ := List.exists_mem_of_ne_nil _ ((hdeps.blocked t hal).mp ht)
    obtain ⟨hpair, hhas⟩ := (hdeps.opens t hal d).mp hd
    rw [hv.task_eq]
    exact ⟨d, hpair, (hw.liveId_iff hv).mpr hhas⟩

/-- Of three tasks the first depends on the others; when the second has run and the third is
destroyed it runs. -/
theorem dependencies_respected_three : ∃ xs x y, Run (Guarded Respects MSteps) .init xs x ∧
    Guarded Respects MSteps x (.scheduleBegin 9) y ∧ y.state.current_task = 1 ∧
    (0, 1) ∈ y.deps ∧ ¬ y.state.LiveId 1 := by
  obtain ⟨x, hrun, hr, y, hy, hcur, hid, hdep⟩ : ∃ x, Run (Guarded Respects MSteps) .init
      [.create 1 2, .create 2 1, .create 3 3, .addDependency 0 1, .addDependency 0 2,
        .scheduleBegin 5, .yield, .scheduleEnd 2, .destroy 2] x ∧ Respects x (.scheduleBegin 9) ∧
      ∃ y ∈ x.step (.scheduleBegin 9), y.state.current_task = 1 ∧ (y.state.task 1).task_id = 0 ∧
        (0, 1) ∈ y.deps := Run.exists_foldlM
  refine ⟨_, x, y, hrun, ⟨hr, hy⟩, hcur, hdep, ?_⟩
  refine (dependencies_respected hrun).1 9 y ⟨hr, hy⟩ (by rw [hcur]; decide) 1 ?_
  rw [hcur, hid]
  exact hdep

/-- When no task runs, a task exists only if it is found. -/
theorem View.Whole.not_liveId (hw : v.Whole) (h : Repr s v) (hcur : s.current_task = 0)
    (hfind : result (embassy_find_task task_id) s = some 0) : ¬ s.LiveId task_id := by
  rw [hw.liveId_iff h]
  rintro ⟨t, ht, hid⟩
  rw [h.current_task_eq] at hcur
  have hmem := (hw.holds.alloc t).mp ht
  rw [current_zero hcur] at hmem
  obtain ⟨q, hq⟩ := hmem.resolve_right List.not_mem_nil
  cases hloc : v.locate task_id with
  | some r =>
    rw [result, h.find_some hloc] at hfind
    exact h.ne_zero (locate_some hloc).1 (Option.some.inj hfind)
  | none =>
    have hnone := List.findSome?_eq_none_iff.mp hloc q q.mem_all
    rw [Option.map_eq_none_iff, List.find?_eq_none] at hnone
    simpa [hid] using hnone t hq

/-- A run of the machine is one of the scheduler. -/
theorem run_state {C : Machine → Op → Prop} {xs : List Op} {x : Machine}
    (h : Run (Guarded C MSteps) x xs y) (hC : ∀ x a, C x a → Regular x.state a) :
    Run (Guarded Regular Steps) x.state xs y.state := by
  induction h with
  | nil x => exact .nil x.state
  | cons hst _ ih =>
    obtain ⟨ha, r, hexec, _⟩ := hst.2.cases
    exact .cons ⟨hC _ _ hst.1, ha, r, hexec⟩ ih

/-- A task that waits for time is given a dependency and runs; a task stays blocked when its
dependency is destroyed on the blocked list, and when it was given the dependency twice. -/
theorem waiting_task_runs_early :
    (∃ xs x y, Run MSteps .init xs x ∧ MSteps x (.scheduleBegin 9) y ∧
      y.state.current_task = 1 ∧ ((y.state.task 1).task_id, 1) ∈ y.deps ∧ y.state.LiveId 1) ∧
    ∀ xs ∈ ([[.create 1 2, .create 2 2, .create 3 2, .addDependency 1 2, .addDependency 0 1,
        .destroy 1], [.create 1 2, .create 2 2, .addDependency 0 1, .addDependency 0 1,
        .destroy 1]] : List (List Op)),
      ∃ x, Run MSteps .init xs x ∧ x.state.head .blocked = 1 ∧
        ∀ d, ((x.state.task 1).task_id, d) ∈ x.deps → ¬ x.state.LiveId d := by
  constructor
  · obtain ⟨x, hrun, y, hy, hcur, hdep, hlive, hid⟩ : ∃ x, Run MSteps .init
        [.create 1 2, .create 2 3, .scheduleBegin 5, .delay 0 5, .addDependency 0 1] x ∧
        ∃ y ∈ x.step (.scheduleBegin 9), y.state.current_task = 1 ∧
          ((y.state.task 1).task_id, 1) ∈ y.deps ∧
          (y.state.alloc 2 = true ∧ (y.state.task 2).state ≠ .COMPLETED) ∧
          (y.state.task 2).task_id = 1 := Run.exists_exec
    exact ⟨_, x, y, hrun, hy, hcur, hdep, 2, hlive, hid⟩
  · intro xs hxs
    obtain ⟨x, hrun, hhead, hdeps, hcur, hfind⟩ : ∃ x,
        Run (Guarded (fun x a => Regular x.state a) MSteps) .init xs x ∧
        x.state.head .blocked = 1 ∧ (∀ p ∈ x.deps, p.1 = (x.state.task 1).task_id → p.2 = 1) ∧
        x.state.current_task = 0 ∧ result (embassy_find_task 1) x.state = some 0 := by
      refine Run.exists_foldlM ?_
      revert xs
      decide +kernel
    obtain ⟨v, hv, hw⟩ := regular_run (run_state hrun fun _ _ hr => hr)
    refine ⟨x, hrun.mono fun _ _ _ hst => hst.2, hhead, fun d hd => ?_⟩
    obtain rfl : d = 1 := hdeps _ hd rfl
    exact hw.not_liveId hv hcur hfind

end Yyds.Embassy
