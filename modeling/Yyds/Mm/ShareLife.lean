import Yyds.Mm.SharePages

/-! How long shared memory lives: who is attached, and when its pages are freed. -/
namespace Yyds.Shm

open Lib Ipc Function Procs ShmSys
open Mm (ProcId)
open Kernel (int)

namespace ShmSys

/-- The pages that a call needs are there. -/
def Supplied (s : ShmSys) : Act → Prop
  | .shmgetat _ _ num mem => Fresh s.live mem num
  | _ => True

instance (s : ShmSys) (a : Act) : Decidable (s.Supplied a) := by
  cases a <;> dsimp only [ShmSys.Supplied] <;> infer_instance

def next (s : ShmSys) (a : Act) : Option ShmSys :=
  if s.procs.Active a.caller ∧ s.Supplied a then (s.exec a).toOption else none

def Steps (s : ShmSys) (a : Act) (t : ShmSys) : Prop := s.next a = some t

/-- How many processes are attached. -/
def users (s : ShmSys) (k : Fin SHMKEYS) : Nat := s.procs.count fun own => bit k own.shmkeymask

end ShmSys

/-- No key in the mask loses its last process. -/
def Spares (s : ShmSys) (mask : BitVec 32) : Prop :=
  ∀ k, bit k mask = true → 2 ≤ (s.shmtab k).refcount
  deriving Decidable

instance (s : ShmSys) (table : Table) (key num : Nat) : Decidable (Vacant s table key num) :=
  inferInstanceAs (Decidable (_ → ∀ _ : Fin SHMKEYS, _ → _ → ∀ i < num, _))

/-- A key that is not used is created with a page, below the bound where nothing is mapped, and one
that is used is attached only once. The keys that `exec` and `wait` release have other processes;
the first process executes only without an area, and only children without one are waited for. -/
def Careful (s : ShmSys) : Act → Prop
  | .shmgetat _ key num _ => Vacant s (s.table 0) key num ∧ ∀ k : Fin SHMKEYS, k.val = key →
      if (s.shmtab k).refcount = 0 then num ≠ 0
      else bit k s.first.shmkeymask = false
  | .exec p _ => (p = 0 → s.first.shm = KERNBASE) ∧
      Spares s s.first.shmkeymask
  | .wait p copied => copied = true → (s.procs.zombie p (-1)).all fun np =>
      (s.procs.proc np).own.shm = KERNBASE ∧ Spares s (s.procs.proc np).own.shmkeymask
  | _ => True

instance (s : ShmSys) : DecidablePred (Careful s) := fun a => by
  cases a <;> dsimp only [Careful] <;> infer_instance

/-- From `s` to `t` a page of a used key is freed once if the key loses its last process, and else
not. -/
def FreedAtZero (s t : ShmSys) : Prop :=
  ∀ k, (s.shmtab k).refcount ≠ 0 → ∀ i < (s.shmtab k).pagenum,
    t.freed.count ((s.shmtab k).physaddr i) = s.freed.count ((s.shmtab k).physaddr i) +
      if s.users k ≠ 0 ∧ t.users k = 0 then 1 else 0

/-- The counts are right, and the pages of the used keys are not free. -/
structure Kept (s : ShmSys) : Prop extends Area s where
  init : s.procs.Active 0
  tables : ∀ q, (s.procs.proc q).state ≠ .UNUSED → (s.procs.proc q).own.pagetable.isSome
  counts : ∀ k, (s.shmtab k).refcount = s.users k
  pages : ∀ k, (s.shmtab k).refcount ≠ 0 → ∀ i < (s.shmtab k).pagenum,
    (s.shmtab k).physaddr i ∈ s.live

/-- No page in use is freed and no key loses its last process. -/
structure Quiet (s t : ShmSys) : Prop where
  freed : ∃ l, t.freed = s.freed ++ l ∧ ∀ pa ∈ l, pa ∉ s.live
  users : ∀ k, s.users k ≠ 0 → t.users k ≠ 0

section Steps

variable {s t : ShmSys} {p : ProcId} {k : Fin SHMKEYS}

theorem Quiet.of_same (hfreed : t.freed = s.freed) (husers : ∀ k, s.users k ≤ t.users k) :
    Quiet s t := by
  refine ⟨⟨[], ?_, nofun⟩, fun k hk => ?_⟩
  · rw [hfreed, List.append_nil]
  · have := husers k
    omega

theorem Kept.freedAtZero (h : Kept s) (hq : Quiet s t) : FreedAtZero s t := by
  intro k hk i hi
  obtain ⟨l, hl, hnot⟩ := hq.freed
  have hcount := h.counts k
  have husers := hq.users k (by omega)
  have hzero : l.count ((s.shmtab k).physaddr i) = 0 :=
    List.count_eq_zero.mpr fun hmem => hnot _ hmem (h.pages k hk i hi)
  rw [if_neg fun hc => husers hc.2, hl, List.count_append, hzero]

/-! #### `shmgetat` -/

variable {shm : Nat} {m : Pages} {np : ProcId} {mask : BitVec 32}

theorem users_enter {tab : ShareMem} (hinit : s.procs.Active 0)
    (hbit : bit k s.first.shmkeymask = false) (j : Fin SHMKEYS) :
    (s.enter k tab shm m).users j = s.users j + if j = k then 1 else 0 := by
  have hu := s.procs.count_setOwn (C := fun own => bit j own.shmkeymask) hinit.1
    { s.first with
      pagetable := some m.table
      shm := shm
      shmkeymask := s.first.shmkeymask ||| 1#32 <<< k.val }
  rw [bit_or (by decide)] at hu
  change (s.enter k tab shm m).users j + _ = s.users j + _ at hu
  by_cases hj : j = k
  · subst hj
    simpa [hbit] using hu
  · by_cases hb : bit j s.first.shmkeymask = true
    · simpa [hb, hj] using hu
    · simpa [hb, hj] using hu

theorem Kept.enter (h : Kept s) {tab : ShareMem} (ha : Area (s.enter k tab shm m))
    (hbit : bit k s.first.shmkeymask = false) (href : tab.refcount = s.users k + 1)
    (hpages : ∀ i < tab.pagenum, tab.physaddr i ∈ m.live) (hlive : ∀ pa ∈ s.live, pa ∈ m.live)
    (hfreed : m.freed = s.freed) : Kept (s.enter k tab shm m) ∧ Quiet s (s.enter k tab shm m) := by
  have husers : ∀ j, (s.enter k tab shm m).users j = s.users j + if j = k then 1 else 0 :=
    users_enter h.init hbit
  have htab : (s.enter k tab shm m).shmtab = update s.shmtab k tab := rfl
  refine ⟨⟨ha, active_setOwn h.init _ _, ?_, ?_, ?_⟩, .of_same hfreed fun j => ?_⟩
  · intro q hq
    by_cases hq0 : q = 0
    · subst hq0
      exact ha.pagetable
    · rw [enter_other hq0] at hq ⊢
      exact h.tables q hq
  · intro j
    rw [husers, htab]
    by_cases hj : j = k
    · subst hj
      rw [update_self, if_pos rfl, href]
      rfl
    · rw [update_of_ne hj, if_neg hj]
      exact h.counts j
  · intro j
    rw [htab]
    by_cases hj : j = k
    · subst hj
      rw [update_self]
      exact fun _ => hpages
    · rw [update_of_ne hj]
      exact fun hu i hi => hlive _ (h.pages j hu i hi)
  · rw [husers]
    exact Nat.le_add_right _ _

theorem Kept.unused (h : Kept s) (hk : (s.shmtab k).refcount = 0) {q : ProcId}
    (hq : (s.procs.proc q).state ≠ .UNUSED) : bit k (s.procs.proc q).own.shmkeymask = false := by
  by_contra hb
  have hpos : 0 < s.users k := refs_pos (x := q) (Entry.holder_iff.mpr ⟨hq, by simpa using hb⟩)
  have hcount := h.counts k
  omega

theorem Kept.shmgetat (h : Kept s) {key num : Nat} {mem : Mem} {r : Option Nat}
    (hfresh : Fresh s.live mem num) (hc : Careful s (.shmgetat p key num mem))
    (hg : shmgetat s key num mem = .ok (r, t)) : Kept t ∧ Quiet s t := by
  obtain ⟨hvacant, hkey⟩ := hc
  cases shmgetat_got h.ready hfresh hvacant hg with
  | fails hl =>
    exact ⟨{ h with }, ⟨_, rfl, hl⟩, fun _ hk => hk⟩
  | @creates k m hk hnum href hm =>
    have hnum0 := hkey k hk
    rw [if_pos href] at hnum0
    have hcount := h.counts k
    refine h.enter (h.toArea.enter hfresh hm) (h.unused href h.init.1) ?_ ?_ ?_ hm.freed
    · rw [shmadd, if_neg hnum0, ← hcount, href]
      rfl
    · rw [shmadd, if_neg hnum0]
      intro i hi
      dsimp only at hi ⊢
      rw [if_pos hi, hm.live]
      exact .inr ⟨i, hi, rfl⟩
    · exact fun pa hpa => (hm.live pa).mpr (.inl hpa)
  | @attaches k hk href =>
    have hbit := hkey k hk
    rw [if_neg href] at hbit
    refine h.enter h.toArea.enter_same hbit ?_ (h.pages k href) (fun _ hpa => hpa) rfl
    dsimp only
    rw [h.counts]
    exact s.procs.int_count_succ _

/-! #### Processes come and go -/

theorem Area.same (h : Area s) (hown : t.first = s.first)
    (hlive : t.live = s.live) (hothers : ∀ q ≠ 0, ∀ a, t.table q a = none) : Area t := by
  have htable : t.table 0 = s.table 0 := by
    funext a
    exact congrArg (fun own : Own => own.pagetable.bind fun t => t a) hown
  constructor
  · rw [hown]
    exact h.pagetable
  · rw [hown]
    exact h.aligned
  · rw [hown]
    exact h.le
  · rw [hown, htable]
    exact h.mapped
  · rw [htable, hlive]
    exact h.page
  · rw [htable]
    exact h.inj
  · exact hothers

/-- The bound of the first process is at the top again. -/
theorem Area.reset (h : Area s) (hpt : t.first.pagetable.isSome)
    (hshm : t.first.shm = KERNBASE) (hlive : t.live = s.live)
    (htable : ∀ a pa, t.table 0 a = some pa → s.table 0 a = some pa)
    (hothers : ∀ q ≠ 0, ∀ a, t.table q a = none) : Area t := by
  constructor
  · exact hpt
  · rw [hshm]
    decide
  · exact hshm.le
  · omega
  · intro a pa ha
    rw [hlive]
    exact h.page a pa (htable a pa ha)
  · intro a b pa ha hb
    exact h.inj a b pa (htable a pa ha) (htable b pa hb)
  · exact hothers

theorem Kept.exit (h : Kept s) (hp : s.procs.Active p) (h0 : p ≠ 0) :
    Kept { s with procs := s.procs.exit p } ∧ Quiet s { s with procs := s.procs.exit p } := by
  have hown : ∀ q, ((s.procs.exit p).proc q).own = (s.procs.proc q).own := exit_own
  have husers : ∀ k, users { s with procs := s.procs.exit p } k = s.users k :=
    fun k => count_exit hp
  refine ⟨⟨h.toArea.same (hown 0) rfl ?_, ?_, ?_, ?_, h.pages⟩, .of_same rfl fun k => (husers k).ge⟩
  · intro q hq a
    rw [table, hown]
    exact h.others q hq a
  · exact active_exit h.init (Ne.symm h0)
  · intro q hq
    rw [hown]
    exact h.tables q ((exit_unused hp q).not.mp hq)
  · intro k
    rw [husers]
    exact h.counts k

/-- A process comes that is attached as the first one is. -/
theorem Kept.share (h : Kept s) {e : Entry Own} (hnp : (s.procs.proc np).state = .UNUSED)
    (he : e.state ≠ .UNUSED) (htable : e.own.pagetable = some fun _ => none)
    (hmask : e.own.shmkeymask = s.first.shmkeymask) : let t := { s with
      procs := s.procs.set np e
      shmtab := shmaddcount s.shmtab s.first.shmkeymask }
    Kept t ∧ Quiet s t := by
  intro t
  have hne : (0 : ProcId) ≠ np := by
    rintro rfl
    exact h.init.1 hnp
  have husers : ∀ k, t.users k =
      s.users k + if bit k s.first.shmkeymask = true then 1 else 0 := by
    intro k
    rw [← hmask]
    exact count_come hnp he
  have hself : t.procs.proc np = e := set_self
  have hother : ∀ q ≠ np, t.procs.proc q = s.procs.proc q := fun q hq => set_of_ne hq
  have htab : t.shmtab = shmaddcount s.shmtab s.first.shmkeymask := rfl
  refine ⟨⟨h.toArea.same ?_ rfl ?_, active_of_eq h.init (hother 0 hne), ?_, ?_, ?_⟩,
    .of_same rfl fun k => ?_⟩
  · exact congrArg Entry.own (hother 0 hne)
  · intro q hq a
    by_cases hqn : q = np
    · rw [table, hqn, hself, htable]
      rfl
    · rw [table, hother q hqn]
      exact h.others q hq a
  · intro q hq
    by_cases hqn : q = np
    · rw [hqn, hself, htable]
      rfl
    · rw [hother q hqn] at hq ⊢
      exact h.tables q hq
  · intro k
    rw [husers, htab, shmaddcount]
    split
    · dsimp only
      rw [h.counts]
      exact s.procs.int_count_succ _
    · exact h.counts k
  · intro k
    rw [htab, shmaddcount]
    split
    · rename_i hb
      intro _
      apply h.pages k
      intro hzero
      rw [h.unused hzero h.init.1] at hb
      cases hb
    · exact h.pages k
  · rw [husers]
    exact Nat.le_add_right _ _

theorem Kept.allocated (h : Kept s) {r : Option ProcId} {procs : Procs Own}
    (ha : Procs.Allocated s.procs .fresh r procs) :
    Kept { s with procs } ∧ Quiet s { s with procs } := by
  have hinit := ha.same 0 h.init.1
  have husers : ∀ k, users { s with procs } k = s.users k := fun k => ha.count _
  refine ⟨⟨h.toArea.same (congrArg Entry.own hinit) rfl ?_, active_of_eq h.init hinit, ?_, ?_, h.pages⟩,
    .of_same rfl fun k => (husers k).ge⟩
  · intro q hq a
    rw [table]
    rcases ha.own q with hown | hown
    · rw [hown]
      exact h.others q hq a
    · rw [hown]
      rfl
  · intro q hq
    rcases ha.own q with hown | hown
    · rw [hown]
      exact h.tables q fun hun => hq (ha.unused q hun)
    · rw [hown]
      rfl
  · intro k
    rw [husers]
    exact h.counts k

theorem Kept.fork (h : Kept s) (trapframes pagetable copied : Bool) :
    Kept (fork s p trapframes pagetable copied).2 ∧
      Quiet s (fork s p trapframes pagetable copied).2 := by
  unfold Shm.fork
  split
  · rename_i procs halloc
    exact h.allocated (allocproc_spec halloc)
  rename_i np procs halloc
  have ha := allocproc_spec halloc
  obtain ⟨_, hun', hown⟩ := ha.found np rfl
  obtain ⟨hk, _⟩ := h.allocated ha
  split
  · obtain ⟨hk', hq⟩ := hk.share (e := { procs.proc np with
        state := .RUNNABLE
        parent := some p
        own := { (procs.proc np).own with
          sz := (procs.proc p).own.sz
          shm := (procs.proc 0).own.shm
          shmkeymask := (procs.proc 0).own.shmkeymask } }) hun' nofun
      (congrArg Own.pagetable hown) rfl
    refine ⟨hk', hq.freed, fun k hk0 => hq.users k ?_⟩
    rw [users, ha.count]
    exact hk0
  · exact h.allocated ha.freeproc

/-! #### Keys are released -/

/-- `shmtab` when the keys in the mask have each lost a process, but not the last one. -/
def released (tab : Fin SHMKEYS → ShareMem) (mask : BitVec 32) : Fin SHMKEYS → ShareMem :=
  fun k =>
    if bit k mask = true then { tab k with refcount := int ((tab k).refcount - 1) } else tab k

theorem released_congr {tab tab' : Fin SHMKEYS → ShareMem} (h : tab k = tab' k) :
    released tab mask k = released tab' mask k := by
  rw [released, h, released]

theorem dropKeys_spec {ks : List (Fin SHMKEYS)} (hks : ks.Nodup) {tab : Fin SHMKEYS → ShareMem}
    (h : ∀ k ∈ ks, bit k mask = true → int ((tab k).refcount - 1) ≠ 0) :
    dropKeys mask ks tab = .ok fun k => if k ∈ ks then released tab mask k else tab k := by
  induction ks generalizing tab with
  | nil => simp [dropKeys]
  | cons j ks ih =>
    obtain ⟨hj, hks⟩ := List.nodup_cons.mp hks
    rw [dropKeys]
    by_cases hb : bit j mask = true
    · have hdrop : dropshm (tab j) = .ok (released tab mask j) := by
        rw [released, if_pos hb]
        exact if_neg (h j List.mem_cons_self hb)
      have hother : ∀ k ∈ ks, update tab j (released tab mask j) k = tab k := by
        intro k hk
        rw [update_of_ne]
        rintro rfl
        exact hj hk
      rw [if_pos hb, hdrop]
      dsimp only
      rw [ih hks]
      · congr 1
        funext k
        by_cases hk : k ∈ ks
        · rw [if_pos hk, if_pos (List.mem_cons_of_mem _ hk)]
          exact released_congr (hother k hk)
        · by_cases hkj : k = j
          · subst hkj
            rw [if_neg hk, if_pos List.mem_cons_self, update_self]
          · simp [hk, hkj]
      · intro k hk hbk
        rw [hother k hk]
        exact h k (List.mem_cons_of_mem _ hk) hbk
    · rw [if_neg hb, ih hks fun k hk => h k (List.mem_cons_of_mem _ hk)]
      congr 1
      funext k
      by_cases hk : k ∈ ks
      · rw [if_pos hk, if_pos (List.mem_cons_of_mem _ hk)]
      · by_cases hkj : k = j
        · subst hkj
          rw [if_neg hk, if_pos List.mem_cons_self, released, if_neg hb]
        · simp [hk, hkj]

theorem Kept.dropKeys (h : Kept s) (hs : Spares s mask) :
    dropKeys mask (List.finRange SHMKEYS) s.shmtab = .ok (released s.shmtab mask) := by
  rw [dropKeys_spec (List.nodup_finRange _)]
  · simp only [List.mem_finRange, if_true]
  · intro k _ hb
    have hle := hs k hb
    rw [h.counts] at hle ⊢
    rw [users, s.procs.int_count_pred]
    change (s.users k : Int) - 1 ≠ 0
    omega

/-- A process is no longer attached to the keys in the mask. -/
theorem Kept.release (h : Kept s) (hs : Spares s mask) (ha : Area t) (hinit : t.procs.Active 0)
    (htables : ∀ q, (t.procs.proc q).state ≠ .UNUSED → (t.procs.proc q).own.pagetable.isSome)
    (htab : t.shmtab = released s.shmtab mask) (hlive : t.live = s.live)
    (hfreed : t.freed = s.freed)
    (husers : ∀ k, t.users k + (if bit k mask = true then 1 else 0) = s.users k) :
    Kept t ∧ Quiet s t := by
  refine ⟨⟨ha, hinit, htables, fun k => ?_, fun k => ?_⟩, ⟨[], ?_, nofun⟩, fun k hk => ?_⟩
  · have hu := husers k
    rw [htab, released]
    split
    · rename_i hb
      rw [if_pos hb] at hu
      rw [h.counts, users, s.procs.int_count_pred]
      change (s.users k : Int) - 1 = t.users k
      omega
    · rename_i hb
      rw [if_neg hb] at hu
      rw [h.counts]
      omega
  · rw [htab, hlive, released]
    split
    · rename_i hb
      have hle := hs k hb
      exact fun _ => h.pages k (by omega)
    · exact h.pages k
  · rw [hfreed, List.append_nil]
  · have hu := husers k
    by_cases hb : bit k mask = true
    · have hle := hs k hb
      rw [h.counts] at hle
      rw [if_pos hb] at hu
      omega
    · rw [if_neg hb] at hu
      omega

theorem deallocPages_none {newshm n : Nat} (h : ∀ a, m.table a = none) :
    deallocPages newshm n m = .ok m := by
  induction n with
  | zero => rfl
  | succ n ih =>
    rw [deallocPages, ih]
    dsimp only
    rw [deallocPage, h]

/-- The page table of a process without shared memory, or with none below `KERNBASE`. -/
theorem deallocshm_none (h0 : shm ≠ 0) (h : KERNBASE ≤ shm ∨ ∀ a, m.table a = none) :
    deallocshm m shm KERNBASE = .ok m := by
  rw [deallocshm]
  by_cases hle : KERNBASE ≤ shm
  · rw [if_pos hle]
  · rw [if_neg hle, deallocPages_none (h.resolve_left hle)]
    dsimp only
    rw [if_neg h0]

theorem Kept.exec (h : Kept s) {sz : Nat} (hp : s.procs.Active p) (hc : Careful s (.exec p sz))
    (he : execCommit s p sz = .ok t) : Kept t ∧ Quiet s t := by
  obtain ⟨hfirst, hs⟩ := hc
  obtain ⟨table, htable⟩ := Option.isSome_iff_exists.mp (h.tables p hp.1)
  have hroom := h.ready.room
  have hrel : shmrelease s (s.procs.proc p).own.pagetable s.first.shm
      s.first.shmkeymask =
      .ok { s with shmtab := released s.shmtab s.first.shmkeymask } := by
    have hnone : deallocshm ⟨table, s.live, s.freed⟩ s.first.shm KERNBASE =
        .ok ⟨table, s.live, s.freed⟩ := by
      apply deallocshm_none (by omega)
      by_cases h0 : p = 0
      · exact .inl (hfirst h0).ge
      · refine .inr fun a => ?_
        have hother := h.others p h0 a
        rw [ShmSys.table, htable] at hother
        exact hother
    rw [htable, shmrelease, hnone, h.dropKeys hs]
  rw [execCommit] at he
  rw [hrel, Except.ok.injEq] at he
  subst he
  set procs := s.procs.setOwn p
    { (s.procs.proc p).own with pagetable := some fun _ => none, sz := sz } with hprocs
  have hmask : ∀ q, (procs.proc q).own.shmkeymask = (s.procs.proc q).own.shmkeymask := by
    intro q
    rw [setOwn_own]
    split
    · rename_i hq
      rw [hq]
    · rfl
  have htables : ∀ q a pa, (procs.proc q).own.pagetable.bind (fun t => t a) = some pa →
      s.table q a = some pa := by
    intro q a pa ha
    rw [setOwn_own] at ha
    split at ha
    · cases ha
    · exact ha
  have hcount : ∀ k, procs.count (fun own => bit k own.shmkeymask) = s.users k := by
    intro k
    have hset := s.procs.count_setOwn (C := fun own => bit k own.shmkeymask) hp.1
      { (s.procs.proc p).own with pagetable := some fun _ => none, sz := sz }
    exact Nat.add_right_cancel hset
  have hsome : ∀ q, (s.procs.proc q).state ≠ .UNUSED → (procs.proc q).own.pagetable.isSome := by
    intro q hq
    rw [setOwn_own]
    split
    · rfl
    · exact h.tables q hq
  have hown : ∀ q, ((procs.setOwn 0
      { (procs.proc 0).own with shm := KERNBASE, shmkeymask := 0 }).proc q).own.pagetable =
      (procs.proc q).own.pagetable := by
    intro q
    rw [setOwn_own]
    split
    · rename_i hq
      rw [hq]
    · rfl
  refine h.release hs (h.toArea.reset ?_ ?_ rfl ?_ ?_) ?_ ?_ rfl rfl rfl ?_
  · exact hsome 0 h.init.1
  · rw [ShmSys.first, setOwn_own, if_pos rfl]
  · intro a pa ha
    exact htables 0 a pa ha
  · intro q hq a
    by_contra hne
    obtain ⟨pa, ha⟩ := Option.ne_none_iff_exists'.mp hne
    rw [ShmSys.table, hown] at ha
    have hold := htables q a pa ha
    rw [h.others q hq a] at hold
    cases hold
  · exact active_setOwn (active_setOwn h.init _ _) _ _
  · intro q hq
    rw [hown]
    rw [setOwn_state, setOwn_state] at hq
    exact hsome q hq
  · intro k
    have hset := procs.count_setOwn (C := fun own => bit k own.shmkeymask)
      (by rw [hprocs, setOwn_state]; exact h.init.1)
      { (procs.proc 0).own with shm := KERNBASE, shmkeymask := 0 }
    rw [hmask, hcount, bit_zero] at hset
    exact hset

theorem Kept.freeproc (h : Kept s) (hz : (s.procs.proc np).state = .ZOMBIE)
    (hshm : (s.procs.proc np).own.shm = KERNBASE) (hs : Spares s (s.procs.proc np).own.shmkeymask) :
    ∃ t, freeproc s np = .ok t ∧ Kept t ∧ Quiet s t := by
  have hne : (0 : ProcId) ≠ np := by
    rintro rfl
    exact h.init.2 hz
  have hrel : shmrelease s none (s.procs.proc np).own.shm (s.procs.proc np).own.shmkeymask =
      .ok { s with shmtab := released s.shmtab (s.procs.proc np).own.shmkeymask } := by
    rw [shmrelease, hshm, if_neg (lt_irrefl _), h.dropKeys hs]
  have hfree : Shm.freeproc s np = .ok { s with
      procs := (s.procs.setOwn np ⟨none, 0, KERNBASE, 0⟩).freeproc np
      shmtab := released s.shmtab (s.procs.proc np).own.shmkeymask } := by
    rw [Shm.freeproc, hrel]
  have hother : ∀ q ≠ np, ((s.procs.setOwn np ⟨none, 0, KERNBASE, 0⟩).freeproc np).proc q =
      s.procs.proc q :=
    fun q hq => (set_of_ne hq).trans (set_of_ne hq)
  refine ⟨_, hfree, h.release hs (h.toArea.same ?_ rfl ?_) ?_ ?_ rfl rfl rfl ?_⟩
  · exact congrArg Entry.own (hother 0 hne)
  · intro q hq a
    by_cases hqn : q = np
    · subst hqn
      rw [table, Procs.freeproc, set_self, setOwn, set_self]
      rfl
    · rw [table, hother q hqn]
      exact h.others q hq a
  · exact active_of_eq h.init (hother 0 hne)
  · intro q hq
    by_cases hqn : q = np
    · subst hqn
      rw [Procs.freeproc, set_self] at hq
      exact absurd rfl hq
    · rw [hother q hqn] at hq ⊢
      exact h.tables q hq
  · intro k
    have hset := s.procs.count_setOwn (C := fun own => bit k own.shmkeymask)
      (by rw [hz]; rintro ⟨⟩) ⟨none, 0, KERNBASE, 0⟩
    have hgone := count_freeproc (s := s.procs.setOwn np ⟨none, 0, KERNBASE, 0⟩)
      (C := fun own => bit k own.shmkeymask)
      (by rw [setOwn_own, if_pos rfl]; exact bit_zero k)
    rw [bit_zero, ← hgone] at hset
    exact hset

theorem Kept.wait (h : Kept s) {copied : Bool} (hc : Careful s (.wait p copied)) :
    ∃ t, wait s p copied = .ok t ∧ Kept t ∧ Quiet s t := by
  have hsame : Kept s ∧ Quiet s s := ⟨h, .of_same rfl fun _ => le_rfl⟩
  unfold Shm.wait
  split
  · exact ⟨s, rfl, hsame⟩
  rename_i np hnp
  split
  · rename_i hcopied
    have hnpc := hc hcopied
    rw [hnp, Option.all_some, decide_eq_true_eq] at hnpc
    exact h.freeproc (zombie_some hnp) hnpc.1 hnpc.2
  · exact ⟨s, rfl, hsame⟩

theorem Kept.next (h : Kept s) {a : Act} (hc : Careful s a) (hn : s.next a = some t) :
    Kept t ∧ Quiet s t := by
  unfold ShmSys.next at hn
  split at hn
  · rename_i hcond
    obtain ⟨hp, hsup⟩ := hcond
    have hexec : s.exec a = .ok t := by
      cases hx : s.exec a with
      | error e =>
        rw [hx] at hn
        cases hn
      | ok u =>
        rw [hx] at hn
        exact congrArg _ (Option.some.inj hn)
    cases a with
    | shmgetat p key num mem =>
      rw [ShmSys.exec] at hexec
      cases hg : Shm.shmgetat s key num mem with
      | error e =>
        rw [hg] at hexec
        cases hexec
      | ok x =>
        rw [hg] at hexec
        cases hexec
        exact h.shmgetat hsup hc hg
    | fork p trapframes pagetable copied =>
      cases hexec
      exact h.fork trapframes pagetable copied
    | exec p sz => exact h.exec hp hc hexec
    | exit p =>
      rw [ShmSys.exec] at hexec
      split at hexec
      · cases hexec
      · rename_i h0
        cases hexec
        exact h.exit hp h0
    | wait p copied =>
      obtain ⟨u, hu, hk⟩ := h.wait hc
      rw [ShmSys.exec, hu] at hexec
      cases hexec
      exact hk
  · cases hn

end Steps

/-! ### Runs -/

section Runs

variable {s : ShmSys}

theorem kept_boot : Kept ShmSys.boot := by
  have hzero : ∀ k, boot.users k = 0 := by
    intro k
    rw [users, count, refs_eq_zero]
    intro p hp
    obtain ⟨_, hb⟩ := Entry.holder_iff.mp hp
    rw [boot_own, bit_zero] at hb
    cases hb
  refine ⟨boot_unshared.contiguous.toArea, by decide, fun q _ => ?_, fun k => ?_, fun k hk => ?_⟩
  · rw [boot_own]
    rfl
  · rw [hzero]
    rfl
  · exact absurd rfl hk

/-- In every run of such calls the used keys have the right counts, their pages are freed once, when
the last process goes, and `freeproc` walks no page table that is gone. -/
theorem shm_lifetime {as : List Act} (h : Run (Guarded Careful ShmSys.Steps) ShmSys.boot as s) :
    (∀ k, (s.shmtab k).refcount ≠ 0 → (s.shmtab k).refcount = s.users k) ∧
      (∀ a t, Careful s a → s.Steps a t → FreedAtZero s t) ∧
      ∀ p copied, Careful s (.wait p copied) → s.exec (.wait p copied) ≠ .error .nullTable := by
  have hkept : Kept s := h.invariant (fun s a t hst hs => (hs.next hst.1 hst.2).1) kept_boot
  refine ⟨fun k _ => hkept.counts k, fun a t hc hst => ?_, fun p copied hc he => ?_⟩
  · exact hkept.freedAtZero (hkept.next hc hst).2
  · obtain ⟨t, ht, _⟩ := hkept.wait hc
    rw [exec, ht] at he
    cases he

/-- A key outlives the area of the first process, which attaches again; the second child shares the
key without an area and is waited for. -/
theorem shm_lifetime_children : ∃ s, Run (Guarded Careful ShmSys.Steps) ShmSys.boot
    [.shmgetat 0 3 1 pages, .fork 0 true true true, .exec 1 PGSIZE,
      .shmgetat 0 3 1 fun _ => none, .fork 0 true true true, .exit 2, .wait 0 true] s ∧
    (s.shmtab 3).refcount = 2 ∧ s.users 3 = 2 := by
  refine (Run.exists_foldlM).imp
    fun s ⟨hrun, href⟩ => ⟨hrun, href, ?_⟩
  have hcount := (shm_lifetime hrun).1 3 (by omega)
  omega

/-- A second call counts again; `freeproc` of a child walks the page table at 0; and `exec` of the
first process frees a page that its child is attached to. -/
theorem shm_counts_and_frees_wrong :
    (∃ s, Run ShmSys.Steps ShmSys.boot
      [.shmgetat 0 3 1 pages, .shmgetat 0 3 1 fun _ => none] s ∧
      (s.shmtab 3).refcount = 2 ∧ s.users 3 = 1) ∧
    (∃ s, Run ShmSys.Steps ShmSys.boot
      [.shmgetat 0 3 1 pages, .fork 0 true true true, .exit 1] s ∧
      s.exec (.wait 0 true) = .error .nullTable) ∧
    ∃ s, Run ShmSys.Steps ShmSys.boot
      [.shmgetat 0 3 1 pages, .fork 0 true true true, .exec 0 PGSIZE] s ∧
      (s.shmtab 3).refcount = 1 ∧ s.users 3 = 1 ∧ (s.shmtab 3).physaddr 0 ∈ s.freed := by
  refine ⟨?_, ?_, ?_⟩ <;> exact Run.exists_exec

end Runs

end Yyds.Shm
