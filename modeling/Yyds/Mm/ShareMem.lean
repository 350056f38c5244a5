import Yyds.Ipc.Procs

/-! Shared memory, `sharemem.c`, and what `fork`, `exec`, `exit` and `wait` do with it. In these
files the name `proc` is the process table, so `proc->shm` is that of the first process, whoever
calls. -/
namespace Yyds.Shm

open Lib Ipc Function
open Mm (ProcId)
open Kernel (int uint64)

def MAX_SHM_PGNUM : Nat := 4

/-- The size of `shmtab`. -/
def SHMKEYS : Nat := 8

instance : NeZero SHMKEYS := ⟨by decide⟩

/-- The pages above the memory of the process, by their addresses. -/
abbrev Table := Nat → Option Nat

/-- What `struct proc` has for shared memory; no page table is the null pointer. `shmva`, which
nothing reads, is left out. -/
structure Own where
  pagetable : Option Table
  sz : Nat
  shm : Nat
  shmkeymask : BitVec 32

structure ShareMem where
  refcount : Int
  pagenum : Nat
  physaddr : Nat → Nat

/-- The pages `live` have been allocated and not been freed; `kfree` was called for `freed`. -/
structure ShmSys where
  procs : Procs Own
  shmtab : Fin SHMKEYS → ShareMem
  live : Finset Nat
  freed : List Nat

/-- The fields of `proc`, the first process. -/
abbrev ShmSys.first (s : ShmSys) : Own := (s.procs.proc 0).own

/-- How the kernel stops: `remap` and `walk` are messages of `panic`, as are those of `deallocshm`
for a page 0 and of `exit` for the first process. A walk of the page table at 0 and a load through a
pointer that is the entry for a page of RAM are loads from addresses the kernel does not map. -/
inductive Fault
  | remap
  | walk
  | nullPage
  | initExiting
  | nullTable
  | wildLoad
deriving DecidableEq

/-- An `int` that is returned for `x` and taken as a `uint64`. -/
def returned (x : Nat) : Nat := uint64 (int x)

/-! ### Page tables -/

/-- One page table, and the allocator. -/
structure Pages where
  table : Table
  live : Finset Nat
  freed : List Nat

def Pages.kfree (m : Pages) (pa : Nat) : Pages :=
  { m with live := m.live.erase pa, freed := m.freed ++ [pa] }

/-- One page of `deallocshm`. -/
def deallocPage (m : Pages) (a : Nat) : Except Fault Pages :=
  match m.table a with
  | none => .ok m
  | some pa =>
    if pa = 0 then .error .nullPage
    else .ok { m.kfree pa with table := update m.table a none }

/-- The `n` pages below `newshm`, from above. -/
def deallocPages (newshm : Nat) : Nat → Pages → Except Fault Pages
  | 0, m => .ok m
  | n + 1, m =>
    match deallocPages newshm n m with
    | .error e => .error e
    | .ok m => deallocPage m (newshm - (n + 1) * PGSIZE)

/-- `newshm` is a page address; from 0 the loop runs on below. -/
def deallocshm (m : Pages) (oldshm newshm : Nat) : Except Fault Pages :=
  if newshm ≤ oldshm then .ok m
  else
    match deallocPages newshm ((newshm - oldshm) / PGSIZE) m with
    | .error e => .error e
    | .ok m => if oldshm = 0 then .error .walk else .ok m

/-- What `kalloc` gives for one page, and whether `mappages` gets the tables it needs. -/
abbrev Mem := Nat → Option (Nat × Bool)

/-- `phyaddr[i]` -/
def Mem.page (mem : Mem) (i : Nat) : Nat := ((mem i).map Prod.fst).getD 0

/-- One page of `allocshm`; the result says whether it is there. -/
def allocPage (m : Pages) (a : Nat) : Option (Nat × Bool) → Except Fault (Bool × Pages)
  | none => .ok (false, m)
  | some (pa, room) =>
    let m := { m with live := insert pa m.live }
    if (m.table a).isSome then .error .remap
    else if room then .ok (true, { m with table := update m.table a (some pa) })
    else .ok (false, m.kfree pa)

def allocPages (mem : Mem) (newshm : Nat) : Nat → Pages → Except Fault (Bool × Pages)
  | 0, m => .ok (true, m)
  | n + 1, m =>
    match allocPages mem newshm n m with
    | .ok (true, m) => allocPage m (newshm + n * PGSIZE) (mem n)
    | r => r

/-- The result 0 is a failure. -/
def allocshm (mem : Mem) (m : Pages) (oldshm newshm sz : Nat) : Except Fault (Nat × Pages) :=
  if oldshm % PGSIZE ≠ 0 ∨ newshm % PGSIZE ≠ 0 ∨ KERNBASE < oldshm ∨ newshm < sz then .ok (0, m)
  else
    match allocPages mem newshm ((oldshm - newshm) / PGSIZE) m with
    | .error e => .error e
    | .ok (true, m) => .ok (returned newshm, m)
    | .ok (false, m) =>
      match deallocshm m newshm oldshm with
      | .error e => .error e
      | .ok m => .ok (0, m)

def mapPages (physaddr : Nat → Nat) (room : Nat → Bool) (newshm : Nat) :
    Nat → Pages → Except Fault (Bool × Pages)
  | 0, m => .ok (true, m)
  | n + 1, m =>
    match mapPages physaddr room newshm n m with
    | .ok (true, m) =>
      let a := newshm + n * PGSIZE
      if (m.table a).isSome then .error .remap
      else if room n then
        .ok (true, { m with table := update m.table a (some (physaddr n)) })
      else .ok (false, m)
    | r => r

def mapshm (m : Pages) (oldshm newshm sz : Nat) (physaddr : Nat → Nat) (room : Nat → Bool) :
    Except Fault (Nat × Pages) :=
  if oldshm % PGSIZE ≠ 0 ∨ newshm % PGSIZE ≠ 0 ∨ KERNBASE < oldshm ∨ newshm < sz then .ok (0, m)
  else
    match mapPages physaddr room newshm ((oldshm - newshm) / PGSIZE) m with
    | .error e => .error e
    | .ok (done, m) => .ok (if done then returned newshm else 0, m)

/-! ### The table of shared memory -/

namespace ShmSys

def boot : ShmSys where
  procs := .boot ⟨some fun _ => none, PGSIZE, KERNBASE, 0⟩
  shmtab _ := ⟨0, 0, fun _ => 0⟩
  live := ∅
  freed := []

/-- The first process and the allocator have changed. -/
def setFirst (s : ShmSys) (own : Own) (m : Pages) : ShmSys :=
  { s with
    procs := s.procs.setOwn 0 { own with pagetable := some m.table }
    live := m.live
    freed := m.freed }

end ShmSys

/-- Without pages nothing is entered. -/
def shmadd (m : ShareMem) (num : Nat) (physaddr : Nat → Nat) : ShareMem :=
  if num = 0 then m
  else
    { refcount := 1
      pagenum := num
      physaddr := fun i => if i < num then physaddr i else m.physaddr i }

/-- The first process is attached, with `shm` as its new bound. -/
def ShmSys.enter (s : ShmSys) (key : Fin SHMKEYS) (tab : ShareMem) (shm : Nat) (m : Pages) :
    ShmSys :=
  let own := s.first
  { s.setFirst { own with shm := shm, shmkeymask := own.shmkeymask ||| 1#32 <<< key.val } m with
    shmtab := update s.shmtab key tab }

/-- The end of `shmgetat`: the result 0 of `allocshm` or `mapshm` is a failure. -/
def finish (s : ShmSys) (key : Fin SHMKEYS) (tab : ShareMem) (shm : Nat) (m : Pages) :
    Option Nat × ShmSys :=
  if shm = 0 then (none, s.setFirst s.first m)
  else (some shm, s.enter key tab (shm % 2 ^ 32) m)

/-- The result `none` is `(void *)-1`. -/
def shmgetat (s : ShmSys) (key num : Nat) (mem : Mem) : Except Fault (Option Nat × ShmSys) :=
  if h : key < SHMKEYS ∧ num ≤ MAX_SHM_PGNUM then
    let key : Fin SHMKEYS := ⟨key, h.1⟩
    let own := s.first
    let tab := s.shmtab key
    match own.pagetable with
    | none => .error .nullTable
    | some table =>
      if tab.refcount = 0 then
        let newshm := (own.shm + 2 ^ 64 - num * PGSIZE) % 2 ^ 64
        match allocshm mem ⟨table, s.live, s.freed⟩ own.shm newshm own.sz with
        | .error e => .error e
        | .ok (shm, m) => .ok (finish s key (shmadd tab num mem.page) shm m)
      else
        let room i := (mem i).isSome
        match mapshm ⟨table, s.live, s.freed⟩ own.shm own.shm own.sz tab.physaddr room with
        | .error e => .error e
        | .ok (shm, m) =>
          .ok (finish s key { tab with refcount := int (tab.refcount + 1) } shm m)
  else .ok (none, s)

def shmaddcount (tab : Fin SHMKEYS → ShareMem) (mask : BitVec 32) : Fin SHMKEYS → ShareMem :=
  fun k => if bit k mask then { tab k with refcount := int ((tab k).refcount + 1) } else tab k

/-- It takes the entries for the pages as pointers. -/
def shmrm (m : ShareMem) : Except Fault ShareMem :=
  if m.pagenum = 0 then .ok { m with refcount := 0 } else .error .wildLoad

/-- One process less is attached. -/
def dropshm (m : ShareMem) : Except Fault ShareMem :=
  let m := { m with refcount := int (m.refcount - 1) }
  if m.refcount = 0 then shmrm m else .ok m

def dropKeys (mask : BitVec 32) :
    List (Fin SHMKEYS) → (Fin SHMKEYS → ShareMem) → Except Fault (Fin SHMKEYS → ShareMem)
  | [], tab => .ok tab
  | k :: ks, tab =>
    if bit k mask then
      match dropshm (tab k) with
      | .error e => .error e
      | .ok m => dropKeys mask ks (update tab k m)
    else dropKeys mask ks tab

/-- The result has the allocator and `shmtab` changed. -/
def shmrelease (s : ShmSys) (pagetable : Option Table) (shm : Nat) (mask : BitVec 32) :
    Except Fault ShmSys :=
  let released : Except Fault Pages :=
    match pagetable with
    | some table => deallocshm ⟨table, s.live, s.freed⟩ shm KERNBASE
    | none => if shm < KERNBASE then .error .nullTable else .ok ⟨fun _ => none, s.live, s.freed⟩
  match released with
  | .error e => .error e
  | .ok m =>
    match dropKeys mask (List.finRange SHMKEYS) s.shmtab with
    | .error e => .error e
    | .ok shmtab => .ok { s with shmtab, live := m.live, freed := m.freed }

/-! ### Processes -/

/-- What `allocproc` leaves in an entry. -/
def Own.fresh : Own := ⟨some fun _ => none, 0, KERNBASE, 0⟩

/-- The result is the new process. -/
def fork (s : ShmSys) (p : ProcId) (trapframes pagetable copied : Bool) : Option ProcId × ShmSys :=
  match s.procs.allocproc .fresh trapframes pagetable with
  | (none, procs) => (none, { s with procs })
  | (some np, procs) =>
    if copied then
      let first := (procs.proc 0).own
      let own : Own :=
        { (procs.proc np).own with
          sz := (procs.proc p).own.sz, shm := first.shm, shmkeymask := first.shmkeymask }
      let child := { procs.proc np with state := .RUNNABLE, parent := some p, own := own }
      (some np, { s with
        procs := procs.set np child, shmtab := shmaddcount s.shmtab first.shmkeymask })
    else (none, { s with procs := procs.freeproc np })

/-- `exec` once the new image, of size `sz`, is there. -/
def execCommit (s : ShmSys) (p : ProcId) (sz : Nat) : Except Fault ShmSys :=
  let old := (s.procs.proc p).own
  let first := s.first
  match shmrelease s old.pagetable first.shm first.shmkeymask with
  | .error e => .error e
  | .ok s =>
    let procs := s.procs.setOwn p { old with pagetable := some fun _ => none, sz := sz }
    .ok { s with
      procs := procs.setOwn 0 { (procs.proc 0).own with shm := KERNBASE, shmkeymask := 0 } }

/-- `shmrelease` comes when `pagetable` is 0 already. -/
def freeproc (s : ShmSys) (np : ProcId) : Except Fault ShmSys :=
  let own := (s.procs.proc np).own
  match shmrelease s none own.shm own.shmkeymask with
  | .error e => .error e
  | .ok s => .ok { s with procs := (s.procs.setOwn np ⟨none, 0, KERNBASE, 0⟩).freeproc np }

/-- `copied`: the exit status can be copied to the parent. -/
def wait (s : ShmSys) (p : ProcId) (copied : Bool) : Except Fault ShmSys :=
  match s.procs.zombie p (-1) with
  | none => .ok s
  | some np => if copied then freeproc s np else .ok s

inductive Act
  | shmgetat (p : ProcId) (key num : Nat) (mem : Mem)
  | fork (p : ProcId) (trapframes pagetable copied : Bool)
  | exec (p : ProcId) (sz : Nat)
  | exit (p : ProcId)
  | wait (p : ProcId) (copied : Bool)

/-- The process that makes a call. -/
def Act.caller : Act → ProcId
  | .shmgetat p _ _ _ | .fork p _ _ _ | .exec p _ | .exit p | .wait p _ => p

namespace ShmSys

def exec (s : ShmSys) : Act → Except Fault ShmSys
  | .shmgetat _ key num mem => (Shm.shmgetat s key num mem).map Prod.snd
  | .fork p trapframes pagetable copied => .ok (Shm.fork s p trapframes pagetable copied).2
  | .exec p sz => execCommit s p sz
  | .exit p => if p = 0 then .error .initExiting else .ok { s with procs := s.procs.exit p }
  | .wait p copied => Shm.wait s p copied

end ShmSys

/-- A page of RAM. -/
def IsPage (pa : Nat) : Prop := pa % PGSIZE = 0 ∧ KERNBASE ≤ pa ∧ pa < PHYSTOP
  deriving Decidable

/-- `kalloc` gives pages that no one has. -/
def Fresh (live : Finset Nat) (mem : Mem) (num : Nat) : Prop :=
  (∀ i < num, (mem i).all fun x => IsPage x.1 ∧ x.1 ∉ live) ∧
    ∀ i < num, ∀ j < num, i ≠ j → (mem i).all fun x => (mem j).all fun y => x.1 ≠ y.1

instance (live : Finset Nat) (mem : Mem) (num : Nat) : Decidable (Fresh live mem num) :=
  inferInstanceAs (Decidable (_ ∧ _))

/-! ### What the loops do -/

section Loops

variable {m m' : Pages} {mem : Mem} {newshm oldshm sz n : Nat}

variable {live : Finset Nat} {i pa k : Nat}

theorem Fresh.spec (h : Fresh live mem n) (hi : i < n) {x : Nat × Bool} (hx : mem i = some x) :
    IsPage x.1 ∧ x.1 ∉ live := by
  have hall := h.1 i hi
  rw [hx, Option.all_some, decide_eq_true_eq] at hall
  exact hall

theorem Fresh.distinct (h : Fresh live mem n) {j : Nat} (hi : i < n) (hj : j < n)
    {x y : Nat × Bool} (hx : mem i = some x) (hy : mem j = some y) (he : x.1 = y.1) : i = j := by
  by_contra hne
  have hall := h.2 i hi j hj hne
  rw [hx, hy, Option.all_some, Option.all_some, decide_eq_true_eq] at hall
  exact hall he

theorem Mem.page_some {x : Nat × Bool} (h : mem i = some x) : mem.page i = x.1 := by
  simp [Mem.page, h]

/-- The first `n` pages from `newshm` are there. -/
structure Mapped (mem : Mem) (newshm n : Nat) (m m' : Pages) : Prop where
  got : ∀ i < n, (mem i).isSome
  inside : ∀ i < n, m'.table (newshm + i * PGSIZE) = some (mem.page i)
  outside : ∀ a, (∀ i < n, a ≠ newshm + i * PGSIZE) → m'.table a = m.table a
  live : ∀ pa, pa ∈ m'.live ↔ pa ∈ m.live ∨ ∃ i < n, pa = mem.page i
  freed : m'.freed = m.freed

theorem Mapped.zero : Mapped mem newshm 0 m m where
  got := nofun
  inside := nofun
  outside _ _ := rfl
  live _ := ⟨Or.inl, fun h => h.resolve_right fun ⟨_, hi, _⟩ => absurd hi (Nat.not_lt_zero _)⟩
  freed := rfl

theorem Mapped.succ (h : Mapped mem newshm n m m') {room : Bool} (hn : mem n = some (pa, room)) :
    Mapped mem newshm (n + 1) m
      { m' with
        live := insert pa m'.live
        table := update m'.table (newshm + n * PGSIZE) (some pa) } := by
  have hpage : mem.page n = pa := Mem.page_some hn
  have hne : ∀ i < n, newshm + i * PGSIZE ≠ newshm + n * PGSIZE := by
    simp only [PGSIZE]
    omega
  constructor
  · intro i hi
    rcases Nat.lt_succ_iff_lt_or_eq.mp hi with hlt | rfl
    · exact h.got i hlt
    · rw [hn]
      rfl
  · intro i hi
    rcases Nat.lt_succ_iff_lt_or_eq.mp hi with hlt | rfl
    · dsimp only
      rw [update_of_ne (hne i hlt)]
      exact h.inside i hlt
    · dsimp only
      rw [update_self, hpage]
  · intro a ha
    dsimp only
    rw [update_of_ne (ha n (Nat.lt_succ_self n))]
    exact h.outside a fun i hi => ha i (Nat.lt_succ_of_lt hi)
  · intro x
    rw [Finset.mem_insert, h.live]
    constructor
    · rintro (rfl | hx | ⟨i, hi, rfl⟩)
      · exact .inr ⟨n, Nat.lt_succ_self n, hpage.symm⟩
      · exact .inl hx
      · exact .inr ⟨i, Nat.lt_succ_of_lt hi, rfl⟩
    · rintro (hx | ⟨i, hi, rfl⟩)
      · exact .inr (.inl hx)
      · rcases Nat.lt_succ_iff_lt_or_eq.mp hi with hlt | rfl
        · exact .inr (.inr ⟨i, hlt, rfl⟩)
        · exact .inl hpage
  · exact h.freed

/-- Where nothing is mapped `allocPages` maps all its pages, or some of them until it fails; then it
has freed at most a page it had just got. -/
theorem allocPages_spec {done : Bool} (hfresh : Fresh m.live mem n)
    (h : allocPages mem newshm n m = .ok (done, m')) :
    (done = true ∧ Mapped mem newshm n m m') ∨
      (done = false ∧ ∃ k < n, ∃ m1, Mapped mem newshm k m m1 ∧ m'.table = m1.table ∧
        m'.live = m1.live ∧ (m'.freed = m1.freed ∨
          ∃ x, mem k = some x ∧ m'.freed = m1.freed ++ [x.1])) := by
  induction n generalizing done m' with
  | zero =>
    cases h
    exact .inl ⟨rfl, .zero⟩
  | succ n ih =>
    have hfresh' : Fresh m.live mem n := by
      refine ⟨fun i hi => hfresh.1 i (Nat.lt_succ_of_lt hi), fun i hi j hj => ?_⟩
      exact hfresh.2 i (Nat.lt_succ_of_lt hi) j (Nat.lt_succ_of_lt hj)
    rw [allocPages] at h
    split at h
    · rename_i m1 hprev
      have hm1 : Mapped mem newshm n m m1 := by
        rcases ih hfresh' hprev with ⟨_, hm1⟩ | ⟨hfalse, _⟩
        · exact hm1
        · cases hfalse
      cases hmem : mem n with
      | none =>
        rw [hmem] at h
        cases h
        exact .inr ⟨rfl, n, Nat.lt_succ_self n, _, hm1, rfl, rfl, .inl rfl⟩
      | some x =>
        obtain ⟨pa, room⟩ := x
        rw [hmem, allocPage] at h
        split at h
        · cases h
        split at h
        · cases h
          exact .inl ⟨rfl, hm1.succ hmem⟩
        cases h
        have hnot : pa ∉ m1.live := by
          rw [hm1.live]
          rintro (hl | ⟨i, hi, rfl⟩)
          · exact (hfresh.spec (Nat.lt_succ_self n) hmem).2 hl
          · obtain ⟨y, hy⟩ := Option.isSome_iff_exists.mp (hm1.got i hi)
            have he := hfresh.distinct (Nat.lt_succ_of_lt hi) (Nat.lt_succ_self n) hy hmem
              (Mem.page_some hy).symm
            omega
        refine .inr ⟨rfl, n, Nat.lt_succ_self n, m1, hm1, rfl, ?_, .inr ⟨_, hmem, rfl⟩⟩
        exact Finset.erase_insert hnot
    · rename_i hprev
      rcases ih hfresh' h with ⟨rfl, _⟩ | ⟨hfalse, k, hk, hrest⟩
      · exact absurd h (hprev m')
      · exact .inr ⟨hfalse, k, Nat.lt_succ_of_lt hk, hrest⟩

/-- The `n` pages below `newshm` are gone. -/
structure Unmapped (newshm n : Nat) (m m' : Pages) : Prop where
  inside : ∀ i < n, m'.table (newshm - (i + 1) * PGSIZE) = none
  outside : ∀ a, (∀ i < n, a ≠ newshm - (i + 1) * PGSIZE) → m'.table a = m.table a
  live : ∀ pa, pa ∈ m'.live ↔
    pa ∈ m.live ∧ ∀ i < n, m.table (newshm - (i + 1) * PGSIZE) ≠ some pa
  freed : ∃ l, m'.freed = m.freed ++ l ∧
    ∀ pa ∈ l, ∃ i < n, m.table (newshm - (i + 1) * PGSIZE) = some pa

theorem Unmapped.succ {m1 : Pages} {a : Nat} (h : Unmapped newshm n m m1)
    (ha : newshm - (n + 1) * PGSIZE = a) (hne : ∀ i < n, a ≠ newshm - (i + 1) * PGSIZE)
    (hd : deallocPage m1 a = .ok m') : Unmapped newshm (n + 1) m m' := by
  have hsame : m1.table a = m.table a := h.outside a hne
  obtain ⟨l, hl, hmem⟩ := h.freed
  rw [deallocPage, hsame] at hd
  split at hd
  · rename_i hnone
    cases hd
    refine ⟨?_, ?_, fun pa => ?_, l, hl, fun pa hpa => ?_⟩
    · rw [Nat.forall_lt_succ_right, ha]
      exact ⟨h.inside, hsame.trans hnone⟩
    · intro b hb
      exact h.outside b fun i hi => hb i (Nat.lt_succ_of_lt hi)
    · rw [h.live, Nat.forall_lt_succ_right, ha, hnone]
      simp
    · obtain ⟨i, hi, he⟩ := hmem pa hpa
      exact ⟨i, Nat.lt_succ_of_lt hi, he⟩
  rename_i pa hpa
  split at hd
  · cases hd
  cases hd
  refine ⟨?_, fun b hb => ?_, fun x => ?_, l ++ [pa], ?_, fun x hx => ?_⟩
  · rw [Nat.forall_lt_succ_right, ha]
    dsimp only
    refine ⟨fun i hi => ?_, update_self _ _ _⟩
    rw [update_of_ne (hne i hi).symm]
    exact h.inside i hi
  · have hba : b ≠ a := ha ▸ hb n (Nat.lt_succ_self n)
    dsimp only
    rw [update_of_ne hba]
    exact h.outside b fun i hi => hb i (Nat.lt_succ_of_lt hi)
  · change x ∈ m1.live.erase pa ↔ _
    rw [Finset.mem_erase, h.live, Nat.forall_lt_succ_right, ha, hpa]
    constructor
    · rintro ⟨hx, hlive, hi⟩
      exact ⟨hlive, hi, fun he => hx (Option.some.inj he).symm⟩
    · rintro ⟨hlive, hi, hx⟩
      exact ⟨fun he => hx (by rw [he]), hlive, hi⟩
  · change m1.freed ++ [pa] = _
    rw [hl, List.append_assoc]
  · rcases List.mem_append.mp hx with hx | hx
    · obtain ⟨i, hi, he⟩ := hmem x hx
      exact ⟨i, Nat.lt_succ_of_lt hi, he⟩
    · rw [List.mem_singleton] at hx
      subst hx
      refine ⟨n, Nat.lt_succ_self n, ?_⟩
      rw [ha]
      exact hpa

theorem deallocPages_spec (hn : n * PGSIZE ≤ newshm)
    (h : deallocPages newshm n m = .ok m') : Unmapped newshm n m m' := by
  induction n generalizing m' with
  | zero =>
    cases h
    exact ⟨nofun, fun _ _ => rfl, fun pa => by simp, [], by simp⟩
  | succ n ih =>
    rw [deallocPages] at h
    split at h
    · cases h
    · rename_i m1 hprev
      have hm1 := ih (le_trans (Nat.mul_le_mul_right _ (Nat.le_succ n)) hn) hprev
      refine hm1.succ rfl (fun i hi => ?_) h
      simp only [PGSIZE] at hn ⊢
      omega

theorem block_from_above (hold : oldshm = newshm + n * PGSIZE) (hi : i < n) :
    oldshm - (i + 1) * PGSIZE = newshm + (n - 1 - i) * PGSIZE := by
  have hn : n * PGSIZE = (n - 1 - i) * PGSIZE + (i + 1) * PGSIZE := by
    rw [← Nat.add_mul]
    congr 1
    omega
  omega

section
variable (h : Mapped mem newshm k m m')
include h

/-- The pages of the block are those that were mapped before the failure. -/
theorem Mapped.block (hfree : ∀ i < n, m.table (newshm + i * PGSIZE) = none) (hi : i < n) :
    m'.table (newshm + i * PGSIZE) = some pa ↔ i < k ∧ mem.page i = pa := by
  by_cases hik : i < k
  · rw [h.inside i hik, Option.some.injEq]
    exact ⟨fun he => ⟨hik, he⟩, fun he => he.2⟩
  · rw [h.outside, hfree i hi]
    · exact ⟨nofun, fun he => absurd he.1 hik⟩
    · intro j hj he
      simp only [PGSIZE] at he
      omega

theorem Mapped.page_fresh (hk : k ≤ n) (hfresh : Fresh m.live mem n) (hi : i < k) :
    IsPage (mem.page i) ∧ mem.page i ∉ m.live := by
  obtain ⟨x, hx⟩ := Option.isSome_iff_exists.mp (h.got i hi)
  rw [Mem.page_some hx]
  exact hfresh.spec (lt_of_lt_of_le hi hk) hx

theorem Mapped.undone {m2 m3 : Pages} (hk : k ≤ n) (hfresh : Fresh m.live mem n)
    (hfree : ∀ i < n, m.table (newshm + i * PGSIZE) = none) (hold : oldshm = newshm + n * PGSIZE)
    (ht : m2.table = m'.table) (hl : m2.live = m'.live) (hun : Unmapped oldshm n m2 m3) :
    m3.table = m.table ∧ m3.live = m.live ∧
      ∃ l, m3.freed = m2.freed ++ l ∧ ∀ pa ∈ l, pa ∉ m.live := by
  have hin : ∀ i < n, ∀ pa, m2.table (oldshm - (i + 1) * PGSIZE) = some pa →
      ∃ j < k, mem.page j = pa := by
    intro i hi pa he
    rw [block_from_above hold hi, ht, h.block hfree (by omega)] at he
    exact ⟨_, he.1, he.2⟩
  refine ⟨?_, ?_, ?_⟩
  · funext a
    by_cases ha : ∃ i < n, a = newshm + i * PGSIZE
    · obtain ⟨i, hi, rfl⟩ := ha
      have hgone := hun.inside (n - 1 - i) (by omega)
      rw [block_from_above hold (by omega), show n - 1 - (n - 1 - i) = i by omega] at hgone
      rw [hgone, hfree i hi]
    · have hout : ∀ i < n, a ≠ newshm + i * PGSIZE := fun i hi he => ha ⟨i, hi, he⟩
      rw [hun.outside, ht, h.outside]
      · exact fun i hi => hout i (lt_of_lt_of_le hi hk)
      · intro i hi
        rw [block_from_above hold hi]
        exact hout _ (by omega)
  · ext pa
    rw [hun.live, hl, h.live]
    constructor
    · rintro ⟨hlive | ⟨i, hi, rfl⟩, hne⟩
      · exact hlive
      · have hgone := hne (n - 1 - i) (by omega)
        rw [block_from_above hold (by omega), show n - 1 - (n - 1 - i) = i by omega, ht] at hgone
        exact absurd (h.inside i hi) hgone
    · intro hlive
      refine ⟨.inl hlive, fun i hi he => ?_⟩
      obtain ⟨j, hj, rfl⟩ := hin i hi pa he
      exact (h.page_fresh hk hfresh hj).2 hlive
  · obtain ⟨l, hl, hmem⟩ := hun.freed
    refine ⟨l, hl, fun pa hpa => ?_⟩
    obtain ⟨i, hi, he⟩ := hmem pa hpa
    obtain ⟨j, hj, rfl⟩ := hin i hi pa he
    exact (h.page_fresh hk hfresh hj).2

end

theorem allocshm_spec {r : Nat} (hfresh : Fresh m.live mem n)
    (hfree : ∀ i < n, m.table (newshm + i * PGSIZE) = none) (hold : oldshm = newshm + n * PGSIZE)
    (h : allocshm mem m oldshm newshm sz = .ok (r, m')) :
    (r = 0 ∧ m'.table = m.table ∧ m'.live = m.live ∧ ∃ l, m'.freed = m.freed ++ l ∧
        ∀ pa ∈ l, pa ∉ m.live) ∨
      (r = returned newshm ∧ Mapped mem newshm n m m') := by
  have hcount : (oldshm - newshm) / PGSIZE = n := by
    rw [hold, Nat.add_sub_cancel_left]
    exact Nat.mul_div_cancel n (by decide)
  rw [allocshm, hcount] at h
  split at h
  · cases h
    exact .inl ⟨rfl, rfl, rfl, [], (List.append_nil _).symm, nofun⟩
  split at h
  · cases h
  · rename_i m1 halloc
    rw [Except.ok.injEq, Prod.mk.injEq] at h
    obtain ⟨rfl, rfl⟩ := h
    rcases allocPages_spec hfresh halloc with ⟨_, hm⟩ | ⟨hfalse, _⟩
    · exact .inr ⟨rfl, hm⟩
    · cases hfalse
  rename_i m2 halloc
  rcases allocPages_spec hfresh halloc with ⟨htrue, _⟩ | ⟨_, k, hk, m1, hm, ht, hlive, hfreed⟩
  · cases htrue
  have hpos : 0 < n * PGSIZE := Nat.mul_pos (by omega) (by decide)
  rw [deallocshm, if_neg (by omega), hcount] at h
  split at h
  · cases h
  rename_i m3 hdealloc
  split at hdealloc
  · cases hdealloc
  rename_i m4 hpages
  split at hdealloc
  · cases hdealloc
  cases hdealloc
  cases h
  have hun := deallocPages_spec (by omega) hpages
  obtain ⟨htable, hlive', l, hl, hfresh'⟩ := hm.undone (by omega) hfresh hfree hold ht hlive hun
  refine .inl ⟨rfl, htable, hlive', ?_⟩
  rcases hfreed with hsame | ⟨x, hx, hone⟩
  · refine ⟨l, ?_, hfresh'⟩
    rw [hl, hsame, hm.freed]
  refine ⟨x.1 :: l, ?_, ?_⟩
  · rw [hl, hone, hm.freed, List.append_assoc]
    rfl
  · intro pa hpa
    rcases List.mem_cons.mp hpa with rfl | hpa
    · exact (hfresh.spec hk hx).2
    · exact hfresh' pa hpa

end Loops

/-! ### What `shmgetat` does -/

section Get

variable {s s' : ShmSys} {table : Table} {key num : Nat} {mem : Mem} {r : Option Nat}

theorem returned_mod {x : Nat} (hx : x ≤ KERNBASE) : returned x % 2 ^ 32 = x := by
  simp only [returned, uint64, int, Int.bmod, KERNBASE] at *
  split <;> omega

theorem returned_ne_zero {x : Nat} (hx : x ≤ KERNBASE) (h0 : x ≠ 0) : returned x ≠ 0 := by
  have hmod := returned_mod hx
  intro he
  rw [he] at hmod
  exact h0 hmod.symm

theorem returned_of_lt {x : Nat} (hx : x < KERNBASE) : returned x = x := by
  simp only [returned, uint64, int, Int.bmod, KERNBASE] at *
  split <;> omega

/-- What `proc->shm` has to be for the calculations of `shmgetat`. -/
structure Ready (own : Own) (table : Table) : Prop where
  pagetable : own.pagetable = some table
  aligned : own.shm % PGSIZE = 0
  le : own.shm ≤ KERNBASE
  room : MAX_SHM_PGNUM * PGSIZE < own.shm

/-- What a call of `shmgetat` can do. -/
inductive Got (s : ShmSys) (table : Table) (key num : Nat) (mem : Mem) :
    Option Nat → ShmSys → Prop
  | fails {l : List Nat} (hl : ∀ pa ∈ l, pa ∉ s.live) :
      Got s table key num mem none { s with freed := s.freed ++ l }
  | creates {k : Fin SHMKEYS} {m : Pages} (hk : k.val = key) (hnum : num ≤ MAX_SHM_PGNUM)
      (href : (s.shmtab k).refcount = 0)
      (hm : Mapped mem (s.first.shm - num * PGSIZE) num ⟨table, s.live, s.freed⟩ m) :
      Got s table key num mem (some (returned (s.first.shm - num * PGSIZE)))
        (s.enter k (shmadd (s.shmtab k) num mem.page)
          (s.first.shm - num * PGSIZE) m)
  | attaches {k : Fin SHMKEYS} (hk : k.val = key) (href : (s.shmtab k).refcount ≠ 0) :
      Got s table key num mem (some (returned s.first.shm))
        (s.enter k { s.shmtab k with refcount := int ((s.shmtab k).refcount + 1) }
          s.first.shm ⟨table, s.live, s.freed⟩)

theorem setFirst_same (hpt : s.first.pagetable = some table) (l : List Nat) :
    s.setFirst s.first ⟨table, s.live, l⟩ = { s with freed := l } := by
  have hown : { s.first with pagetable := some table } = s.first := by
    rw [← hpt]
  have hset : s.procs.setOwn 0 s.first = s.procs := by
    simp only [Procs.setOwn, Procs.set]
    rw [update_eq_self]
  rw [ShmSys.setFirst]
  rw [hown, hset]

/-- Nothing is mapped in the pages that a call would create. -/
def Vacant (s : ShmSys) (table : Table) (key num : Nat) : Prop :=
  num ≤ MAX_SHM_PGNUM → ∀ k : Fin SHMKEYS, k.val = key → (s.shmtab k).refcount = 0 →
    ∀ i < num, table (s.first.shm - num * PGSIZE + i * PGSIZE) = none

theorem shmgetat_got (hr : Ready s.first table) (hfresh : Fresh s.live mem num)
    (hvacant : Vacant s table key num) (h : shmgetat s key num mem = .ok (r, s')) :
    Got s table key num mem r s' := by
  have hfails : Got s table key num mem none s := by
    have hf : Got s table key num mem none { s with freed := s.freed ++ [] } := .fails nofun
    rw [List.append_nil] at hf
    exact hf
  rw [shmgetat] at h
  split at h
  · rename_i hargs
    have hnum : num * PGSIZE < s.first.shm :=
      lt_of_le_of_lt (Nat.mul_le_mul_right _ hargs.2) hr.room
    have hle := hr.le
    have hnew : (s.first.shm + 2 ^ 64 - num * PGSIZE) % 2 ^ 64 =
        s.first.shm - num * PGSIZE := by
      simp only [KERNBASE] at hle
      omega
    dsimp only at h
    rw [hr.pagetable] at h
    dsimp only at h
    rw [hnew] at h
    split at h
    · rename_i href
      split at h
      · cases h
      rename_i shm m halloc
      rcases allocshm_spec hfresh (hvacant hargs.2 ⟨key, hargs.1⟩ rfl href) (by omega) halloc with
        ⟨rfl, ht, hl, l, hf, hnot⟩ | ⟨hshm, hm⟩
      · cases h
        have hm : m = ⟨table, s.live, s.freed ++ l⟩ := by
          cases m
          cases ht
          cases hl
          cases hf
          rfl
        rw [hm, setFirst_same hr.pagetable]
        exact .fails hnot
      · have hne := returned_ne_zero (x := s.first.shm - num * PGSIZE)
          (by omega) (by omega)
        rw [hshm, finish, if_neg hne, returned_mod (by omega)] at h
        obtain ⟨rfl, rfl⟩ := h
        exact .creates rfl hargs.2 href hm
    · rename_i href
      split at h
      · cases h
      rename_i shm m hmap
      rw [mapshm] at hmap
      split at hmap
      · cases hmap
        cases h
        rw [setFirst_same hr.pagetable]
        exact hfails
      · rw [Nat.sub_self, Nat.zero_div, mapPages] at hmap
        dsimp only at hmap
        rw [if_pos rfl, Except.ok.injEq, Prod.mk.injEq] at hmap
        obtain ⟨rfl, rfl⟩ := hmap
        have hne := returned_ne_zero hr.le (by omega)
        rw [finish, if_neg hne, returned_mod hr.le] at h
        obtain ⟨rfl, rfl⟩ := h
        exact .attaches rfl href
  · cases h
    exact hfails

end Get

end Yyds.Shm
