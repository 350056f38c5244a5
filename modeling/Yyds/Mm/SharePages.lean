import Yyds.Mm.ShareMem

/-! Where shared memory is mapped. In a run of `shmgetat` alone the area below `KERNBASE` of the
first process grows downwards, and no other process gets a page. -/
namespace Yyds.Shm

open Lib Ipc
open Mm (ProcId)

/-- The page of process `q` at `a`, an address above its memory. -/
def ShmSys.table (s : ShmSys) (q : ProcId) (a : Nat) : Option Nat :=
  (s.procs.proc q).own.pagetable.bind fun t => t a

/-- From its bound upwards the first process has pages of its own everywhere; the other processes
have none. -/
structure Area (s : ShmSys) : Prop where
  pagetable : s.first.pagetable.isSome
  aligned : s.first.shm % PGSIZE = 0
  le : s.first.shm ≤ KERNBASE
  mapped : ∀ a, a % PGSIZE = 0 → s.first.shm ≤ a → a < KERNBASE →
    (s.table 0 a).isSome
  page : ∀ a pa, s.table 0 a = some pa → IsPage pa ∧ pa ∈ s.live
  inj : ∀ a b pa, s.table 0 a = some pa → s.table 0 b = some pa → a = b
  others : ∀ q ≠ 0, ∀ a, s.table q a = none

section Area

variable {s t : ShmSys} {key num shm : Nat} {mem : Mem} {r : Option Nat} {k : Fin SHMKEYS}
  {tab : ShareMem} {m : Pages}

theorem IsPage.index {pa : Nat} (h : IsPage pa) :
    ∃ j < (PHYSTOP - KERNBASE) / PGSIZE, KERNBASE + j * PGSIZE = pa := by
  obtain ⟨haligned, hlo, hhi⟩ := h
  refine ⟨(pa - KERNBASE) / PGSIZE, ?_, ?_⟩
  · unfold PHYSTOP KERNBASE PGSIZE at *
    omega
  · unfold KERNBASE PGSIZE at *
    omega

/-- Different pages of RAM, so the area is no larger than RAM. -/
theorem Area.bound (h : Area s) : KERNBASE ≤ s.first.shm + (PHYSTOP - KERNBASE) := by
  have haligned := h.aligned
  set n := (KERNBASE - s.first.shm) / PGSIZE with hn
  have hpage : ∀ i < n, ∃ pa, s.table 0 (s.first.shm + i * PGSIZE) = some pa := by
    intro i hi
    rw [← Option.isSome_iff_exists]
    refine h.mapped _ ?_ (Nat.le_add_right _ _) ?_
    · unfold PGSIZE at *
      omega
    · unfold KERNBASE PGSIZE at *
      omega
  let f i := (s.table 0 (s.first.shm + i * PGSIZE)).getD 0
  have hcard : (Finset.range n).card ≤ ((Finset.range ((PHYSTOP - KERNBASE) / PGSIZE)).image
        fun j => KERNBASE + j * PGSIZE).card := by
    apply Finset.card_le_card_of_injOn f
    · intro i hi
      obtain ⟨pa, hpa⟩ := hpage i (Finset.mem_range.mp hi)
      have hram := (h.page _ _ hpa).1
      have hf : f i = pa := by simp only [f, hpa, Option.getD_some]
      obtain ⟨j, hj, he⟩ := hram.index
      rw [hf, Finset.mem_coe, Finset.mem_image]
      exact ⟨j, Finset.mem_range.mpr hj, he⟩
    · intro i hi j hj he
      obtain ⟨pa, hpa⟩ := hpage i (Finset.mem_range.mp hi)
      obtain ⟨pb, hpb⟩ := hpage j (Finset.mem_range.mp hj)
      simp only [f, hpa, hpb, Option.getD_some] at he
      have heq := h.inj _ _ _ hpa (he ▸ hpb)
      simp only [PGSIZE] at heq
      omega
  have himage := Finset.card_image_le (s := Finset.range ((PHYSTOP - KERNBASE) / PGSIZE))
    (f := fun j => KERNBASE + j * PGSIZE)
  rw [Finset.card_range] at hcard himage
  unfold PHYSTOP KERNBASE PGSIZE at *
  omega

theorem Area.ready (h : Area s) : Ready s.first (s.table 0) := by
  obtain ⟨table, ht⟩ := Option.isSome_iff_exists.mp h.pagetable
  have hbound := h.bound
  refine ⟨?_, h.aligned, h.le, ?_⟩
  · rw [ht]
    congr 1
    funext a
    rw [ShmSys.table, ht]
    rfl
  · unfold PHYSTOP KERNBASE at hbound
    unfold MAX_SHM_PGNUM PGSIZE
    omega

theorem enter_own : (s.enter k tab shm m).first =
    { s.first with
      pagetable := some m.table
      shm := shm
      shmkeymask := s.first.shmkeymask ||| 1#32 <<< k.val } := by
  simp [ShmSys.first, ShmSys.enter, ShmSys.setFirst, Procs.setOwn, Procs.set]

theorem enter_other {q : ProcId} (hq : q ≠ 0) :
    (s.enter k tab shm m).procs.proc q = s.procs.proc q :=
  Procs.set_of_ne hq

theorem enter_table : (s.enter k tab shm m).table 0 = m.table := by
  funext a
  rfl

theorem Mapped.cases {newshm n a pa : Nat} {m' : Pages} (h : Mapped mem newshm n m m')
    (ha : m'.table a = some pa) :
    (∃ i < n, a = newshm + i * PGSIZE ∧ pa = mem.page i) ∨ m.table a = some pa := by
  by_cases hin : ∃ i < n, a = newshm + i * PGSIZE
  · obtain ⟨i, hi, rfl⟩ := hin
    rw [h.inside i hi] at ha
    exact .inl ⟨i, hi, rfl, (Option.some.inj ha).symm⟩
  · rw [h.outside a fun i hi he => hin ⟨i, hi, he⟩] at ha
    exact .inr ha

/-- The area grows by the pages that were mapped. -/
theorem Area.enter (h : Area s) (hfresh : Fresh s.live mem num)
    (hm : Mapped mem (s.first.shm - num * PGSIZE) num ⟨s.table 0, s.live, s.freed⟩ m) :
    Area (s.enter k tab (s.first.shm - num * PGSIZE) m) := by
  have hle := h.le
  have haligned := h.aligned
  have hnew : ∀ i < num, IsPage (mem.page i) ∧ mem.page i ∉ s.live :=
    fun i hi => hm.page_fresh le_rfl hfresh hi
  have hlive : ∀ pa, pa ∈ (s.enter k tab (s.first.shm - num * PGSIZE) m).live ↔
      pa ∈ s.live ∨ ∃ i < num, pa = mem.page i := hm.live
  constructor
  · rfl
  · rw [enter_own]
    simp only [PGSIZE] at *
    omega
  · rw [enter_own]
    dsimp only
    omega
  · intro a ha hlo hhi
    rw [enter_own] at hlo
    rw [enter_table]
    by_cases hin : ∃ i < num, a = s.first.shm - num * PGSIZE + i * PGSIZE
    · obtain ⟨i, hi, rfl⟩ := hin
      rw [hm.inside i hi]
      rfl
    rw [hm.outside a fun i hi he => hin ⟨i, hi, he⟩]
    refine h.mapped a ha ?_ hhi
    by_contra hlt
    apply hin
    refine ⟨(a - (s.first.shm - num * PGSIZE)) / PGSIZE, ?_, ?_⟩
    · simp only [PGSIZE] at *
      omega
    · simp only [PGSIZE] at *
      omega
  · intro a pa ha
    rw [hlive]
    rcases hm.cases ha with ⟨i, hi, _, rfl⟩ | hold
    · exact ⟨(hnew i hi).1, .inr ⟨i, hi, rfl⟩⟩
    · have hp := h.page a pa hold
      exact ⟨hp.1, .inl hp.2⟩
  · intro a b pa ha hb
    rcases hm.cases ha with ⟨i, hi, rfl, rfl⟩ | hold
    · rcases hm.cases hb with ⟨j, hj, rfl, he⟩ | hold'
      · obtain ⟨x, hx⟩ := Option.isSome_iff_exists.mp (hm.got i hi)
        obtain ⟨y, hy⟩ := Option.isSome_iff_exists.mp (hm.got j hj)
        rw [Mem.page_some hx, Mem.page_some hy] at he
        rw [hfresh.distinct hi hj hx hy he]
      · exact absurd (h.page b _ hold').2 (hnew i hi).2
    · rcases hm.cases hb with ⟨j, hj, rfl, rfl⟩ | hold'
      · exact absurd (h.page a _ hold).2 (hnew j hj).2
      · exact h.inj a b pa hold hold'
  · intro q hq a
    rw [ShmSys.table, enter_other hq]
    exact h.others q hq a

theorem Area.enter_same (h : Area s) : Area (s.enter k tab s.first.shm
    ⟨s.table 0, s.live, s.freed⟩) := by
  have hm : Mapped (fun _ => none) (s.first.shm - 0 * PGSIZE) 0
      ⟨s.table 0, s.live, s.freed⟩ ⟨s.table 0, s.live, s.freed⟩ := .zero
  have hz : Area (s.enter k tab (s.first.shm - 0 * PGSIZE)
      ⟨s.table 0, s.live, s.freed⟩) := h.enter ⟨nofun, nofun⟩ hm
  rwa [Nat.zero_mul, Nat.sub_zero] at hz

end Area

/-! ### Runs of `shmgetat` -/

structure Call where
  caller : ProcId
  key : Nat
  num : Nat
  mem : Mem

/-- The call gives `r`; `none` is -1. -/
def Gets (s : ShmSys) (c : Call) (r : Option Nat) (t : ShmSys) : Prop :=
  s.procs.Active c.caller ∧ Fresh s.live c.mem c.num ∧
    shmgetat s c.key c.num c.mem = .ok (r, t)

/-- A call with any result. -/
def Attaches (s : ShmSys) (c : Call) (t : ShmSys) : Prop := ∃ r, Gets s c r t

/-- No process has shared memory yet. -/
structure Unshared (s : ShmSys) : Prop where
  pagetable : s.first.pagetable.isSome
  shm : s.first.shm = KERNBASE
  tables : ∀ q a, s.table q a = none

/-- `P` and later `Q` call `shmgetat(key, n)` and get `a` and `b`, which are above their memories,
while others make such calls, too. -/
structure TwoCalls (P Q : ProcId) (key n a b : Nat) (s₁ s₂ s₃ s₄ : ShmSys) : Prop where
  before : ∃ s₀ cs, Unshared s₀ ∧ Run Attaches s₀ cs s₁
  first : ∃ mem, Gets s₁ ⟨P, key, n, mem⟩ (some a) s₂
  between : ∃ cs, Run Attaches s₂ cs s₃
  second : ∃ mem, Gets s₃ ⟨Q, key, n, mem⟩ (some b) s₄
  fits : (s₄.procs.proc P).own.sz ≤ a ∧ (s₄.procs.proc Q).own.sz ≤ b

/-- The `n` pages at `a` in `P` and at `b` in `Q` are there and are the same. -/
def SameMemory (s : ShmSys) (P Q : ProcId) (a b n : Nat) : Prop :=
  ∀ i < n, ∃ pa, s.table P (a + i * PGSIZE) = some pa ∧ s.table Q (b + i * PGSIZE) = some pa

/-- Only the page table of `p` may differ. -/
def OnlyCaller (s t : ShmSys) (p : ProcId) : Prop := ∀ q ≠ p, ∀ a, t.table q a = s.table q a

/-- Before the second call the key is in use and the bound is where the first call put it: below its
new pages or, if the key was in use, at the lowest of `n` pages. -/
def Steady (key n : Nat) (s₁ s₃ : ShmSys) : Prop :=
  ∃ k : Fin SHMKEYS, k.val = key ∧ (s₃.shmtab k).refcount ≠ 0 ∧
    if (s₁.shmtab k).refcount = 0 then s₃.first.shm + n * PGSIZE = s₁.first.shm
    else s₃.first.shm = s₁.first.shm ∧ s₁.first.shm + n * PGSIZE ≤ KERNBASE

/-- The first process has no other page. -/
structure Contiguous (s : ShmSys) : Prop extends Area s where
  inside : ∀ a pa, s.table 0 a = some pa →
    s.first.shm ≤ a ∧ a < KERNBASE ∧ a % PGSIZE = 0

/-- What `fork` leaves after `boot`. -/
def pair : ShmSys :=
  { ShmSys.boot with
    procs := ShmSys.boot.procs.set 1
      ⟨.RUNNABLE, 2, some 0, ⟨some fun _ => none, PGSIZE, KERNBASE, 0⟩⟩ }

/-- Pages for a call. -/
def pages : Mem := fun i => some (KERNBASE + (100 + i) * PGSIZE, true)

section Runs

variable {s t : ShmSys} {c : Call} {r : Option Nat}

theorem Unshared.contiguous (h : Unshared s) : Contiguous s where
  pagetable := h.pagetable
  aligned := by rw [h.shm]; decide
  le := h.shm.le
  mapped a _ hlo hhi := by
    rw [h.shm] at hlo
    omega
  page a pa ha := by
    rw [h.tables] at ha
    cases ha
  inj a b pa ha := by
    rw [h.tables] at ha
    cases ha
  others q _ a := h.tables q a
  inside a pa ha := by
    rw [h.tables] at ha
    cases ha

theorem boot_own (p : ProcId) :
    (ShmSys.boot.procs.proc p).own = ⟨some fun _ => none, PGSIZE, KERNBASE, 0⟩ := by
  simp only [ShmSys.boot, Procs.boot]
  split <;> rfl

theorem boot_unshared : Unshared ShmSys.boot where
  pagetable := rfl
  shm := rfl
  tables q a := by rw [ShmSys.table, boot_own]; rfl

theorem pair_unshared : Unshared pair where
  pagetable := rfl
  shm := rfl
  tables q a := by
    by_cases hq : q = 1
    · subst hq
      rfl
    · have hother : pair.procs.proc q = ShmSys.boot.procs.proc q := Procs.set_of_ne hq
      rw [ShmSys.table, hother, boot_own]
      rfl

section
variable (h : Contiguous s)
include h

theorem Contiguous.vacant (key num : Nat) : Vacant s (s.table 0) key num := by
  intro hnum k _ _ i hi
  have hroom := h.ready.room
  by_contra hne
  obtain ⟨pa, hpa⟩ := Option.ne_none_iff_exists'.mp hne
  have hlo := (h.inside _ pa hpa).1
  unfold PGSIZE at *
  omega

theorem Contiguous.got (hg : Gets s c r t) : Got s (s.table 0) c.key c.num c.mem r t :=
  shmgetat_got h.ready hg.2.1 (h.vacant _ _) hg.2.2

/-- A block of pages below the bound, or none. -/
theorem Contiguous.enter {num : Nat} {mem : Mem} {k : Fin SHMKEYS} {tab : ShareMem} {m : Pages}
    (hnum : num ≤ MAX_SHM_PGNUM) (hfresh : Fresh s.live mem num)
    (hm : Mapped mem (s.first.shm - num * PGSIZE) num ⟨s.table 0, s.live, s.freed⟩ m) :
    Contiguous (s.enter k tab (s.first.shm - num * PGSIZE) m) := by
  refine ⟨h.toArea.enter hfresh hm, fun a pa ha => ?_⟩
  have hroom := h.ready.room
  have hle := h.le
  have haligned := h.aligned
  rw [enter_own]
  rcases hm.cases ha with ⟨i, hi, rfl, _⟩ | hold
  · unfold PGSIZE at *
    dsimp only
    omega
  · obtain ⟨hlo, hhi, hmod⟩ := h.inside a pa hold
    refine ⟨?_, hhi, hmod⟩
    dsimp only
    omega

theorem Contiguous.step (hg : Gets s c r t) : Contiguous t := by
  have hfresh := hg.2.1
  cases h.got hg with
  | fails hl => exact { h with }
  | creates hk hnum href hm => exact h.enter hnum hfresh hm
  | attaches hk href =>
    refine ⟨h.toArea.enter_same, fun a pa ha => ?_⟩
    exact h.inside a pa ha

theorem Contiguous.run {cs : List Call} (hr : Run Attaches s cs t) : Contiguous t :=
  hr.invariant (fun _ _ _ ⟨_, hg⟩ hs => hs.step hg) h

end

theorem Contiguous.shm_le {cs : List Call} (h : Contiguous s) (hr : Run Attaches s cs t) :
    t.first.shm ≤ s.first.shm := by
  induction hr with
  | nil s => exact le_rfl
  | cons hst _ ih =>
    obtain ⟨r, hg⟩ := hst
    refine (ih (h.step hg)).trans ?_
    cases h.got hg with
    | fails hl => exact le_rfl
    | creates hk hnum href hm => exact enter_own ▸ Nat.sub_le _ _
    | attaches hk href => exact enter_own ▸ le_rfl

theorem Contiguous.result {b : Nat} (h : Contiguous s) (hg : Gets s c (some b) t) :
    ∃ k : Fin SHMKEYS, k.val = c.key ∧ b = returned t.first.shm ∧
      if (s.shmtab k).refcount = 0 then t.first.shm + c.num * PGSIZE = s.first.shm
      else t.first.shm = s.first.shm := by
  have hroom := h.ready.room
  have hgot := h.got hg
  generalize hr : some b = r at hgot
  cases hgot with
  | fails hl => cases hr
  | @creates k m hk hnum href hm =>
    refine ⟨k, hk, by rw [Option.some.inj hr, enter_own], ?_⟩
    rw [if_pos href, enter_own]
    unfold PGSIZE at *
    dsimp only
    omega
  | @attaches k hk href =>
    exact ⟨k, hk, by rw [Option.some.inj hr, enter_own], by rw [if_neg href, enter_own]⟩

theorem Got.onlyCaller {table : Table} {key num : Nat} {mem : Mem}
    (h : Got s table key num mem r t) : OnlyCaller s t 0 := by
  intro q hq a
  cases h with
  | fails hl => rfl
  | creates hk hnum href hm => rw [ShmSys.table, enter_other hq, ShmSys.table]
  | attaches hk href => rw [ShmSys.table, enter_other hq, ShmSys.table]

theorem returned_lt {x : Nat} (hx : x ≤ KERNBASE) (h : returned x < KERNBASE) : returned x = x := by
  rcases Nat.lt_or_eq_of_le hx with hlt | rfl
  · exact returned_of_lt hlt
  · exact absurd h (by decide)

/-- Memory is shared only if the first process makes both calls and no key is created in between;
the area has to have the pages. -/
theorem shm_shared_iff {P Q : ProcId} {key n a b : Nat} {s₁ s₂ s₃ s₄ : ShmSys} (hn : 0 < n)
    (h : TwoCalls P Q key n a b s₁ s₂ s₃ s₄) :
    (SameMemory s₄ P Q a b n ∧ OnlyCaller s₁ s₂ P ∧ OnlyCaller s₃ s₄ Q) ↔
      P = 0 ∧ Q = 0 ∧ Steady key n s₁ s₃ := by
  obtain ⟨⟨s0, cs, h0, hrun⟩, ⟨mem, hP⟩, ⟨cs', hrun'⟩, ⟨mem', hQ⟩, _⟩ := h
  have h1 := h0.contiguous.run hrun
  have h2 := h1.step hP
  have h3 := h2.run hrun'
  have h4 := h3.step hQ
  have hle := h2.shm_le hrun'
  have hpos : 0 < n * PGSIZE := Nat.mul_pos hn (by decide)
  obtain ⟨k, hk, ha, hfirst⟩ := h1.result hP
  obtain ⟨k', hk', hb, hsecond⟩ := h3.result hQ
  dsimp only at hfirst hsecond
  obtain rfl : k' = k := Fin.ext (hk'.trans hk.symm)
  constructor
  · rintro ⟨hsame, _, _⟩
    obtain ⟨pa, hpa, hpb⟩ := hsame 0 hn
    have hP0 : P = 0 := by
      by_contra hne
      rw [h4.others P hne] at hpa
      cases hpa
    have hQ0 : Q = 0 := by
      by_contra hne
      rw [h4.others Q hne] at hpb
      cases hpb
    subst hP0 hQ0
    have hab : b = a := by simpa using h4.inj _ _ pa hpb hpa
    obtain ⟨pz, hpz, _⟩ := hsame (n - 1) (by omega)
    have hlast : a + n * PGSIZE ≤ KERNBASE := by
      have := h4.inside _ _ hpz
      unfold KERNBASE PGSIZE at *
      omega
    rw [ha] at hab hlast
    rw [hb] at hab
    rw [returned_lt h2.le (by omega)] at hab hlast
    rw [returned_lt h4.le (by omega)] at hab
    refine ⟨rfl, rfl, k', hk, ?_, ?_⟩
    · intro href
      rw [if_pos href] at hsecond
      omega
    · split at hfirst
      · rw [if_pos ‹_›]
        split at hsecond <;> omega
      · rw [if_neg ‹_›]
        split at hsecond <;> omega
  · rintro ⟨rfl, rfl, k, hk'', href, hsteady⟩
    obtain rfl : k = k' := Fin.ext (hk''.trans hk.symm)
    rw [if_neg href] at hsecond
    refine ⟨fun i hi => ?_, (h1.got hP).onlyCaller, (h3.got hQ).onlyCaller⟩
    have hsame : s₂.first.shm = s₄.first.shm ∧ s₄.first.shm + n * PGSIZE ≤ KERNBASE := by
      have := h1.le
      split at hfirst
      · rw [if_pos ‹_›] at hsteady
        omega
      · rw [if_neg ‹_›] at hsteady
        omega
    rw [ha, hb, hsame.1, returned_of_lt (by omega)]
    have haligned := h4.aligned
    have hsome := h4.mapped (s₄.first.shm + i * PGSIZE)
      (by unfold PGSIZE at *; omega) (by omega) (by unfold KERNBASE PGSIZE at *; omega)
    obtain ⟨pa, hpa⟩ := Option.isSome_iff_exists.mp hsome
    exact ⟨pa, hpa, hpa⟩

/-- The first process calls twice and gets the same two pages. -/
theorem shm_shared_first : ∃ s₁ s₂ s₃ s₄ a,
    TwoCalls 0 0 3 2 a a s₁ s₂ s₃ s₄ ∧ SameMemory s₄ 0 0 a a 2 := by
  obtain ⟨⟨_, s₂⟩, hfirst, rfl, hactive, huse, hbound, ⟨_, s₄⟩, hsecond, rfl, hsz⟩ : ∃ x,
      shmgetat .boot 3 2 pages = .ok x ∧ x.1 = some (KERNBASE - 2 * PGSIZE) ∧
      x.2.procs.Active 0 ∧ (x.2.shmtab 3).refcount ≠ 0 ∧
      x.2.first.shm + 2 * PGSIZE = ShmSys.boot.first.shm ∧ ∃ y, (shmgetat x.2 3 2 fun _ => none) = .ok y ∧
        y.1 = some (KERNBASE - 2 * PGSIZE) ∧
        (y.2.procs.proc 0).own.sz ≤ KERNBASE - 2 * PGSIZE := by
    decide +kernel
  have htwo : TwoCalls 0 0 3 2 (KERNBASE - 2 * PGSIZE) (KERNBASE - 2 * PGSIZE) .boot s₂ s₂ s₄ :=
    ⟨⟨.boot, [], boot_unshared, .nil _⟩, ⟨pages, by decide, by decide +kernel, hfirst⟩,
      ⟨[], .nil _⟩, ⟨_, hactive, ⟨fun _ _ => rfl, fun _ _ _ _ _ => rfl⟩, hsecond⟩, hsz, hsz⟩
  have hsteady : Steady 3 2 .boot s₂ := ⟨3, rfl, huse, hbound⟩
  exact ⟨_, _, _, _, _, htwo, ((shm_shared_iff (by decide) htwo).mpr ⟨rfl, rfl, hsteady⟩).1⟩

/-- The child of the first process gets the address of its parent, but no page. -/
theorem shm_not_shared : ∃ s₁ s₂ s₃ s₄ a,
    TwoCalls 0 1 3 1 a a s₁ s₂ s₃ s₄ ∧ ¬ SameMemory s₄ 0 1 a a 1 := by
  obtain ⟨⟨_, s₂⟩, hfirst, rfl, hactive, ⟨_, s₄⟩, hsecond, rfl, hsz, hsz', hnone⟩ : ∃ x,
      shmgetat pair 3 1 pages = .ok x ∧ x.1 = some (KERNBASE - PGSIZE) ∧
      x.2.procs.Active 1 ∧ ∃ y, (shmgetat x.2 3 1 fun _ => none) = .ok y ∧
        y.1 = some (KERNBASE - PGSIZE) ∧ (y.2.procs.proc 0).own.sz ≤ KERNBASE - PGSIZE ∧
        (y.2.procs.proc 1).own.sz ≤ KERNBASE - PGSIZE ∧ y.2.table 1 (KERNBASE - PGSIZE) = none := by
    decide +kernel
  refine ⟨pair, s₂, s₂, s₄, _, ⟨⟨pair, [], pair_unshared, .nil _⟩,
    ⟨pages, by decide, by decide +kernel, hfirst⟩, ⟨[], .nil _⟩,
    ⟨_, hactive, ⟨fun _ _ => rfl, fun _ _ _ _ _ => rfl⟩, hsecond⟩, hsz, hsz'⟩, fun hsame => ?_⟩
  obtain ⟨pa, _, hpa⟩ := hsame 0 Nat.zero_lt_one
  rw [Nat.zero_mul, Nat.add_zero, hnone] at hpa
  cases hpa

end Runs

end Yyds.Shm
