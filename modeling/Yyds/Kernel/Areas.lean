import Yyds.Kernel.Access

/-! The tables of mapped files over whole runs of the machine. -/
namespace Yyds.Kernel

open Lib Kern Mm Function Sys Proc

/-! ### What leaves the tables alone -/

/-- The processes are the same, with the same sizes and mapped files. -/
def KeepsLive (s s' : Sys) : Prop := ∀ q,
  ((s'.proc q).state = .UNUSED ↔ (s.proc q).state = .UNUSED) ∧
  ((s.proc q).state ≠ .UNUSED → (s'.proc q).vma = (s.proc q).vma ∧ (s'.proc q).sz = (s.proc q).sz)

instance : IsPreorder Sys KeepsLive where
  refl _ _ := ⟨.rfl, fun _ => ⟨rfl, rfl⟩⟩
  trans s t u h₁ h₂ q := by
    obtain ⟨hu₁, hs₁⟩ := h₁ q
    obtain ⟨hu₂, hs₂⟩ := h₂ q
    refine ⟨hu₂.trans hu₁, fun hq => ?_⟩
    obtain ⟨hv₁, hz₁⟩ := hs₁ hq
    obtain ⟨hv₂, hz₂⟩ := hs₂ fun h => hq (hu₁.mp h)
    exact ⟨hv₂.trans hv₁, hz₂.trans hz₁⟩

theorem KeepsLive.of_proc {s s' : Sys} (h : s'.proc = s.proc) : KeepsLive s s' := by
  intro q
  rw [h]
  exact ⟨.rfl, fun _ => ⟨rfl, rfl⟩⟩

section
variable {s s' : Sys} {p : ProcId} {α : Type}

theorem onMem_live (x : Kern Phys α) : Moves KeepsLive (onMem x) := by
  intro s a s' h
  obtain ⟨m', _, rfl⟩ := onMem_ok h
  exact .of_proc rfl

theorem updProc_live (p : ProcId) {f : Proc → Proc} (h : ∀ pr, ((f pr).state = .UNUSED ↔
    pr.state = .UNUSED) ∧ (f pr).vma = pr.vma ∧ (f pr).sz = pr.sz) :
    Moves KeepsLive (updProc p f) := by
  refine .modify fun s q => ?_
  by_cases hq : q = p
  · subst hq
    rw [setProc_self]
    exact ⟨(h _).1, fun _ => (h _).2⟩
  · rw [setProc_ne s f hq]
    exact ⟨.rfl, fun _ => ⟨rfl, rfl⟩⟩

theorem kill_live (p : ProcId) : Moves KeepsLive (kill p) :=
  updProc_live p fun _ => ⟨.rfl, rfl, rfl⟩

variable [Layout]

theorem mapZero_live (p : ProcId) (va pa : Nat) : Moves KeepsLive (mapZero p va pa) :=
  .bind .get fun _ => .bind (onMem_live _) fun _ => .bind (onMem_live _) fun _ => .when (kill_live p)

omit [Layout] in
theorem kallocIf_live (c : Bool) : Moves KeepsLive (kallocIf c) := by
  rw [kallocIf]
  split
  · exact onMem_live _
  · exact .pure _

theorem lazyFault_live (p : ProcId) (va : Nat) : Moves KeepsLive (lazyFault p va) := by
  refine .bind .get fun s => .bind (kallocIf_live _) fun pa => ?_
  split
  · exact mapZero_live p va pa
  · refine .bind (kallocIf_live _) fun pa => ?_
    split
    · exact mapZero_live p va pa
    · exact kill_live p

theorem cowFault_live (p : ProcId) (va : Nat) : Moves KeepsLive (cowFault p va) := by
  refine .bind .get fun s => ?_
  split
  · exact kill_live p
  · exact .bind (onMem_live _) fun _ => .when (kill_live p)

theorem mmapFill_live (p : ProcId) (a : VmArea) (va : Int) :
    Moves KeepsLive (mmapFill p a va) := by
  refine .bind .get fun s => .bind (onMem_live _) fun pa => ?_
  split
  · exact .pure _
  refine .bind (onMem_live _) fun _ => .bind (.when (.panic _)) fun _ => ?_
  dsimp only
  split
  · exact .bind (onMem_live _) fun _ => .pure _
  · refine .bind (onMem_live _) fun _ => .bind (onMem_live _) fun r => ?_
    split <;> exact .pure _

theorem mmapFault_live (p : ProcId) (cause va : Nat) :
    Moves KeepsLive (mmapFault p cause va) := by
  refine .bind .get fun s => ?_
  split
  case isFalse => exact .pure _
  case isTrue =>
    refine .bind .get fun s => ?_
    cases findVma (s.proc p) (int va) with
    | none => exact .pure _
    | some a =>
      dsimp only
      split
      · exact .pure _
      · split
        · exact .pure _
        · exact mmapFill_live p a _

theorem pageFault_live (p : ProcId) (cause va : Nat) :
    Moves KeepsLive (pageFault p cause va) := by
  refine .bind .get fun s => .bind (onMem_live _) fun c => ?_
  split
  · exact cowFault_live p va
  · refine .bind (mmapFault_live p cause va) fun r => ?_
    split
    · exact .pure _
    · exact lazyFault_live p va

theorem argaddr_live (p : ProcId) (va : Nat) : Moves KeepsLive (argaddr p va) := by
  refine .bind .get fun s => .bind (onMem_live _) fun pa => ?_
  split
  · exact .pure _
  split
  · refine .bind (onMem_live _) fun pa => ?_
    split
    · exact .pure _
    · refine .bind (onMem_live _) fun _ => .bind (onMem_live _) fun r => ?_
      split <;> exact .pure _
  · exact .pure _

/-! ### How processes come and go -/

/-- The slot `c` is free; what happens in it does not concern the processes. -/
def FreeSlot (c : ProcId) (s s' : Sys) : Prop := (s.proc c).state = .UNUSED → KeepsLive s s'

omit [Layout] in
instance (c : ProcId) : IsPreorder Sys (FreeSlot c) where
  refl s _ := refl_of KeepsLive s
  trans s t u h₁ h₂ hc := by
    have h := h₁ hc
    exact trans_of KeepsLive h (h₂ ((h c).1.mpr hc))

section
variable (c : ProcId)
include c

omit [Layout] in
theorem KeepsLive.freeSlot {x : Kern Sys α} (h : Moves KeepsLive x) :
    Moves (FreeSlot c) x := fun s a s' hx _ => h s a s' hx

omit [Layout] in
theorem updProc_freeSlot {f : Proc → Proc} (h : ∀ pr, pr.state = .UNUSED → (f pr).state = .UNUSED) :
    Moves (FreeSlot c) (updProc c f) := by
  refine .modify fun s hc q => ?_
  by_cases hq : q = c
  · subst hq
    rw [setProc_self]
    exact ⟨⟨fun _ => hc, fun _ => h _ hc⟩, fun hne => absurd hc hne⟩
  · rw [setProc_ne s f hq]
    exact ⟨.rfl, fun _ => ⟨rfl, rfl⟩⟩

theorem freeproc_freeSlot : Moves (FreeSlot c) (freeproc c) := by
  have hmem : ∀ {β : Type} (x : Kern Phys β), Moves (FreeSlot c) (onMem x) :=
    fun x => KeepsLive.freeSlot c (onMem_live x)
  exact .bind .get fun s => .bind (.when (hmem _)) fun _ => .bind (.when (hmem _)) fun _ =>
    .bind (.when (hmem _)) fun _ => updProc_freeSlot c fun _ _ => rfl

theorem allocTable_freeSlot : Moves (FreeSlot c) (allocTable c) := by
  refine .bind .get fun s => .bind (KeepsLive.freeSlot c (onMem_live _)) fun pt =>
    .bind (updProc_freeSlot c fun _ h => h) fun _ => ?_
  split
  · exact .bind (freeproc_freeSlot c) fun _ => .pure _
  · exact .bind (updProc_freeSlot c fun _ h => h) fun _ => .pure _

omit [Layout] in
theorem kallocFrame_freeSlot (b : Bool) : Moves (FreeSlot c) (kallocFrame c b) := by
  refine .bind (KeepsLive.freeSlot c (onMem_live _)) fun r =>
    .bind (updProc_freeSlot c fun pr h => ?_) fun _ => .pure _
  cases b <;> exact h

theorem allocSlot_freeSlot : Moves (FreeSlot c) (allocSlot c) := by
  refine .bind ?_ fun _ => .bind (kallocFrame_freeSlot c false) fun r => ?_
  · refine .modify fun s hc q => ?_
    exact updProc_freeSlot c (f := claimed s.nextpid) (fun _ h => h) s () _ rfl hc q
  · split
    · exact .pure _
    · refine .bind (kallocFrame_freeSlot c true) fun r => ?_
      split
      · exact .pure _
      · exact allocTable_freeSlot c

end

theorem allocTable_areas {c : ProcId} {r : Option ProcId} (h : allocTable c s = .ok (r, s')) :
    r = none ∨ r = some c ∧ ∀ i, ((s'.proc c).vma i).used = false := by
  obtain ⟨pt, m', _, h⟩ := onMem_bind_ok h
  rw [updProc_bind_apply] at h
  split at h
  · obtain ⟨_, s1, _, h⟩ := bind_ok h
    cases h
    exact .inl rfl
  · cases h
    refine .inr ⟨rfl, fun i => ?_⟩
    rw [setProc_self]
    rfl

theorem allocSlot_areas {c : ProcId} {r : Option ProcId} (h : allocSlot c s = .ok (r, s')) :
    r = none ∨ r = some c ∧ ∀ i, ((s'.proc c).vma i).used = false := by
  obtain ⟨_, s0, _, h⟩ := bind_ok h
  obtain ⟨tf, s1, _, h⟩ := bind_ok h
  split at h
  · cases h
    exact .inl rfl
  · obtain ⟨al, s2, _, h⟩ := bind_ok h
    split at h
    · cases h
      exact .inl rfl
    · exact allocTable_areas h

theorem allocproc_live {r : Option ProcId} (h : allocproc s = .ok (r, s')) : KeepsLive s s' ∧
    ∀ c, r = some c → (s.proc c).state = .UNUSED ∧ ∀ i, ((s'.proc c).vma i).used = false := by
  rw [allocproc, get_bind_apply] at h
  cases hf : (List.finRange NPROC).find? fun p => (s.proc p).state = .UNUSED with
  | none =>
    rw [hf] at h
    cases h
    exact ⟨refl_of KeepsLive s, fun c hc => by cases hc⟩
  | some c =>
    simp only [hf] at h
    have hu : (s.proc c).state = .UNUSED := by simpa using List.find?_some hf
    refine ⟨allocSlot_freeSlot c s r s' h hu, ?_⟩
    rintro c' rfl
    rcases allocSlot_areas h with hr | ⟨hr, hv⟩
    · cases hr
    · cases hr
      exact ⟨hu, hv⟩

/-- `fork` makes a process with the size and the mapped files of its parent, or nothing. -/
theorem fork_areas {e : Int} (hp : (s.proc p).state ≠ .UNUSED) (h : fork p s = .ok (e, s')) :
    KeepsLive s s' ∨
    ∃ c, (s.proc c).state = .UNUSED ∧ (s'.proc c).state ≠ .UNUSED ∧ (s'.proc c).sz = (s.proc p).sz ∧
      (∀ i, ((s'.proc c).vma i).used = true → (s'.proc c).vma i = (s.proc p).vma i) ∧
      ∀ q ≠ c, ((s'.proc q).state = .UNUSED ↔ (s.proc q).state = .UNUSED) ∧
        ((s.proc q).state ≠ .UNUSED →
          (s'.proc q).vma = (s.proc q).vma ∧ (s'.proc q).sz = (s.proc q).sz) := by
  obtain ⟨r, s1, ha, h⟩ := bind_ok h
  obtain ⟨hl, hnew⟩ := allocproc_live ha
  cases r with
  | none =>
    cases h
    exact .inl hl
  | some c =>
    obtain ⟨hu, hv⟩ := hnew c rfl
    obtain ⟨e', m', _, h⟩ := onMem_bind_ok h
    split at h
    · obtain ⟨_, s2, hfree, h⟩ := bind_ok h
      cases h
      have hu1 : (s1.proc c).state = .UNUSED := (hl c).1.mpr hu
      have hmem : KeepsLive s { s1 with mem := m' } := trans_of KeepsLive hl (.of_proc rfl)
      exact .inl (trans_of KeepsLive hmem (freeproc_freeSlot c _ () _ hfree hu1))
    cases h
    obtain ⟨hvma, hsz⟩ := (hl p).2 hp
    refine .inr ⟨c, hu, ?_⟩
    rw [setProc_self]
    refine ⟨by simp [child], hsz, fun i hi => ?_, fun q hq => ?_⟩
    · simp only [child] at hi ⊢
      by_cases hused : ((s1.proc p).vma i).used = true
      · rw [if_pos hused, hvma]
      · rw [if_neg hused, hv i] at hi
        cases hi
    · rw [setProc_ne _ _ hq]
      exact hl q

/-! ### `exit`, `wait` and `exec` -/

theorem exitVma_areas {i : Fin NVMA} (h : exitVma p i s = .ok ((), s')) :
    (∀ q ≠ p, s'.proc q = s.proc q) ∧ (s'.proc p).sz = (s.proc p).sz ∧
      (s'.proc p).state = (s.proc p).state ∧ ((s'.proc p).vma i).used = false ∧
      ∀ j ≠ i, (s'.proc p).vma j = (s.proc p).vma j := by
  rw [exitVma, get_bind_apply] at h
  by_cases hused : ((s.proc p).vma i).used = true
  · rw [if_pos hused] at h
    obtain ⟨_, s1, hw, h⟩ := bind_ok h
    have hproc := (writeBack_files.1 _ _ _ hw).proc
    obtain ⟨_, m', _, h⟩ := onMem_bind_ok h
    cases h
    rw [setProc_self, hproc]
    refine ⟨fun q hq => ?_, rfl, rfl, ?_, fun j hj => ?_⟩
    · rw [setProc_ne _ _ hq]
    · simp
    · simp [update_of_ne hj]
  · rw [if_neg hused] at h
    cases h
    exact ⟨fun _ _ => rfl, rfl, rfl, by simpa using hused, fun _ _ => rfl⟩

theorem exitVmas_areas {l : List (Fin NVMA)} (h : forEach l (exitVma p) s = .ok ((), s')) :
    (∀ q ≠ p, s'.proc q = s.proc q) ∧ (s'.proc p).sz = (s.proc p).sz ∧
      (s'.proc p).state = (s.proc p).state ∧ (∀ i ∈ l, ((s'.proc p).vma i).used = false) ∧
      ∀ i, ((s'.proc p).vma i).used = true → (s'.proc p).vma i = (s.proc p).vma i := by
  induction l generalizing s with
  | nil =>
    cases h
    exact ⟨fun _ _ => rfl, rfl, rfl, by simp, fun _ _ => rfl⟩
  | cons i l ih =>
    obtain ⟨_, s1, h1, h2⟩ := bind_ok h
    obtain ⟨hq1, hz1, hs1, hi1, hj1⟩ := exitVma_areas h1
    obtain ⟨hq2, hz2, hs2, hl2, hj2⟩ := ih h2
    refine ⟨fun q hq => (hq2 q hq).trans (hq1 q hq), hz2.trans hz1, hs2.trans hs1, ?_, ?_⟩
    · intro j hj
      by_contra hne
      have hused : ((s'.proc p).vma j).used = true := by simpa using hne
      rcases List.mem_cons.mp hj with rfl | hj
      · rw [hj2 _ hused, hi1] at hused
        cases hused
      · exact hne (hl2 j hj)
    · intro j hused
      have hj := hj2 j hused
      rw [hj]
      by_cases hji : j = i
      · subst hji
        rw [hj, hi1] at hused
        cases hused
      · exact hj1 j hji

theorem exit_areas {status : Int} (h : exit p status s = .ok ((), s')) :
    (s'.proc p).sz = (s.proc p).sz ∧ (∀ i, ((s'.proc p).vma i).used = false) ∧
      ∀ q ≠ p, (s'.proc q).state = (s.proc q).state ∧ (s'.proc q).vma = (s.proc q).vma ∧
        (s'.proc q).sz = (s.proc q).sz := by
  rw [exit, get_bind_apply] at h
  split at h
  case isTrue => cases h
  case isFalse =>
    obtain ⟨_, s1, h1, h⟩ := bind_ok h
    obtain ⟨hq, hz, _, hl, _⟩ := exitVmas_areas h1
    cases h
    obtain ⟨parent, hself⟩ := s1.exited_self p status
    refine ⟨by rw [hself]; exact hz, fun i => ?_, fun q hne => ?_⟩
    · rw [hself]
      exact hl i (List.mem_finRange i)
    · rw [s1.exited_ne status hne, hq q hne]
      exact ⟨rfl, rfl, rfl⟩

omit [Layout] in
theorem Sys.setProc_field {β : Type} (s : Sys) (p : ProcId) (f : Proc → Proc) (g : Proc → β)
    (h : g (f (s.proc p)) = g (s.proc p)) (q : ProcId) : g ((s.setProc p f).proc q) = g (s.proc q) := by
  by_cases hq : q = p
  · subst hq
    rw [setProc_self, h]
  · rw [setProc_ne _ _ hq]

theorem execCommit_areas {pt sz sp : Nat} (h : execCommit p pt sz sp s = .ok ((), s')) (q : ProcId) :
    (s'.proc q).state = (s.proc q).state ∧ (s'.proc q).vma = (s.proc q).vma ∧
      (q ≠ p → (s'.proc q).sz = (s.proc q).sz) := by
  rw [execCommit, get_bind_apply, updProc_bind_apply] at h
  obtain ⟨s1, hs1⟩ : ∃ s1, s1 = s.setProc p fun pr =>
    { pr with pagetable := pt, sz := sz, sp := sp } := ⟨_, rfl⟩
  rw [← hs1] at h
  obtain ⟨_, m3, _, h⟩ := onMem_bind_ok h
  cases h
  have hlast : ∀ {β : Type} (g : Proc → β), (∀ pr, g { pr with shm := KERNBASE } = g pr) →
      g (({ s1 with mem := m3 }.setProc 0 fun pr => { pr with shm := KERNBASE }).proc q) =
        g (s1.proc q) :=
    fun g hg => setProc_field { s1 with mem := m3 } 0 _ g (hg _) q
  refine ⟨?_, ?_, fun hq => ?_⟩
  · rw [hlast state fun _ => rfl, hs1]
    exact setProc_field _ _ _ state rfl q
  · rw [hlast vma fun _ => rfl, hs1]
    exact setProc_field _ _ _ vma rfl q
  · rw [hlast Proc.sz fun _ => rfl, hs1, setProc_ne _ _ hq]

/-- `exec` leaves the mapped files alone and gives the process a new size, unless it fails. -/
theorem exec_areas {gs : List Segment} {argv : List (List Byte)} {e : Int}
    (h : exec p gs argv s = .ok (e, s')) : (e < 0 ∧ KeepsLive s s') ∨
      (¬ e < 0 ∧ ∀ q, (s'.proc q).state = (s.proc q).state ∧ (s'.proc q).vma = (s.proc q).vma ∧
        (q ≠ p → (s'.proc q).sz = (s.proc q).sz)) := by
  obtain ⟨pt, m1, _, h⟩ := onMem_bind_ok h
  split at h
  · cases h
    exact .inl ⟨by decide, .of_proc rfl⟩
  obtain ⟨r, m2, _, h⟩ := onMem_bind_ok h
  cases hr : r.2 with
  | none =>
    rw [hr] at h
    obtain ⟨_, m3, _, h⟩ := onMem_bind_ok h
    cases h
    exact .inl ⟨by decide, .of_proc rfl⟩
  | some sp =>
    rw [hr] at h
    obtain ⟨_, s1, hc, h⟩ := bind_ok h
    cases h
    have hall := execCommit_areas hc
    exact .inr ⟨by omega, hall⟩

theorem freeproc_proc (h : freeproc p s = .ok ((), s')) :
    s'.proc = (s.setProc p cleared).proc := by
  rw [freeproc, get_bind_apply] at h
  obtain ⟨_, s1, h1, h⟩ := bind_ok h
  obtain ⟨_, s2, h2, h⟩ := bind_ok h
  obtain ⟨_, s3, h3, h⟩ := bind_ok h
  cases h
  have hwhen : ∀ {c : Prop} [Decidable c] {x : Kern Phys Unit} {a b : Sys},
      Kern.when c (onMem x) a = .ok ((), b) → b.proc = a.proc := by
    intro c _ x a b hx
    rw [Kern.when] at hx
    split at hx
    · obtain ⟨m', _, rfl⟩ := onMem_ok hx
      rfl
    · cases hx
      rfl
  have hproc : s3.proc = s.proc := (hwhen h3).trans ((hwhen h2).trans (hwhen h1))
  simp only [setProc, hproc]

theorem wait_areas {addr : Nat} {r : Option Int} (h : wait p addr s = .ok (r, s')) :
    s'.proc = s.proc ∨ ∃ c, (s'.proc c).state = .UNUSED ∧ ∀ q ≠ c, s'.proc q = s.proc q := by
  rcases wait_cases h with ⟨rfl, _⟩ | ⟨c, e, s1, _, hc, hcase⟩
  · exact .inl rfl
  have hproc : s1.proc = s.proc := by
    rw [copyStatus] at hc
    split at hc
    · cases hc
      rfl
    · obtain ⟨m', _, rfl⟩ := onMem_ok hc
      rfl
  rcases hcase with ⟨_, _, rfl⟩ | ⟨_, hfree⟩
  · exact .inl hproc
  · have hs := freeproc_proc hfree
    refine .inr ⟨c, ?_, fun q hq => ?_⟩
    · rw [hs, setProc_self]
      rfl
    · rw [hs, setProc_ne _ _ hq, hproc]

/-! ### Mapped files in order -/

/-- The address after the last one of the area. -/
def VmArea.stop (v : VmArea) : Nat := v.addr + v.len.toNat

/-- An area of whole pages below the size of its process. -/
structure VmArea.Ok (v : VmArea) (sz : Nat) : Prop where
  len : 0 ≤ v.len
  int : v.len < 2 ^ 31
  aligned : v.addr % PGSIZE = 0
  whole : v.stop % PGSIZE = 0
  inside : v.stop ≤ sz
  fits : v.stop < 2 ^ 64

/-- The mapped files of a process are in order, and so are the addresses `heap` that it has from
its image and from `sbrk`. -/
structure AreasOk (pr : Proc) (heap : Nat → Prop) : Prop where
  area : ∀ i, (pr.vma i).used = true → (pr.vma i).Ok pr.sz
  disjoint : ∀ i j, i ≠ j → (pr.vma i).used = true → (pr.vma j).used = true →
    (pr.vma i).stop ≤ (pr.vma j).addr ∨ (pr.vma j).stop ≤ (pr.vma i).addr
  below : ∀ a, heap a → a < pr.sz
  apart : ∀ a i, heap a → (pr.vma i).used = true → a < (pr.vma i).addr ∨ (pr.vma i).stop ≤ a

namespace AreasOk

variable {pr pr' : Proc} {heap heap' : Nat → Prop}

omit [Layout] in
theorem congr (h : AreasOk pr heap) (hv : pr'.vma = pr.vma) (hz : pr'.sz = pr.sz) :
    AreasOk pr' heap := by
  obtain ⟨h1, h2, h3, h4⟩ := h
  rw [← hv] at h1 h2 h4
  rw [← hz] at h1 h3
  exact ⟨h1, h2, h3, h4⟩

omit [Layout] in
theorem mono (h : AreasOk pr heap) (hz : pr'.sz = pr.sz)
    (hv : ∀ i, (pr'.vma i).used = true → pr'.vma i = pr.vma i) : AreasOk pr' heap := by
  refine ⟨fun i hi => ?_, fun i j hij hi hj => ?_, fun a ha => ?_, fun a i ha hi => ?_⟩
  · rw [hv i hi, hz]
    exact h.area i (hv i hi ▸ hi)
  · rw [hv i hi, hv j hj]
    exact h.disjoint i j hij (hv i hi ▸ hi) (hv j hj ▸ hj)
  · rw [hz]
    exact h.below a ha
  · rw [hv i hi]
    exact h.apart a i ha (hv i hi ▸ hi)

end AreasOk

/-- `p->sz` after `sbrk` -/
def sbrkSize (sz : Nat) (n : Int) : Nat :=
  if 0 < n then (sz + uint64 n) % 2 ^ 64
  else if 0 < (sz + uint64 n) % 2 ^ 64 then min ((sz + uint64 n) % 2 ^ 64) sz
  else sz

theorem uvmdealloc_value {pt oldsz newsz r : Nat} {m m' : Phys}
    (h : uvmdealloc pt oldsz newsz m = .ok (r, m')) : r = min newsz oldsz := by
  rw [uvmdealloc] at h
  split at h
  · cases h
    omega
  · obtain ⟨_, m1, _, h⟩ := bind_ok h
    cases h
    omega

/-- Another size for the process `p` is all that has changed in the process table. -/
structure Resized (p : ProcId) (sz : Nat) (s s' : Sys) : Prop where
  other : ∀ q ≠ p, s'.proc q = s.proc q
  self : s'.proc p = { s.proc p with sz := sz }

theorem sys_sbrk_areas {n : Int} {e : Int} (h : sys_sbrk p n s = .ok (e, s')) :
    Resized p (sbrkSize (s.proc p).sz n) s s' := by
  rcases sys_sbrk_cases h with ⟨hn, _, rfl⟩ | ⟨hn, _, hpos, rfl⟩ | ⟨hn, _, hpos, r, m', hd, rfl⟩
  · refine ⟨fun q hq => setProc_ne _ _ hq, ?_⟩
    rw [setProc_self, sbrkSize, if_pos hn]
  · refine ⟨fun q _ => rfl, ?_⟩
    rw [sbrkSize, if_neg hn, if_neg hpos]
  · refine ⟨fun q hq => setProc_ne _ _ hq, ?_⟩
    rw [setProc_self, sbrkSize, if_neg hn, if_pos hpos, uvmdealloc_value hd]

/-- The addresses that processes have from their images and from `sbrk`, after a step. -/
def heapAfter (s : Sys) (x : ProcId × Action) (s' : Sys) (heap : ProcId → Nat → Prop) :
    ProcId → Nat → Prop :=
  match x.2 with
  | .sbrk _ => update heap x.1 fun a =>
      a < (s'.proc x.1).sz ∧ (heap x.1 a ∨ (s.proc x.1).sz ≤ a)
  | .exec gs argv =>
    match exec x.1 gs argv s with
    | .ok (e, _) =>
      if e < 0 then heap else update heap x.1 fun a => a < (s'.proc x.1).sz
    | .error _ => heap
  | .fork => fun q =>
    if (s.proc q).state = .UNUSED ∧ (s'.proc q).state ≠ .UNUSED then heap x.1 else heap q
  | _ => heap

/-- The steps that keep the mapped files in order: `sbrk` does not reach below the end of one,
`mmap` starts at a page boundary, lengths are whole pages and not negative, and a process that
calls `exec` has no mapped file. -/
def AreaStep (s : Sys) (x : ProcId × Action) : Prop :=
  match x.2 with
  | .sbrk n => ∀ i, ((s.proc x.1).vma i).used = true →
      ((s.proc x.1).vma i).stop ≤ sbrkSize (s.proc x.1).sz n.toInt
  | .mmap _ length _ _ _ _ => (s.proc x.1).sz % PGSIZE = 0 ∧ length.toInt % PGSIZE = 0 ∧
      (s.proc x.1).sz + length.toInt.toNat < 2 ^ 64
  | .munmap _ length => 0 ≤ length.toInt ∧ length.toInt % PGSIZE = 0
  | .exec _ _ => ∀ i, ((s.proc x.1).vma i).used = false
  | .grow _ | .shrink _ => False
  | _ => True

/-- A step, and what it does to the addresses from images and `sbrk`. -/
def HeapStep (y : Sys × (ProcId → Nat → Prop)) (x : ProcId × Action)
    (y' : Sys × (ProcId → Nat → Prop)) : Prop :=
  Step y.1 x y'.1 ∧ y'.2 = heapAfter y.1 x y'.1 y.2

/-- The mapped files of all processes are in order. -/
def AllAreasOk (y : Sys × (ProcId → Nat → Prop)) : Prop :=
  ∀ q, (y.1.proc q).state ≠ .UNUSED → AreasOk (y.1.proc q) (y.2 q)

variable {heap : ProcId → Nat → Prop}

omit [Layout] in
theorem AllAreasOk.keepsLive (h : AllAreasOk (s, heap)) (hl : KeepsLive s s') :
    AllAreasOk (s', heap) := by
  intro q hq
  have hs : (s.proc q).state ≠ .UNUSED := fun hu => hq ((hl q).1.mpr hu)
  obtain ⟨hv, hz⟩ := (hl q).2 hs
  exact (h q hs).congr hv hz

theorem AllAreasOk.sbrk {n : Int} {e : Int} (h : AllAreasOk (s, heap))
    (hp : (s.proc p).state ≠ .UNUSED)
    (hc : ∀ i, ((s.proc p).vma i).used = true → ((s.proc p).vma i).stop ≤ sbrkSize (s.proc p).sz n)
    (hs : sys_sbrk p n s = .ok (e, s')) :
    AllAreasOk (s', update heap p fun a =>
      a < (s'.proc p).sz ∧ (heap p a ∨ (s.proc p).sz ≤ a)) := by
  have R := sys_sbrk_areas hs
  intro q hq
  by_cases he : q = p
  · subst he
    have hok := h q hp
    dsimp only
    rw [update_self, R.self]
    refine ⟨fun i hi => ?_, hok.disjoint, fun a ha => ha.1, fun a i ha hi => ?_⟩
    · obtain ⟨h1, h2, h3, h4, _, h6⟩ := hok.area i hi
      exact ⟨h1, h2, h3, h4, hc i hi, h6⟩
    · rcases ha.2 with hheap | hnew
      · exact hok.apart a i hheap hi
      · exact .inr (Nat.le_trans (hok.area i hi).inside hnew)
  · dsimp only at hq ⊢
    rw [R.other q he] at hq ⊢
    rw [update_of_ne he]
    exact h q hq

section
omit [Layout]

theorem AllAreasOk.mmap {addr vfile : Nat} {length flags offset : Int} {prot : BitVec 32}
    {r : Option Nat} (h : AllAreasOk (s, heap)) (hp : (s.proc p).state ≠ .UNUSED)
    (hint : length < 2 ^ 31) (hsz : (s.proc p).sz % PGSIZE = 0) (hlen : length % PGSIZE = 0)
    (hlim : (s.proc p).sz + length.toNat < 2 ^ 64)
    (hs : sys_mmap p addr length prot flags vfile offset s = .ok (r, s')) :
    AllAreasOk (s', heap) := by
  rcases sys_mmap_cases hs with ⟨_, rfl⟩ | ⟨_, _, _, h0, _, _, i, _, rfl⟩
  · exact h
  have hu : uint64 length = length.toNat := uint64_of_nonneg
  have hpg : PGSIZE = 4096 := rfl
  intro q hq
  by_cases he : q = p
  · subst he
    have hok := h q hp
    dsimp only
    rw [setProc_self]
    have hsz' : ((s.proc q).mapArea i ⟨true, (s.proc q).sz, length, prot, flags, vfile,
        offset⟩).sz = (s.proc q).sz + length.toNat := by
      simp only [mapArea]
      rw [hu, Nat.mod_eq_of_lt hlim]
    have hnew : ((s.proc q).mapArea i ⟨true, (s.proc q).sz, length, prot, flags, vfile,
        offset⟩).vma i = ⟨true, (s.proc q).sz, length, prot, flags, vfile, offset⟩ :=
      update_self _ _ _
    have hold : ∀ j ≠ i, ((s.proc q).mapArea i ⟨true, (s.proc q).sz, length, prot, flags, vfile,
        offset⟩).vma j = (s.proc q).vma j := fun j hj => update_of_ne hj _ _
    refine ⟨fun j hj => ?_, fun j k hjk hj hk => ?_, fun a ha => ?_, fun a j ha hj => ?_⟩
    · rw [hsz']
      by_cases hji : j = i
      · rw [hji, hnew]
        refine ⟨h0, hint, hsz, ?_, Nat.le_refl _, hlim⟩
        rw [hpg] at hsz hlen ⊢
        simp only [VmArea.stop]
        omega
      · rw [hold j hji] at hj ⊢
        obtain ⟨h1, h2, h3, h4, h5, h6⟩ := hok.area j hj
        exact ⟨h1, h2, h3, h4, Nat.le_trans h5 (Nat.le_add_right _ _), h6⟩
    · by_cases hji : j = i
      · have hki : k ≠ i := fun hk => hjk (hji.trans hk.symm)
        rw [hold k hki] at hk ⊢
        rw [hji, hnew]
        exact .inr (hok.area k hk).inside
      · rw [hold j hji] at hj ⊢
        by_cases hki : k = i
        · rw [hki, hnew]
          exact .inl (hok.area j hj).inside
        · rw [hold k hki] at hk ⊢
          exact hok.disjoint j k hjk hj hk
    · rw [hsz']
      exact Nat.lt_of_lt_of_le (hok.below a ha) (Nat.le_add_right _ _)
    · by_cases hji : j = i
      · rw [hji, hnew]
        exact .inl (hok.below a ha)
      · rw [hold j hji] at hj ⊢
        exact hok.apart a j ha hj
  · dsimp only at hq ⊢
    rw [setProc_ne _ _ he] at hq ⊢
    exact h q hq

theorem VmArea.Ok.usable {v : VmArea} {sz : Nat} (h : v.used = true → v.Ok sz) : v.Fits :=
  fun hu => ⟨(h hu).len, (h hu).int, (h hu).fits⟩

/-- Cutting whole pages off an area leaves whole pages, and starts at a page. -/
theorem Cut.ok {v a : VmArea} {addr sz : Nat} {length : Int} (c : Cut v addr length a)
    (h0 : 0 ≤ length) (hlen : length % PGSIZE = 0) (hv : v.Ok sz) :
    a.Ok sz ∧ v.addr ≤ a.addr ∧ a.stop ≤ v.stop ∧ addr % PGSIZE = 0 := by
  obtain ⟨h1, h2, h3, h4, h5, h6⟩ := hv
  have hpg : PGSIZE = 4096 := rfl
  have hle := c.le
  rw [hpg] at hlen h3 h4
  rw [VmArea.stop] at h4 h5 h6
  have hmul : length.toNat % 4096 = 0 := by omega
  rcases c.rest with ⟨ha, rfl⟩ | ⟨ha, rfl⟩
  · have hstop : addr + length.toNat + (v.len - length).toNat = v.addr + v.len.toNat := by omega
    have haddr : (addr + length.toNat) % 4096 = 0 := by omega
    exact ⟨⟨by dsimp only; omega, by dsimp only; omega, haddr,
      by rw [VmArea.stop, hstop]; exact h4, by rw [VmArea.stop, hstop]; exact h5,
      by rw [VmArea.stop, hstop]; exact h6⟩, by dsimp only; omega,
      by rw [VmArea.stop, hstop, VmArea.stop], by rw [hpg]; omega⟩
  · have hstop : v.addr + (v.len - length).toNat = addr := by omega
    have haddr : addr % 4096 = 0 := by omega
    exact ⟨⟨by dsimp only; omega, by dsimp only; omega, h3, by rw [VmArea.stop, hstop]; exact haddr,
      by rw [VmArea.stop, hstop]; omega, by rw [VmArea.stop, hstop]; omega⟩, Nat.le_refl _,
      by rw [VmArea.stop, hstop, VmArea.stop]; omega, haddr⟩

theorem VmArea.closed_used {a : VmArea} (h : a.closed.used = true) : a.closed = a := by
  rw [VmArea.closed] at *
  split at h
  · cases h
  · rw [if_neg ‹_›]

end

theorem sys_munmap_areas {addr : Nat} {length e : Int} {sz : Nat} (haddr : addr < 2 ^ 64)
    (hok : ∀ i, ((s.proc p).vma i).used = true → ((s.proc p).vma i).Ok sz) (h0 : 0 ≤ length)
    (hlen : length % PGSIZE = 0) (h : sys_munmap p addr length s = .ok (e, s')) :
    (∀ q ≠ p, s'.proc q = s.proc q) ∧ (s'.proc p).sz = (s.proc p).sz ∧
      (s'.proc p).state = (s.proc p).state ∧ ∀ i, ((s'.proc p).vma i).used = true →
        ((s.proc p).vma i).used = true ∧ ((s'.proc p).vma i).Ok sz ∧
        ((s.proc p).vma i).addr ≤ ((s'.proc p).vma i).addr ∧
        ((s'.proc p).vma i).stop ≤ ((s.proc p).vma i).stop := by
  rcases sys_munmap_cases h with ⟨_, rfl⟩ | ⟨_, i, a, s1, m', hf, _, _, rfl⟩
  · exact ⟨fun _ _ => rfl, rfl, rfl, fun i hi => ⟨hi, hok i hi, Nat.le_refl _, Nat.le_refl _⟩⟩
  have c := VmArea.cut_some (VmArea.Ok.usable (hok i)) haddr h0 (findCut_some hf)
  obtain ⟨hOk, hstart, hstop, _⟩ := c.ok h0 hlen (hok i c.used)
  rw [setProc_self]
  refine ⟨fun q hq => setProc_ne _ _ hq, rfl, rfl, fun j hj => ?_⟩
  by_cases hji : j = i
  · subst hji
    simp only [withVma, update_self] at hj ⊢
    rw [VmArea.closed_used hj]
    exact ⟨c.used, hOk, hstart, hstop⟩
  · simp only [withVma, update_of_ne hji] at hj ⊢
    exact ⟨hj, hok j hj, Nat.le_refl _, Nat.le_refl _⟩

section
variable (h : AllAreasOk (s, heap)) (hp : (s.proc p).state ≠ .UNUSED)
include h hp

theorem AllAreasOk.munmap {addr : Nat} {length e : Int} (haddr : addr < 2 ^ 64) (h0 : 0 ≤ length)
    (hlen : length % PGSIZE = 0) (hs : sys_munmap p addr length s = .ok (e, s')) :
    AllAreasOk (s', heap) := by
  have hok := h p hp
  obtain ⟨hother, hsz, _, hcut⟩ := sys_munmap_areas haddr hok.area h0 hlen hs
  intro q hq
  by_cases he : q = p
  · subst he
    refine ⟨fun i hi => ?_, fun i j hij hi hj => ?_, fun a ha => ?_, fun a i ha hi => ?_⟩
    · rw [hsz]
      exact (hcut i hi).2.1
    · obtain ⟨ui, _, hi1, hi2⟩ := hcut i hi
      obtain ⟨uj, _, hj1, hj2⟩ := hcut j hj
      rcases hok.disjoint i j hij ui uj with hd | hd
      · exact .inl (Nat.le_trans hi2 (Nat.le_trans hd hj1))
      · exact .inr (Nat.le_trans hj2 (Nat.le_trans hd hi1))
    · rw [hsz]
      exact hok.below a ha
    · obtain ⟨ui, _, hi1, hi2⟩ := hcut i hi
      rcases hok.apart a i ha ui with hd | hd
      · exact .inl (Nat.lt_of_lt_of_le hd hi1)
      · exact .inr (Nat.le_trans hi2 hd)
  · rw [hother q he] at hq ⊢
    exact h q hq

theorem AllAreasOk.exit {status : Int} (hs : exit p status s = .ok ((), s')) :
    AllAreasOk (s', heap) := by
  obtain ⟨hsz, hnone, hother⟩ := exit_areas hs
  intro q hq
  by_cases he : q = p
  · subst he
    refine (h q hp).mono hsz fun i hi => ?_
    rw [hnone i] at hi
    cases hi
  · obtain ⟨hst, hv, hz⟩ := hother q he
    have hq' : (s.proc q).state ≠ .UNUSED := fun hu => hq (hst.trans hu)
    exact (h q hq').congr hv hz

theorem AllAreasOk.access {va : Nat} {b : Option Byte} (hs : access p va b s = .ok ((), s')) :
    AllAreasOk (s', heap) := by
  rw [Kernel.access, get_bind_apply] at hs
  split at hs
  case isTrue =>
    cases b with
    | none =>
      cases hs
      exact h
    | some b => exact h.keepsLive (onMem_live _ s () s' hs)
  case isFalse =>
    obtain ⟨_, s1, hf, hs⟩ := bind_ok hs
    have hl := pageFault_live _ _ _ s () s1 hf
    have h1 := h.keepsLive hl
    rw [get_bind_apply] at hs
    split at hs
    · exact h1.exit (fun hu => hp ((hl p).1.mp hu)) hs
    · cases hs
      exact h1

theorem AllAreasOk.fork {e : Int} (hs : fork p s = .ok (e, s')) :
    AllAreasOk (s', heapAfter s (p, .fork) s' heap) := by
  intro q hq
  dsimp only [heapAfter] at hq ⊢
  rcases fork_areas hp hs with hl | ⟨c, hu, hc, hsz, hv, hother⟩
  · rw [if_neg fun hno => hno.2 ((hl q).1.mpr hno.1)]
    exact h.keepsLive hl q hq
  by_cases he : q = c
  · subst he
    rw [if_pos ⟨hu, hc⟩]
    exact (h p hp).mono hsz hv
  · obtain ⟨hst, hsame⟩ := hother q he
    rw [if_neg fun hno => hno.2 (hst.mpr hno.1)]
    have hq' : (s.proc q).state ≠ .UNUSED := fun h => hq (hst.mpr h)
    obtain ⟨hv', hz'⟩ := hsame hq'
    exact (h q hq').congr hv' hz'

end

theorem AllAreasOk.exec {gs : List Segment} {argv : List (List Byte)} {e : Int}
    (h : AllAreasOk (s, heap)) (hnone : ∀ i, ((s.proc p).vma i).used = false)
    (hs : exec p gs argv s = .ok (e, s')) :
    AllAreasOk (s', heapAfter s (p, .exec gs argv) s' heap) := by
  intro q hq
  dsimp only [heapAfter] at hq ⊢
  rw [hs]
  dsimp only
  rcases exec_areas hs with ⟨he, hl⟩ | ⟨he, hall⟩
  · rw [if_pos he]
    exact h.keepsLive hl q hq
  rw [if_neg he]
  obtain ⟨hst, hv, hz⟩ := hall q
  by_cases hqp : q = p
  · subst hqp
    have hno : ∀ i, ((s'.proc q).vma i).used = true → False := by
      intro i hi
      rw [hv, hnone i] at hi
      cases hi
    rw [update_self]
    exact ⟨fun i hi => (hno i hi).elim, fun i _ _ hi => (hno i hi).elim, fun a ha => ha,
      fun a i _ hi => (hno i hi).elim⟩
  · rw [update_of_ne hqp]
    exact (h q fun hu => hq (hst.trans hu)).congr hv (hz hqp)

theorem AllAreasOk.step {x : ProcId × Action} (h : AllAreasOk (s, heap)) (hc : AreaStep s x)
    (hst : Step s x s') : AllAreasOk (s', heapAfter s x s' heap) := by
  obtain ⟨p, a⟩ := x
  obtain ⟨⟨hp, _⟩, hst⟩ := hst
  cases a with
  | moveSp sp =>
    exact h.keepsLive (updProc_live p (f := fun pr => { pr with sp := sp.toNat })
      (fun _ => ⟨.rfl, rfl, rfl⟩) s () s' hst)
  | load va => exact h.access hp hst
  | store va b => exact h.access hp hst
  | argaddr va =>
    obtain ⟨e, h1⟩ := ignore_ok hst
    exact h.keepsLive (argaddr_live _ _ s e _ h1)
  | copyout va src =>
    obtain ⟨_, s0, h0, hst⟩ := bind_ok hst
    cases h0
    obtain ⟨e, h1⟩ := ignore_ok hst
    exact h.keepsLive (onMem_live _ s e _ h1)
  | grow newsz => exact hc.elim
  | shrink newsz => exact hc.elim
  | sbrk n =>
    obtain ⟨_, h1⟩ := ignore_ok hst
    exact h.sbrk hp hc h1
  | mmap addr length prot flags vfile offset =>
    obtain ⟨_, h1⟩ := ignore_ok hst
    exact h.mmap hp BitVec.toInt_lt hc.1 hc.2.1 hc.2.2 h1
  | munmap addr length =>
    obtain ⟨_, h1⟩ := ignore_ok hst
    exact h.munmap hp addr.isLt hc.1 hc.2 h1
  | fork =>
    obtain ⟨_, h1⟩ := ignore_ok hst
    exact h.fork hp h1
  | exec gs argv =>
    obtain ⟨_, h1⟩ := ignore_ok hst
    exact h.exec hc h1
  | exit status => exact h.exit hp hst
  | wait addr =>
    obtain ⟨_, h1⟩ := ignore_ok hst
    rcases wait_areas h1 with hproc | ⟨c, hu, hother⟩
    · exact h.keepsLive (.of_proc hproc)
    · intro q hq
      have hqc : q ≠ c := fun he => hq (he ▸ hu)
      rw [hother q hqc] at hq ⊢
      exact h q hq

/-! ### The panic of `uvmunmap` -/

/-- The message of `uvmunmap` for an address inside a page -/
def notAligned : String := "uvmunmap: not aligned"

theorem kfree_avoids (pa : Nat) : Avoids notAligned (kfree pa) := by
  refine .bind (.when (.panic (by decide))) fun _ => .bind (.modify _) fun _ => .bind .get fun s =>
    .when (.bind (.modify _) fun _ => ?_)
  exact .bind (fun s h => by cases h) fun id => .modify _

theorem uvmunmap_avoids {va : Nat} (hva : va % PGSIZE = 0) (pt npages : Nat) (b : Bool) :
    Avoids notAligned (uvmunmap pt va npages b) := by
  rw [uvmunmap, when_neg (by simpa using hva)]
  refine .bind (.pure _) fun _ => ?_
  generalize ((va + npages * PGSIZE) % 2 ^ 64 - va) / PGSIZE = n
  clear hva
  induction n generalizing va with
  | zero => exact .pure _
  | succ n ih =>
    refine .bind (.bind ((walk_read _ _).2 _ (by decide)) fun x => ?_) fun _ => ih
    cases x with
    | none => exact .pure _
    | some x =>
      refine .bind .get fun s => ?_
      split
      · exact .pure _
      · split
        · exact .panic (by decide)
        · exact .bind (.when (kfree_avoids _)) fun _ => .modify _

theorem sys_munmap_aligned {addr : Nat} {length : Int} {sz : Nat} (haddr : addr < 2 ^ 64)
    (hok : ∀ i, ((s.proc p).vma i).used = true → ((s.proc p).vma i).Ok sz) (h0 : 0 ≤ length)
    (hlen : length % PGSIZE = 0) : sys_munmap p addr length s ≠ .error notAligned := by
  rw [sys_munmap, get_bind_apply]
  cases hf : findCut (s.proc p).vma addr length with
  | none =>
    intro h
    cases h
  | some r =>
    obtain ⟨i, a⟩ := r
    have c := VmArea.cut_some (VmArea.Ok.usable (hok i)) haddr h0 (findCut_some hf)
    have hal := (c.ok h0 hlen (hok i c.used)).2.2.2
    exact Avoids.bind (.modify _) (fun _ => .bind (writeBack_files.2 _ (by decide)) fun _ =>
      .bind (.zoom (uvmunmap_avoids hal _ _ _)) fun _ => .bind (.when (.modify _)) fun _ => .pure _) s

theorem exitVmas_aligned {l : List (Fin NVMA)}
    (hok : ∀ i, ((s.proc p).vma i).used = true → ((s.proc p).vma i).addr % PGSIZE = 0) :
    forEach l (exitVma p) s ≠ .error notAligned := by
  induction l generalizing s with
  | nil =>
    intro h
    cases h
  | cons i l ih =>
    intro h
    rw [forEach, bind_apply] at h
    split at h
    case h_1 s1 h1 =>
      obtain ⟨_, _, _, hi, hj⟩ := exitVma_areas h1
      refine ih (fun j hused => ?_) h
      by_cases hji : j = i
      · subst hji
        rw [hi] at hused
        cases hused
      · rw [hj j hji] at hused ⊢
        exact hok j hused
    case h_2 e he =>
      cases h
      rw [exitVma, get_bind_apply] at he
      split at he
      case isTrue hused =>
        exact Avoids.bind (writeBack_files.2 _ (by decide)) (fun _ =>
          .bind (.zoom (uvmunmap_avoids (hok i hused) _ _ _)) fun _ => .modify _) s he
      case isFalse => cases he

theorem exit_aligned {status : Int}
    (hok : ∀ i, ((s.proc p).vma i).used = true → ((s.proc p).vma i).addr % PGSIZE = 0) :
    exit p status s ≠ .error notAligned := by
  intro h
  rw [exit, get_bind_apply] at h
  split at h
  case isTrue => exact absurd (Except.error.inj h) (by decide)
  case isFalse =>
    rw [bind_apply] at h
    split at h
    · cases h
    · rename_i e he
      cases h
      exact exitVmas_aligned hok he

/-! ### Every run -/

omit [Layout] in
instance (s : Sys) : (x : ProcId × Action) → Decidable (AreaStep s x)
  | (_, a) => by
    refine a.casesOn ?_ ?_ ?_ ?_ ?_ ?_ ?_ ?_ ?_ ?_ ?_ ?_ ?_ ?_ <;> intros <;> dsimp only [AreaStep] <;>
      infer_instance

omit [Layout] in
/-- The page of an address from the image or from `sbrk` is no page of an area. -/
theorem AreasOk.page_apart {pr : Proc} {heap : Nat → Prop} (h : AreasOk pr heap) {a b : Nat}
    {i : Fin NVMA} (ha : heap a) (hi : (pr.vma i).used = true)
    (hb : PGROUNDDOWN b = PGROUNDDOWN a) : b < (pr.vma i).addr ∨ (pr.vma i).stop ≤ b := by
  have hok := h.area i hi
  have h1 := hok.aligned
  have h2 := hok.whole
  have hpg : PGSIZE = 4096 := rfl
  simp only [PGROUNDDOWN, hpg] at hb h1 h2
  rcases h.apart a i ha hi with hd | hd
  · exact .inl (by omega)
  · exact .inr (by omega)

theorem run_areas {y0 y : Sys × (ProcId → Nat → Prop)} {xs : List (ProcId × Action)}
    (h0 : AllAreasOk y0) (h : Run (Guarded (fun y x => AreaStep y.1 x) HeapStep) y0 xs y) :
    AllAreasOk y := by
  have hstep : ∀ y x y', Guarded (fun y x => AreaStep y.1 x) HeapStep y x y' →
      AllAreasOk y → AllAreasOk y' := by
    rintro ⟨s, heap⟩ x ⟨s', heap'⟩ ⟨hc, hst, he⟩ hok
    dsimp only at he
    subst he
    exact hok.step hc hst
  exact h.invariant hstep h0

/-- The mapped files of every process stay in order, apart from each other and from the pages of
image and heap. `munmap` only takes away, `exec` leaves none, and neither `munmap` nor `exit`
hands `uvmunmap` an address inside a page. -/
theorem mapped_files_in_order {s₀ : Sys} {heap₀ : ProcId → Nat → Prop}
    {xs : List (ProcId × Action)} (h₀ : AllAreasOk (s₀, heap₀))
    (h : Run (Guarded (fun y x => AreaStep y.1 x) HeapStep) (s₀, heap₀) xs (s, heap)) :
    ∀ p, (s.proc p).Active → AreasOk (s.proc p) (heap p) ∧
      (∀ a b i, heap p a → ((s.proc p).vma i).used = true → PGROUNDDOWN b = PGROUNDDOWN a →
        b < ((s.proc p).vma i).addr ∨ ((s.proc p).vma i).stop ≤ b) ∧
      (∀ (addr : Word) (length : BitVec 32), AreaStep s (p, .munmap addr length) →
        sys_munmap p addr.toNat length.toInt s ≠ .error notAligned ∧
        ∀ e s', sys_munmap p addr.toNat length.toInt s = .ok (e, s') →
          ∀ i, ((s'.proc p).vma i).used = true → ((s.proc p).vma i).used = true ∧
            ((s.proc p).vma i).addr ≤ ((s'.proc p).vma i).addr ∧
            ((s'.proc p).vma i).stop ≤ ((s.proc p).vma i).stop) ∧
      (∀ gs argv e s', AreaStep s (p, .exec gs argv) → exec p gs argv s = .ok (e, s') → 0 ≤ e →
        ∀ i, ((s'.proc p).vma i).used = false) ∧
      ∀ status, exit p status s ≠ .error notAligned := by
  intro p hp
  have hok : AreasOk (s.proc p) (heap p) := run_areas h₀ h p hp.1
  refine ⟨hok, fun a b i ha hi hb => hok.page_apart ha hi hb, ?_, ?_, fun status =>
    exit_aligned fun i hi => (hok.area i hi).aligned⟩
  · rintro addr length ⟨h0, hlen⟩
    refine ⟨sys_munmap_aligned addr.isLt hok.area h0 hlen, fun e s' hs i hi => ?_⟩
    obtain ⟨hu, _, hcut⟩ := (sys_munmap_areas addr.isLt hok.area h0 hlen hs).2.2.2 i hi
    exact ⟨hu, hcut⟩
  · intro gs argv e s' hnone hs he i
    rcases exec_areas hs with ⟨hneg, _⟩ | ⟨_, hall⟩
    · omega
    · rw [(hall p).2.1]
      exact hnone i

theorem run_with_heap {s0 : Sys} {xs : List (ProcId × Action)} (heap0 : ProcId → Nat → Prop)
    (h : Run (Guarded AreaStep Step) s0 xs s) :
    ∃ heap, Run (Guarded (fun y x => AreaStep y.1 x) HeapStep) (s0, heap0) xs (s, heap) := by
  induction h generalizing heap0 with
  | nil s => exact ⟨heap0, .nil _⟩
  | cons hst _ ih =>
    obtain ⟨heap, hrun⟩ := ih (heapAfter _ _ _ heap0)
    exact ⟨heap, .cons ⟨hst.1, hst.2, rfl⟩ hrun⟩

end

/-- Two files mapped, the first page of one unmapped, and more memory after them. -/
theorem mapped_files_in_order_two : let := twentyPages
    ∃ (s0 s : Sys) (heap : Nat → Prop), small oneFile oneInode AreaStep [] = some s0 ∧
      Run (Guarded AreaStep Step) s0 [(0, .mmap 0 8192 1 2 0 0), (0, .mmap 0 4096 1 2 0 0),
        (0, .munmap 4096 4096), (0, .sbrk 100)] s ∧ (s.proc 0).Active ∧
      ((s.proc 0).vma 0).used = true ∧ AreasOk (s.proc 0) heap := by
  let := twentyPages
  obtain ⟨s0, hs0, hnone, s, hs, ha, hused⟩ : ∃ s0, small oneFile oneInode AreaStep [] = some s0 ∧
      (∀ q i, ((s0.proc q).vma i).used = false) ∧ ∃ s,
      [(0, .mmap 0 8192 1 2 0 0), (0, .mmap 0 4096 1 2 0 0), (0, .munmap 4096 4096),
        (0, .sbrk 100)].foldlM (fun s x => if AreaStep s x then next s x else none) s0 = some s ∧
      (s.proc 0).Active ∧ ((s.proc 0).vma 0).used = true := by
    decide +kernel
  have h0 : AllAreasOk (s0, fun q a => a < (s0.proc q).sz) := by
    intro q _
    have hq : ∀ i, ((s0.proc q).vma i).used ≠ true := fun i hi => by
      rw [hnone q i] at hi
      cases hi
    exact ⟨fun i hi => absurd hi (hq i), fun i _ _ hi => absurd hi (hq i), fun a ha => ha,
      fun a i _ hi => absurd hi (hq i)⟩
  obtain ⟨heap, hrun⟩ := run_with_heap _ (run_of_steps hs)
  exact ⟨s0, s, heap 0, hs0, run_of_steps hs, ha, hused, (mapped_files_in_order h0 hrun 0 ha).1⟩

/-- A file mapped after `sbrk(1)` starts inside a page, and cannot be unmapped. -/
theorem mapping_after_odd_sbrk : let := twentyPages
    ∃ s, small oneFile oneInode (fun _ _ => True) [(0, .sbrk 1), (0, .mmap 0 4096 1 2 0 0)] = some s ∧
      (s.proc 0).Active ∧ ((s.proc 0).vma 0).used = true ∧ ((s.proc 0).vma 0).addr % PGSIZE = 1 ∧
      sys_munmap 0 4097 4096 s = .error notAligned := by
  intro
  decide +kernel

end Yyds.Kernel
