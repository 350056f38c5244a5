import Yyds.Kernel.Areas
import Yyds.Mm.Bytes

/-! The pages of mapped files as they come in with the first access. -/
namespace Yyds.Kernel

open Lib Kern Mm Function Sys

/-! ### Mappings as `mmap` made them -/

/-- `b` maps the file that `a` maps, in the same way. -/
structure VmArea.SameFile (a b : VmArea) : Prop where
  prot : b.prot = a.prot
  flags : b.flags = a.flags
  vfile : b.vfile = a.vfile
  offset : b.offset = a.offset

namespace VmArea.SameFile

variable {a b c : VmArea}

theorem refl (a : VmArea) : a.SameFile a := ⟨rfl, rfl, rfl, rfl⟩

theorem trans (h1 : a.SameFile b) (h2 : b.SameFile c) : a.SameFile c :=
  ⟨h2.prot.trans h1.prot, h2.flags.trans h1.flags, h2.vfile.trans h1.vfile,
    h2.offset.trans h1.offset⟩

theorem of_cut {addr : Nat} {length : Int} (h : a.cut addr length = some b) : a.SameFile b := by
  rw [VmArea.cut] at h
  split at h
  · cases h
  split at h
  · cases h
    exact ⟨rfl, rfl, rfl, rfl⟩
  · split at h
    · cases h
      exact ⟨rfl, rfl, rfl, rfl⟩
    · cases h

theorem pteFlags (h : a.SameFile b) : b.pteFlags = a.pteFlags := by
  rw [VmArea.pteFlags, VmArea.pteFlags, h.prot]

end VmArea.SameFile

section
variable [Layout] {s s' : Sys} {p q : ProcId} {i : Fin NVMA}

/-- Where a mapping of the process `q` comes from when the process `p` does `a`: it was there, or
`mmap` has made it, or `q` is the child of `p`. -/
inductive AreaFrom (s : Sys) (p : ProcId) (a : Action) (q : ProcId) (i : Fin NVMA) (v : VmArea) :
    Prop
  | old (live : (s.proc q).state ≠ .UNUSED) (used : ((s.proc q).vma i).used = true)
      (same : ((s.proc q).vma i).SameFile v)
  | made {addr : Word} {length prot flags : BitVec 32} {vfile : Nat} {offset : BitVec 32}
      (self : q = p) (call : a = .mmap addr length prot flags vfile offset)
      (fresh : ((s.proc p).vma i).used = false) (offset : v.offset = 0)
  | forked (call : a = .fork) (fresh : (s.proc q).state = .UNUSED)
      (used : ((s.proc p).vma i).used = true) (same : v = (s.proc p).vma i)

variable {newsz k : Nat} {xs : List (ProcId × Action)}

theorem growTo_areas (h : growTo p newsz s = .ok ((), s')) : ∃ sz, Resized p sz s s' := by
  obtain ⟨r, m', _, h⟩ := onMem_bind_ok h
  rw [Kern.when] at h
  split at h
  · cases h
    exact ⟨r, fun q hq => setProc_ne _ _ hq, setProc_self _ _ _⟩
  · cases h
    exact ⟨(s.proc p).sz, fun _ _ => rfl, rfl⟩

theorem shrinkTo_areas (h : shrinkTo p newsz s = .ok ((), s')) : ∃ sz, Resized p sz s s' := by
  obtain ⟨r, m', _, h⟩ := onMem_bind_ok h
  cases h
  exact ⟨r, fun q hq => setProc_ne _ _ hq, setProc_self _ _ _⟩

section
variable {a : Action} (hq : (s'.proc q).state ≠ .UNUSED) (hi : ((s'.proc q).vma i).used = true)
include hq hi

section
omit [Layout]

theorem AreaFrom.of_vma (hst : (s'.proc q).state = .UNUSED ↔ (s.proc q).state = .UNUSED)
    (hv : (s.proc q).state ≠ .UNUSED → (s'.proc q).vma = (s.proc q).vma) :
    AreaFrom s p a q i ((s'.proc q).vma i) := by
  have hq' : (s.proc q).state ≠ .UNUSED := fun h => hq (hst.mpr h)
  rw [hv hq'] at hi ⊢
  exact .old hq' hi (.refl _)

theorem AreaFrom.of_live (hl : KeepsLive s s') : AreaFrom s p a q i ((s'.proc q).vma i) :=
  .of_vma hq hi (hl q).1 fun h => ((hl q).2 h).1

theorem AreaFrom.of_resized {sz : Nat} (h : Resized p sz s s') :
    AreaFrom s p a q i ((s'.proc q).vma i) := by
  refine .of_vma hq hi ?_ fun _ => ?_
  · by_cases he : q = p
    · rw [he, h.self]
    · rw [h.other q he]
  · by_cases he : q = p
    · rw [he, h.self]
    · rw [h.other q he]

end

theorem AreaFrom.of_exit {status : Int} (h : exit p status s = .ok ((), s')) :
    AreaFrom s p a q i ((s'.proc q).vma i) := by
  obtain ⟨_, hnone, hother⟩ := exit_areas h
  by_cases he : q = p
  · subst he
    rw [hnone i] at hi
    cases hi
  · obtain ⟨hst, hv, _⟩ := hother q he
    exact .of_vma hq hi (by rw [hst]) fun _ => hv

theorem AreaFrom.of_access {va : Nat} {b : Option Byte} (h : access p va b s = .ok ((), s')) :
    AreaFrom s p a q i ((s'.proc q).vma i) := by
  rw [access, get_bind_apply] at h
  split at h
  case isTrue =>
    cases b with
    | none =>
      cases h
      exact .old hq hi (.refl _)
    | some b => exact .of_live hq hi (onMem_live _ s () s' h)
  case isFalse =>
    obtain ⟨_, s1, hf, h⟩ := bind_ok h
    have hl := pageFault_live _ _ _ s () s1 hf
    rw [get_bind_apply] at h
    split at h
    · have hfrom : AreaFrom s1 p a q i ((s'.proc q).vma i) := .of_exit hq hi h
      cases hfrom with
      | old live used same =>
        have hlive : (s.proc q).state ≠ .UNUSED := fun h => live ((hl q).1.mpr h)
        rw [((hl q).2 hlive).1] at used same
        exact .old hlive used same
      | made self call fresh offset =>
        obtain ⟨_, hnone, _⟩ := exit_areas h
        rw [self, hnone i] at hi
        cases hi
      | forked call fresh used same =>
        obtain ⟨_, _, hother⟩ := exit_areas h
        by_cases he : q = p
        · subst he
          obtain ⟨_, hnone, _⟩ := exit_areas h
          rw [hnone i] at hi
          cases hi
        · rw [(hother q he).1] at hq
          exact absurd fresh hq
    · cases h
      exact .of_live hq hi hl

theorem AreaFrom.of_munmap {addr : Nat} {length e : Int}
    (h : sys_munmap p addr length s = .ok (e, s')) : AreaFrom s p a q i ((s'.proc q).vma i) := by
  rcases sys_munmap_cases h with ⟨_, rfl⟩ | ⟨_, j, v, s1, m', hf, _, _, rfl⟩
  · exact .old hq hi (.refl _)
  by_cases he : q = p
  · subst he
    rw [setProc_self] at hq hi ⊢
    by_cases hij : i = j
    · subst hij
      simp only [Proc.withVma, update_self] at hi ⊢
      have hcut := findCut_some hf
      refine .old hq ?_ ?_
      · by_contra hno
        rw [VmArea.cut, if_pos (.inl (by simpa using hno))] at hcut
        cases hcut
      · rw [VmArea.closed_used hi]
        exact .of_cut hcut
    · simp only [Proc.withVma, update_of_ne hij] at hi ⊢
      exact .old hq hi (.refl _)
  · rw [setProc_ne _ _ he] at hq hi ⊢
    exact .old hq hi (.refl _)

/-- Every mapping after a step comes from somewhere. -/
theorem Step.area_from (hst : Step s (p, a) s') : AreaFrom s p a q i ((s'.proc q).vma i) := by
  obtain ⟨⟨hp, _⟩, hst⟩ := hst
  cases a with
  | moveSp sp =>
    exact .of_live hq hi (updProc_live p (f := fun pr => { pr with sp := sp.toNat })
      (fun _ => ⟨.rfl, rfl, rfl⟩) s () s' hst)
  | load va => exact .of_access hq hi hst
  | store va b => exact .of_access hq hi hst
  | argaddr va =>
    obtain ⟨e, h1⟩ := ignore_ok hst
    exact .of_live hq hi (argaddr_live _ _ s e _ h1)
  | copyout va src =>
    obtain ⟨_, s0, h0, hst⟩ := bind_ok hst
    cases h0
    obtain ⟨e, h1⟩ := ignore_ok hst
    exact .of_live hq hi (onMem_live _ s e _ h1)
  | grow newsz =>
    obtain ⟨sz, R⟩ := growTo_areas hst
    exact .of_resized hq hi R
  | shrink newsz =>
    obtain ⟨sz, R⟩ := shrinkTo_areas hst
    exact .of_resized hq hi R
  | sbrk n =>
    obtain ⟨_, h1⟩ := ignore_ok hst
    exact .of_resized hq hi (sys_sbrk_areas h1)
  | mmap addr length prot flags vfile offset =>
    obtain ⟨_, h1⟩ := ignore_ok hst
    rcases sys_mmap_cases h1 with ⟨_, rfl⟩ | ⟨_, _, hoff, _, _, _, j, hj, rfl⟩
    · exact .old hq hi (.refl _)
    by_cases he : q = p
    · subst he
      rw [setProc_self] at hq hi ⊢
      by_cases hij : i = j
      · subst hij
        refine .made rfl rfl hj ?_
        simp only [Proc.mapArea, update_self]
        exact hoff
      · simp only [Proc.mapArea, update_of_ne hij] at hi ⊢
        exact .old hq hi (.refl _)
    · rw [setProc_ne _ _ he] at hq hi ⊢
      exact .old hq hi (.refl _)
  | munmap addr length =>
    obtain ⟨_, h1⟩ := ignore_ok hst
    exact .of_munmap hq hi h1
  | fork =>
    obtain ⟨_, h1⟩ := ignore_ok hst
    rcases fork_areas hp h1 with hl | ⟨c, hu, _, _, hv, hother⟩
    · exact .of_live hq hi hl
    · by_cases he : q = c
      · subst he
        have hsame := hv i hi
        exact .forked rfl hu (by rw [← hsame]; exact hi) hsame
      · exact .of_vma hq hi (hother q he).1 fun h => ((hother q he).2 h).1
  | exec gs argv =>
    obtain ⟨_, h1⟩ := ignore_ok hst
    rcases exec_areas h1 with ⟨_, hl⟩ | ⟨_, hall⟩
    · exact .of_live hq hi hl
    · exact .of_vma hq hi (by rw [(hall q).1]) fun _ => (hall q).2.1
  | exit status => exact .of_exit hq hi hst
  | wait addr =>
    obtain ⟨_, h1⟩ := ignore_ok hst
    rcases wait_areas h1 with hproc | ⟨c, hu, hother⟩
    · exact .of_live hq hi (.of_proc hproc)
    · have hqc : q ≠ c := fun he => hq (he ▸ hu)
      rw [hother q hqc] at hq hi ⊢
      exact .old hq hi (.refl _)

end

/-- The mappings as `mmap` made them, after a step. -/
def madeAfter (s : Sys) (x : ProcId × Action) (s' : Sys) (made : ProcId → Fin NVMA → VmArea) :
    ProcId → Fin NVMA → VmArea := fun q i =>
  match x.2 with
  | .mmap .. =>
    if q = x.1 ∧ ((s.proc q).vma i).used = false then (s'.proc q).vma i else made q i
  | .fork => if (s.proc q).state = .UNUSED then made x.1 i else made q i
  | _ => made q i

/-- A step, and the mappings that it makes. -/
def MadeStep (y : Sys × (ProcId → Fin NVMA → VmArea)) (x : ProcId × Action)
    (y' : Sys × (ProcId → Fin NVMA → VmArea)) : Prop :=
  Step y.1 x y'.1 ∧ y'.2 = madeAfter y.1 x y'.1 y.2

/-- Every mapping in use is what is left of one that `mmap` made at file offset 0. -/
def MadeOk (y : Sys × (ProcId → Fin NVMA → VmArea)) : Prop :=
  ∀ q, (y.1.proc q).state ≠ .UNUSED → ∀ i, ((y.1.proc q).vma i).used = true →
    (y.2 q i).SameFile ((y.1.proc q).vma i) ∧ (y.2 q i).offset = 0

variable {made : ProcId → Fin NVMA → VmArea}

theorem MadeOk.step {x : ProcId × Action} (h : MadeOk (s, made)) (hst : Step s x s') :
    MadeOk (s', madeAfter s x s' made) := by
  obtain ⟨p, a⟩ := x
  intro q hq i hi
  have hp := hst.1.1
  have hfrom := hst.area_from hq hi
  dsimp only at hp ⊢
  cases hfrom with
  | old live used same =>
    obtain ⟨hsame, hoff⟩ := h q live i used
    have hkept : madeAfter s (p, a) s' made q i = made q i := by
      cases a with
      | mmap addr length prot flags vfile offset =>
        simp only [madeAfter]
        rw [if_neg fun hno => by rw [used] at hno; cases hno.2]
      | fork =>
        simp only [madeAfter]
        rw [if_neg live]
      | moveSp | load | store | argaddr | copyout | grow | shrink | sbrk | munmap | exec | exit
      | wait => rfl
    rw [hkept]
    exact ⟨hsame.trans same, hoff⟩
  | made self call fresh offset =>
    subst self call
    simp only [madeAfter]
    rw [if_pos ⟨trivial, fresh⟩]
    exact ⟨.refl _, offset⟩
  | forked call fresh used same =>
    subst call
    simp only [madeAfter]
    rw [if_pos fresh, same]
    exact h p hp i used

theorem run_made {y0 y : Sys × (ProcId → Fin NVMA → VmArea)} {C : Sys → ProcId × Action → Prop}
    (h0 : MadeOk y0) (h : Run (Guarded (fun y x => C y.1 x) MadeStep) y0 xs y) : MadeOk y := by
  have hstep : ∀ y x y', Guarded (fun y x => C y.1 x) MadeStep y x y' → MadeOk y → MadeOk y' := by
    rintro ⟨s, made⟩ x ⟨s', made'⟩ ⟨_, hst, he⟩ hok
    dsimp only at he
    subst he
    exact hok.step hst
  exact h.invariant hstep h0

theorem run_forget {α : Type} {C : Sys → ProcId × Action → Prop}
    {step : Sys × α → ProcId × Action → Sys × α → Prop} {y0 y : Sys × α}
    (hstep : ∀ y x y', step y x y' → Step y.1 x y'.1)
    (h : Run (Guarded (fun y x => C y.1 x) step) y0 xs y) : Run (Guarded C Step) y0.1 xs y.1 := by
  induction h with
  | nil y => exact .nil _
  | cons hst _ ih => exact .cons ⟨hst.1, hstep _ _ _ hst.2⟩ ih

/-! ### The page of an access -/

/-- The byte `k` of the file, zero after its end. -/
def Sys.fileByte (s : Sys) (f k : Nat) : Byte := ((s.fileData f)[k]?).getD 0

section
omit [Layout]

theorem getByte_filePage {bytes : List Byte} (h : bytes.length ≤ PGSIZE) (hk : k < PGSIZE) :
    getByte (filePage bytes) k = (bytes[k]?).getD 0 := by
  have hz : getByte (fun _ => 0) k = 0 := by simp [getByte]
  rw [filePage, getByte_setBytes bytes (by omega) hk, if_pos (Nat.zero_le _), Nat.sub_zero, hz]

/-- The offset of the page in the file, if the address survives the passage through `int`. -/
theorem VmArea.fileOffset_eq {a : VmArea} {va : Nat} (hva : va < 2 ^ 31) (ha : a.addr ≤ va)
    (hoff : a.offset = 0) : a.fileOffset (int va) = PGROUNDDOWN (va - a.addr) := by
  have hle : PGROUNDDOWN (va - a.addr) ≤ va - a.addr := Nat.div_mul_le_self _ _
  have hmod : (2 ^ 64 - a.addr + va) % 2 ^ 64 = va - a.addr := by omega
  rw [VmArea.fileOffset, uint64_int_of_small hva, hoff, hmod, Int.zero_add,
    int_of_small, uint]
  omega

theorem VmArea.covers_of_mem {a : VmArea} {va : Nat} (hI : a.Inside) (hu : a.used = true)
    (hva : va < 2 ^ 31) (ha : a.addr ≤ va) (hs : va < a.stop) : a.covers (int va) = true := by
  obtain ⟨h0, hint, hlim⟩ := hI hu
  rw [TRAPFRAME_eq] at hlim
  rw [VmArea.stop] at hs
  have hmod : (2 ^ 64 - 1 + a.len.toNat + a.addr) % 2 ^ 64 = a.len.toNat + a.addr - 1 := by omega
  rw [VmArea.covers, uint64_int_of_small hva, uint64_of_nonneg, hmod]
  simp only [hu, Bool.true_and, Bool.and_eq_true, decide_eq_true_eq]
  omega

/-- The mapping that passes the test of `mmap_handler` is found if no other one does. -/
theorem findVma_eq_some {pr : Proc} {va : Int} (hi : (pr.vma i).covers va = true)
    (halone : ∀ j ≠ i, (pr.vma j).covers va = false) : findVma pr va = some (pr.vma i) := by
  rw [findVma]
  cases hf : (List.finRange NVMA).find? fun j => (pr.vma j).covers va with
  | none =>
    rw [List.find?_eq_none] at hf
    exact absurd hi (hf i (List.mem_finRange i))
  | some j =>
    have hj := List.find?_some hf
    have hji : j = i := by
      by_contra hne
      rw [halone j hne] at hj
      cases hj
    rw [hji]
    rfl

end

/-- The access that the mapping `a` was made for. -/
def Permitted (s : Sys) (a : VmArea) (store : Bool) : Prop :=
  if store then allows a.prot PROT_WRITE ∧ (a.flags = MAP_SHARED → (s.file a.vfile).writable)
  else allows a.prot PROT_READ ∧ (a.flags = MAP_SHARED → (s.file a.vfile).readable)

/-- The kernel finds the file for the access to `va`: the address fits into an `int` and belongs
to one mapping, which has not been cut at its start, the stack is below, the file is open for the
access and reaches to the page, and there is memory. -/
structure Pageable (s : Sys) (made : VmArea) (p : ProcId) (i : Fin NVMA) (va : Nat) (store : Bool) :
    Prop where
  small : va < 2 ^ 31
  alone : ∀ j ≠ i, ((s.proc p).vma j).covers (int va) = false
  uncut : ((s.proc p).vma i).addr = made.addr
  stack : (s.proc p).aboveStack va
  size : va < (s.proc p).sz
  mode : if store then (s.file made.vfile).writable else (s.file made.vfile).readable
  within : PGROUNDDOWN (va - made.addr) < (s.fileData made.vfile).length
  memory : Enough s.mem 3

/-- The entry `w` of the page at the offset `d` of the mapping shows the file, and allows no more
than the mapping does. -/
structure Shows (s : Sys) (m' : Phys) (made : VmArea) (d : Nat) (w : Word) : Prop where
  valid : has w PTE_V
  user : has w PTE_U
  read : has w PTE_R → allows made.prot PROT_READ
  write : has w PTE_W → allows made.prot PROT_WRITE
  exec : has w PTE_X → allows made.prot PROT_EXEC
  bytes : ∀ k < PGSIZE, getByte (m'.page (PTE2PA w)) k = s.fileByte made.vfile (d + k)

omit [Layout] in
theorem readi_page {data : List Byte} {off : Nat} (hoff : off < 2 ^ 31) (hin : off < data.length)
    (hk : k < PGSIZE) : (readi data off PGSIZE)[k]? = data[off + k]? ∧
      (readi data off PGSIZE).length ≤ PGSIZE ∧ readi data off PGSIZE ≠ [] := by
  have hpg : PGSIZE = 4096 := rfl
  rw [readi, if_neg (by omega)]
  refine ⟨?_, List.length_take_le _ _, ?_⟩
  · rw [List.getElem?_take_of_lt hk, List.getElem?_drop]
  · intro hnil
    have := congrArg List.length hnil
    rw [List.length_take, List.length_drop, List.length_nil] at this
    omega

omit [Layout] in
theorem of_has_pteFlags (a : VmArea) : (has a.pteFlags PTE_R → allows a.prot PROT_READ) ∧
    (has a.pteFlags PTE_W → allows a.prot PROT_WRITE) ∧
    (has a.pteFlags PTE_X → allows a.prot PROT_EXEC) := by
  rw [VmArea.pteFlags]
  cases allows a.prot PROT_READ <;> cases allows a.prot PROT_WRITE <;>
    cases allows a.prot PROT_EXEC <;> decide

variable {own : Nat → Owner} {va cause : Nat}

theorem FileMapped.shows {m' : Phys} {a b : VmArea} (M : FileMapped s p va a m') (hb : b.SameFile a)
    (hva : va < 2 ^ 31) (ha : a.addr ≤ va) (hoff : a.offset = 0)
    (hin : PGROUNDDOWN (va - a.addr) < (s.fileData a.vfile).length) :
    Shows s m' b (PGROUNDDOWN (va - a.addr)) (m'.leaf (s.proc p).pagetable (slot va)) := by
  rw [FileMapped, uint64_int_of_small hva] at M
  have hlt : va < TRAPFRAME := lt_of_PGROUNDDOWN_lt M.below
  have hmax : va < MAXVA := lt_MAXVA hlt
  obtain ⟨r, hr, P, hpg⟩ := M.page
  rw [slot_PGROUNDDOWN hmax] at P
  have hself : m'.leaf (s.proc p).pagetable (slot va) = PA2PTE r ||| b.pteFlags ||| PTE_V := by
    rw [← root_some, P.self, hb.pteFlags]
  have hPA : PTE2PA (PA2PTE r ||| b.pteFlags ||| PTE_V) = r :=
    PTE2PA_mk_V hr.1 hr.lt (isFlags_pteFlags b)
  obtain ⟨hR, hW, hX⟩ := of_has_pteFlags b
  rw [hself]
  refine ⟨has_mk_V _, (has_mk r).trans (has_pteFlags b).1, fun h => hR ?_,
    fun h => hW ?_, fun h => hX ?_, fun k hk => ?_⟩
  · exact (has_mk r).symm.trans h
  · exact (has_mk r).symm.trans h
  · exact (has_mk r).symm.trans h
  · have hle : PGROUNDDOWN (va - a.addr) ≤ va - a.addr := Nat.div_mul_le_self _ _
    obtain ⟨hget, hlen, _⟩ := readi_page (by omega) hin hk
    have hbytes : s.fileBytes a (int va) = readi (s.fileData a.vfile)
        (PGROUNDDOWN (va - a.addr)) PGSIZE := by
      rw [fileBytes, VmArea.fileOffset_eq hva ha hoff]
    rw [hPA, hpg, hbytes, getByte_filePage hlen hk, hget, fileByte, hb.vfile]

section
variable (C : Counted s.mem s.root own)
include C

theorem kallocIf_full {c : Bool} (h : Full s.mem ∨ c = false) :
    ∃ m', kallocIf c s = .ok (0, { s with mem := m' }) ∧ Counted m' s.root own ∧
      Keeps s.root (fun _ => False) s.mem m' ∧ m'.cnt = s.mem.cnt := by
  cases c with
  | false => exact ⟨s.mem, rfl, C, .refl _ _ _, rfl⟩
  | true =>
    have hfull : Full s.mem := h.resolve_right (by simp)
    obtain ⟨r, m', hk, hl, hcase⟩ := C.kalloc
    rcases hcase with ⟨rfl, _, hp, hc, C'⟩ | ⟨hm, hz, _⟩
    · refine ⟨m', onMem_of_ok hk, C', C.keeps_none hl (fun t _ _ => by rw [hp]) _, hc⟩
    · exact absurd hz (hfull r hm)

/-- Without memory, or below the stack, nothing is allocated. -/
theorem lazyFault_full (h : Full s.mem ∨ (s.proc p).aboveStack va = false) :
    ∃ m', lazyFault p va s = .ok ((), { s with mem := m' }.setProc p killedProc) ∧
      Keeps s.root (fun _ => False) s.mem m' := by
  have hc : ∀ b, Full s.mem ∨ ((s.proc p).aboveStack va && b) = false := fun b => by
    rcases h with h | h
    · exact .inl h
    · exact .inr (by rw [h, Bool.false_and])
  obtain ⟨m1, h1, C1, K1, hcnt⟩ := kallocIf_full C (hc (decide (va < (s.proc p).sz)))
  have hc1 : Full m1 ∨ ((s.proc p).aboveStack va && decide (va < (s.proc p).shm)) = false :=
    (hc _).imp_left fun hf => hf.congr hcnt
  obtain ⟨m2, h2, _, K2, _⟩ := kallocIf_full (s := { s with mem := m1 }) C1 hc1
  refine ⟨m2, ?_, K1.trans K2⟩
  rw [lazyFault, get_bind_apply, bind_of_ok h1, if_neg (by simp), bind_of_ok h2]
  rfl

theorem mmapFault_full (cause : Nat) (h : Full s.mem ∨ (s.proc p).aboveStack va = false) :
    ∃ m', mmapFault p cause va s = .ok (-1, { s with mem := m' }) ∧ Counted m' s.root own ∧
      Keeps s.root (fun _ => False) s.mem m' ∧ m'.cnt = s.mem.cnt := by
  have hdone : ∃ m', (.ok (-1, s) : Except String (Int × Sys)) = .ok (-1, { s with mem := m' }) ∧
      Counted m' s.root own ∧ Keeps s.root (fun _ => False) s.mem m' ∧ m'.cnt = s.mem.cnt :=
    ⟨s.mem, rfl, C, .refl _ _ _, rfl⟩
  rw [mmapFault, get_bind_apply]
  split
  case isFalse => exact hdone
  case isTrue hc =>
    have hfull : Full s.mem := h.resolve_right (by rw [hc.1]; simp)
    rw [mmap_handler, get_bind_apply]
    cases findVma (s.proc p) (int va) with
    | none => exact hdone
    | some a =>
      dsimp only
      split
      · exact hdone
      split
      · exact hdone
      · obtain ⟨m', hk, hrest⟩ := kallocIf_full (c := true) C (.inl hfull)
        refine ⟨m', ?_, hrest⟩
        rw [mmapFill, get_bind_apply, bind_of_ok (show onMem kalloc s = _ from hk)]
        rfl

end

/-- A fault that meets no copy-on-write entry, without memory or below the stack, kills the
process. -/
theorem pageFault_full (I : Inv s own) (hp : (s.proc p).pagetable ≠ 0) (cause : Nat)
    (hc : ¬ CowEntry s.mem s.root (some p) va) (h : Full s.mem ∨ (s.proc p).aboveStack va = false) :
    ∃ m', pageFault p cause va s = .ok ((), { s with mem := m' }.setProc p killedProc) ∧
      Keeps s.root (fun _ => False) s.mem m' := by
  have hcow := I.cowpage hp va
  rw [if_neg hc] at hcow
  obtain ⟨m1, h1, C1, K1, hcnt⟩ := mmapFault_full I.counted cause h
  have hfull : Full m1 ∨ (s.proc p).aboveStack va = false := h.imp_left fun hf => hf.congr hcnt
  obtain ⟨m2, h2, K2⟩ := lazyFault_full (s := { s with mem := m1 }) C1 hfull
  refine ⟨m2, ?_, K1.trans K2⟩
  rw [pageFault, get_bind_apply, bind_of_ok (onMem_of_ok hcow), if_neg (by decide),
    bind_of_ok h1, if_neg (by decide), h2]

/-- The first access that meets the conditions maps the page of the file. -/
theorem Pageable.fault {a : VmArea} {store : Bool} (hP : Pageable s a p i va store) (I : Inv s own)
    (hp : (s.proc p).pagetable ≠ 0) (hsame : a.SameFile ((s.proc p).vma i)) (hoff : a.offset = 0)
    (hused : ((s.proc p).vma i).used = true) (hstart : ((s.proc p).vma i).addr ≤ va)
    (hstop : va < ((s.proc p).vma i).stop)
    (hV : has (s.mem.leaf (s.proc p).pagetable (slot va)) PTE_V = false) :
    ∃ m', pageFault p (if store then 15 else 13) va s = .ok ((), { s with mem := m' }) ∧
      FileMapped s p va ((s.proc p).vma i) m' ∧
      Shows s m' a (PGROUNDDOWN (va - a.addr)) (m'.leaf (s.proc p).pagetable (slot va)) := by
  have hoff' : ((s.proc p).vma i).offset = 0 := hsame.offset.trans hoff
  have hmax : va < MAXVA := Nat.lt_trans (Nat.lt_of_lt_of_le hP.size (I.space p hp).size)
    TRAPFRAME_lt_MAXVA
  have hnc : ¬ CowEntry s.mem s.root (some p) va := fun hc => by
    have := hc.2.1
    rw [root_some, hV] at this
    cases this
  have hin : PGROUNDDOWN (va - ((s.proc p).vma i).addr) <
      (s.fileData ((s.proc p).vma i).vfile).length := by
    rw [hP.uncut, hsame.vfile]
    exact hP.within
  have hsmall : PGROUNDDOWN (va - ((s.proc p).vma i).addr) < 2 ^ 31 :=
    Nat.lt_of_le_of_lt (Nat.div_mul_le_self _ _) (Nat.lt_of_le_of_lt (Nat.sub_le _ _) hP.small)
  have hit : FileHit s p (if store then 15 else 13) va ((s.proc p).vma i) := by
    have hmode := hP.mode
    rw [← hsame.vfile] at hmode
    refine ⟨hP.stack, hP.size, findVma_eq_some (VmArea.covers_of_mem (I.vma p i) hused hP.small
      hstart hstop) hP.alone, fun hcause => ?_, fun hcause => ?_, ?_⟩
    · cases store with
      | true => cases hcause
      | false => exact hmode
    · cases store with
      | true => exact hmode
      | false => cases hcause
    · rw [fileBytes, VmArea.fileOffset_eq hP.small hstart hoff']
      exact (readi_page hsmall hin (k := 0) (by decide)).2.2
  have hmeets : Meets s p (if store then 15 else 13) va := by
    refine ⟨fun _ _ _ => ⟨hmax, hV⟩, fun b hb hip => ?_, fun _ _ _ => ?_⟩
    · rw [Option.some.inj (hit.area.symm.trans hb), fileData, hip] at hin
      cases hin
    · rw [uint64_int_of_small hP.small]
      exact ⟨hmax, hV⟩
  obtain ⟨_, s', hf⟩ := pageFault_returns I hp hmeets
  obtain ⟨own', _, _, D⟩ := pageFault_spec I hp hf
  cases D with
  | cow hc d => exact absurd hc hnc
  | @file m' b hc hit' M hs' =>
    have hb : b = (s.proc p).vma i := Option.some.inj (hit'.area.symm.trans hit.area)
    subst hb hs'
    have hshows := M.shows hsame hP.small hstart hoff' hin
    rw [hP.uncut] at hshows
    exact ⟨m', hf, M, hshows⟩
  | zero hc hno hst hlt M hs' => exact absurd hit (hno hP.memory _)
  | killed hc hno K hs' => exact absurd hit ((hno hP.memory).1 _)

/-- The first access to a page of a mapping brings in its part of the file, if the kernel finds
the file. An access that the mapping does not permit kills the process if there is no memory for
it, or it is below the stack. -/
theorem first_access_shows_file {s₀ : Sys} {made₀ : ProcId → Fin NVMA → VmArea}
    {xs : List (ProcId × Action)} {store : Bool} (hs : ∃ own, Inv s₀ own) (hm : MadeOk (s₀, made₀))
    (h : Run (Guarded (fun y x => Tame y.1 x) MadeStep) (s₀, made₀) xs (s, made))
    (ha : (s.proc p).Active) (hused : ((s.proc p).vma i).used = true)
    (hstart : ((s.proc p).vma i).addr ≤ va) (hstop : va < ((s.proc p).vma i).stop) :
    (Permitted s (made p i) store → has (s.mem.leaf (s.proc p).pagetable (slot va)) PTE_V = false →
      Pageable s (made p i) p i va store →
      ∃ s', pageFault p (if store then 15 else 13) va s = .ok ((), s') ∧ s'.proc = s.proc ∧
        Shows s s'.mem (made p i) (PGROUNDDOWN (va - (made p i).addr))
          (s'.mem.leaf (s.proc p).pagetable (slot va))) ∧
    (¬ Permitted s (made p i) store → ¬ CowEntry s.mem s.root (some p) va →
      Full s.mem ∨ (s.proc p).aboveStack va = false →
      ∃ s', pageFault p (if store then 15 else 13) va s = .ok ((), s') ∧
        (s'.proc p).killed = true ∧ Keeps s.root (fun _ => False) s.mem s'.mem) := by
  obtain ⟨own, I⟩ := run_inv (run_forget (fun _ _ _ h => h.1) h) hs
  have hp := I.used p ha.1
  obtain ⟨hsame, hoff⟩ := run_made hm h p ha.1 i hused
  refine ⟨fun _ hV hP => ?_, fun _ hc hfull => ?_⟩
  · obtain ⟨m', hf, _, hshows⟩ := hP.fault I hp hsame hoff hused hstart hstop hV
    exact ⟨_, hf, rfl, hshows⟩
  · obtain ⟨m', hf, K⟩ := pageFault_full I hp (if store then 15 else 13) hc hfull
    refine ⟨_, hf, ?_, K⟩
    rw [setProc_self]
    rfl

end

/-- The first load from a mapped file of 26 bytes. -/
theorem first_access_shows_file_load : let := twentyPages
    ∃ (s0 s s' : Sys) (made : VmArea), small oneFile oneInode Tame [] = some s0 ∧
      next s0 (0, .mmap 0 4096 1 2 0 0) = some s ∧ pageFault 0 13 4096 s = .ok ((), s') ∧
      Shows s s'.mem made 0 (s'.mem.leaf (s.proc 0).pagetable (slot 4096)) := by
  let := twentyPages
  obtain ⟨s0, h0, hnone, ht, s, hs, ha, hu, haddr, hstop, hprot, hflags, hread, hlen, halone, hst,
      hsz, hV, hfree⟩ : ∃ s0, small oneFile oneInode Tame [] = some s0 ∧
      (∀ q i, ((s0.proc q).vma i).used = false) ∧ Tame s0 (0, .mmap 0 4096 1 2 0 0) ∧ ∃ s,
      next s0 (0, .mmap 0 4096 1 2 0 0) = some s ∧ (s.proc 0).Active ∧
      ((s.proc 0).vma 0).used = true ∧ ((s.proc 0).vma 0).addr = 4096 ∧
      ((s.proc 0).vma 0).stop = 8192 ∧ ((s.proc 0).vma 0).prot = PROT_READ ∧
      ((s.proc 0).vma 0).flags = MAP_PRIVATE ∧
      (s.file ((s.proc 0).vma 0).vfile).readable = true ∧
      (s.fileData ((s.proc 0).vma 0).vfile).length = 26 ∧
      (∀ j ≠ 0, ((s.proc 0).vma j).covers (int 4096) = false) ∧
      (s.proc 0).aboveStack 4096 = true ∧ 4096 < (s.proc 0).sz ∧
      has (s.mem.leaf (s.proc 0).pagetable (slot 4096)) PTE_V = false ∧
      ∀ q ∈ threePages, Managed q ∧ s.mem.count q = 0 := by
    decide +kernel +revert
  obtain ⟨_, hI, hrun⟩ := small_run h0
  cases hrun
  have hm : MadeOk (s0, fun _ _ => VmArea.unused) := fun q _ i hi => by
    rw [hnone q i] at hi
    cases hi
  have hrun : Run (Guarded (fun y x => Tame y.1 x) MadeStep) (s0, fun _ _ => VmArea.unused)
      [(0, .mmap 0 4096 1 2 0 0)] (s, madeAfter s0 (0, .mmap 0 4096 1 2 0 0) s _) :=
    .single ⟨ht, next_eq_some.mp hs, rfl⟩
  have hmade : madeAfter s0 (0, .mmap 0 4096 1 2 0 0) s (fun _ _ => VmArea.unused) 0 0 =
      (s.proc 0).vma 0 := by
    simp only [madeAfter]
    rw [if_pos ⟨trivial, hnone 0 0⟩]
  have hmain : (Permitted s _ false → _) ∧ _ := first_access_shows_file hI hm hrun ha hu
    (Nat.le_of_eq haddr) (by rw [hstop]; decide)
  rw [hmade, haddr] at hmain
  obtain ⟨s', hf, _, hshows⟩ := hmain.1 ⟨by rw [hprot]; decide, fun _ => hread⟩ hV
    ⟨by decide, halone, rfl, hst, hsz, hread, by rw [haddr, hlen]; decide,
      threePages, by decide, rfl, hfree⟩
  exact ⟨s0, s, s', _, h0, hs, hf, hshows⟩

/-- A system call that is given a pointer into a mapped file sees zeros, and the page of a
mapping for reading can be written from then on. -/
theorem pointer_argument_hides_file : let := twentyPages
    ∃ s, small oneFile oneInode Tame [(0, .mmap 0 4096 1 2 0 0), (0, .argaddr 4096)] = some s ∧
      ((s.proc 0).vma 0).used = true ∧ ((s.proc 0).vma 0).addr = 4096 ∧
      allows ((s.proc 0).vma 0).prot PROT_WRITE = false ∧
      has (s.mem.leaf (s.proc 0).pagetable (slot 4096)) PTE_W = true ∧
      getByte (s.mem.page (PTE2PA (s.mem.leaf (s.proc 0).pagetable (slot 4096)))) 0 ≠
        s.fileByte ((s.proc 0).vma 0).vfile 0 := by
  decide +kernel

end Yyds.Kernel
