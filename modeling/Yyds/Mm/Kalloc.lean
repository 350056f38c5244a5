import Yyds.Lib.Chain
import Yyds.Lib.Kern
import Yyds.Mm.Riscv

/-! The physical page allocator of `kalloc.c`: one free list per CPU, threaded through the
free pages, and a reference count for each page. -/
namespace Yyds.Mm

open Lib Function

/-- What the linker fixes: `end`, the first address after the kernel, and the page that
holds the trampoline code. -/
class Layout where
  kend : Nat
  trampoline : Nat
  kernbase_le : KERNBASE ≤ trampoline
  trampoline_aligned : trampoline % PGSIZE = 0
  trampoline_lt : trampoline < kend
  kend_le : kend ≤ PHYSTOP

open Layout

/-- The 512 words of a physical page. -/
abbrev Page := Fin 512 → Word

/-- Physical memory by page address, and the globals of `kalloc.c`. `cpus` are the CPUs on
which the coming calls of `cpuid` run. -/
structure Phys where
  page : Nat → Page
  cnt : Nat → BitVec 32
  freelist : Fin NCPU → Nat
  cpus : Nat → Fin NCPU

namespace Phys

/-- `r->next` -/
def next (s : Phys) (r : Nat) : Nat := (s.page r 0).toNat

/-- The word of `ref.cnt` for the page at `pa`, and its value as an `int`. -/
def count (s : Phys) (pa : Nat) : BitVec 32 := s.cnt (pa / PGSIZE)

def refcnt (s : Phys) (pa : Nat) : Int := (s.count pa).toInt

@[simps -fullyApplied]
def setPage (s : Phys) (pa : Nat) (p : Page) : Phys :=
  { s with page := update s.page pa p }

@[simps -fullyApplied]
def setCnt (s : Phys) (pa : Nat) (v : BitVec 32) : Phys :=
  { s with cnt := update s.cnt (pa / PGSIZE) v }

@[simps -fullyApplied]
def setHead (s : Phys) (c : Fin NCPU) (r : Nat) : Phys :=
  { s with freelist := update s.freelist c r }

/-- The machine before `kinit`: the globals are zero, memory is whatever it is. -/
def boot (page : Nat → Page) (cpus : Nat → Fin NCPU) : Phys where
  page := page
  cnt := fun _ => 0
  freelist := fun _ => 0
  cpus := cpus

variable {s t : Phys} {pa : Nat}

theorem next_congr (h : t.page pa = s.page pa) : t.next pa = s.next pa := by
  rw [next, next, h]

theorem index_injective {a b : Nat} (ha : a % PGSIZE = 0) (hb : b % PGSIZE = 0)
    (h : a / PGSIZE = b / PGSIZE) : a = b := by
  simp only [PGSIZE] at *
  omega

theorem count_update {v : BitVec 32} {q : Nat} (h : t.cnt = update s.cnt (pa / PGSIZE) v)
    (hpa : pa % PGSIZE = 0) (hq : q % PGSIZE = 0) :
    t.count q = if q = pa then v else s.count q := by
  rw [count, count, h]
  by_cases he : q = pa
  · simp [he]
  · rw [update_of_ne fun hi => he (index_injective hq hpa hi), if_neg he]

theorem refcnt_pos (h : 1 ≤ s.refcnt pa) :
    1 ≤ (s.count pa).toNat ∧ (s.count pa).toNat < 2 ^ 31 := by
  rw [refcnt, BitVec.toInt_eq_toNat_cond] at h
  split at h <;> omega

theorem refcnt_eq_zero : s.refcnt pa = 0 ↔ s.count pa = 0 := by
  rw [refcnt, ← BitVec.toInt_zero, BitVec.toInt_inj]
  rfl

theorem refcnt_eq_one : s.refcnt pa = 1 ↔ s.count pa = 1 := by
  have h1 : (1 : BitVec 32).toInt = 1 := by decide
  rw [refcnt, ← h1, BitVec.toInt_inj]

theorem count_ne_zero (h : 1 ≤ s.refcnt pa) : s.count pa ≠ 0 := by
  intro hz
  rw [refcnt_eq_zero.mpr hz] at h
  omega

end Phys

def cpuid : Kern Phys (Fin NCPU) := fun s =>
  .ok (s.cpus 0, { s with cpus := fun n => s.cpus (n + 1) })

/-- `memset(pa, b, PGSIZE)`, where `w` is the byte `b` eight times -/
def memset (pa : Nat) (w : Word) : Kern Phys Unit :=
  Kern.modify fun s => s.setPage pa fun _ => w

def junk5 : Word := 0x0505050505050505
def junk1 : Word := 0x0101010101010101

/-- Take the first page `r` off the list of CPU `c`. -/
def takeRun (c : Fin NCPU) (r : Nat) : Kern Phys Unit :=
  Kern.modify fun s => (s.setHead c (s.next r)).setCnt r 1

/-- The loop of `kalloc` over the other CPUs' lists. -/
def steal (id : Fin NCPU) : List (Fin NCPU) → Kern Phys Nat
  | [] => pure 0
  | antid :: rest => do
    if antid = id then steal id rest
    else
      let s ← Kern.get
      if s.freelist antid ≠ 0 then
        takeRun antid (s.freelist antid)
        pure (s.freelist antid)
      else steal id rest

/-- The first page of the list of CPU `id`, or else of another list. -/
def popRun (id : Fin NCPU) : Kern Phys Nat := do
  let s ← Kern.get
  if s.freelist id ≠ 0 then
    takeRun id (s.freelist id)
    pure (s.freelist id)
  else steal id (List.finRange NCPU)

/-- Returns 0 if the memory cannot be allocated. -/
def kalloc : Kern Phys Nat := do
  let id ← cpuid
  let r ← popRun id
  Kern.when (r ≠ 0) (memset r junk5)
  pure r

section
variable [Layout]

/-- The pages the allocator hands out. -/
def Managed (pa : Nat) : Prop := pa % PGSIZE = 0 ∧ kend ≤ pa ∧ pa < PHYSTOP
  deriving Decidable

/-- Put the page `r` at the head of the list of the CPU at hand. -/
def pushRun (r : Nat) : Kern Phys Unit := do
  let id ← cpuid
  Kern.modify fun s =>
    (s.setPage r (update (s.page r) 0 (BitVec.ofNat 64 (s.freelist id)))).setHead id r

def kfree (pa : Nat) : Kern Phys Unit := do
  Kern.when (pa % PGSIZE ≠ 0 ∨ pa < kend ∨ pa ≥ PHYSTOP) (Kern.panic "kfree")
  Kern.modify fun s => s.setCnt pa (s.cnt (pa / PGSIZE) - 1)
  let s ← Kern.get
  Kern.when (s.cnt (pa / PGSIZE) = 0) do
    memset pa junk1
    pushRun pa

def freerangeFrom : Nat → Nat → Kern Phys Unit
  | 0, _ => pure ()
  | n + 1, p => do
    Kern.modify fun s => s.setCnt p 1
    kfree p
    freerangeFrom n (p + PGSIZE)

/-- The loop runs while `p + PGSIZE <= pa_end`. -/
def freerange (paStart paEnd : Nat) : Kern Phys Unit :=
  freerangeFrom ((paEnd - PGROUNDUP paStart) / PGSIZE) (PGROUNDUP paStart)

def kinit : Kern Phys Unit := freerange kend PHYSTOP

def krefcnt (pa : Nat) : Kern Phys Int := do
  let s ← Kern.get
  pure (s.refcnt pa)

def kaddrefcnt (pa : Nat) : Kern Phys Int := do
  if pa % PGSIZE ≠ 0 ∨ pa < kend ∨ pa ≥ PHYSTOP then pure (-1)
  else
    Kern.modify fun s => s.setCnt pa (s.cnt (pa / PGSIZE) + 1)
    pure 0

end

end Yyds.Mm
