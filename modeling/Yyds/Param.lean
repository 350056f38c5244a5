import Mathlib

/-! The constants of `param.h`, `fs.h`, `riscv.h` and `memlayout.h` that the models use. -/
namespace Yyds

/-- maximum number of processes -/
def NPROC : Nat := 64
/-- maximum number of CPUs -/
def NCPU : Nat := 8

instance : NeZero NPROC := ⟨by decide⟩
instance : NeZero NCPU := ⟨by decide⟩

/-- most blocks one file-system operation may log -/
def MAXOPBLOCKS : Nat := 10
def LOGSIZE : Nat := MAXOPBLOCKS * 3

/-- block size in bytes -/
def BSIZE : Nat := 1024
def NDIRECT : Nat := 11
def NINDIRECT : Nat := BSIZE / 4
def NDINDIRECT : Nat := (BSIZE / 4) * (BSIZE / 4)
def MAXFILE : Nat := NDIRECT + NINDIRECT + NDINDIRECT

/-- bytes per page -/
def PGSIZE : Nat := 4096
def KERNBASE : Nat := 0x80000000
def PHYSTOP : Nat := KERNBASE + 128 * 1024 * 1024
/-- one beyond the highest virtual address -/
def MAXVA : Nat := 2 ^ (9 + 9 + 9 + 12 - 1)
def TRAMPOLINE : Nat := MAXVA - PGSIZE
def TRAPFRAME : Nat := TRAMPOLINE - PGSIZE
theorem PHYSTOP_eq : PHYSTOP = 2281701376 := rfl
theorem MAXVA_eq : MAXVA = 274877906944 := rfl
theorem TRAMPOLINE_eq : TRAMPOLINE = 274877902848 := rfl

theorem TRAPFRAME_eq : TRAPFRAME = 274877898752 := rfl

/-- most arguments of `exec` -/
def MAXARG : Nat := 32
/-- mapped files per process -/
def NVMA : Nat := 16

instance : NeZero NVMA := ⟨by decide⟩
/-- the entries of a page table, and the priorities of `embassy.c` -/
instance neZero512 : NeZero 512 := ⟨by decide⟩
instance neZero4 : NeZero 4 := ⟨by decide⟩

end Yyds
