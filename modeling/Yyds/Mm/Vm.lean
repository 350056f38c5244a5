import Yyds.Mm.Kalloc

/-! The user page tables of `vm.c` and the copy-on-write routines of `kalloc.c`. A page
table is the address of its root page; page-table pages are pages of physical memory. -/
namespace Yyds.Mm

open Lib Layout

abbrev Byte := BitVec 8

/-- `&pagetable[i]` -/
abbrev PtePtr := Nat × Fin 512

def Phys.pte (s : Phys) (x : PtePtr) : Word := s.page x.1 x.2

def Phys.setPte (s : Phys) (x : PtePtr) (w : Word) : Phys :=
  s.setPage x.1 (Function.update (s.page x.1) x.2 w)

/-- `*pte = w` -/
def writePte (x : PtePtr) (w : Word) : Kern Phys Unit := Kern.modify fun s => s.setPte x w

@[simp] theorem writePte_bind_apply {α : Type} (x : PtePtr) (w : Word) (f : Unit → Kern Phys α)
    (s : Phys) : (writePte x w >>= f) s = f () (s.setPte x w) := rfl

/-- The levels of `walk` from `level` down to 1, in the table `t`. -/
def walkFrom (va : Nat) (alloc : Bool) : Nat → Nat → Kern Phys (Option PtePtr)
  | 0, t => pure (some (t, PX 0 va))
  | level + 1, t => do
    let s ← Kern.get
    if has (s.pte (t, PX (level + 1) va)) PTE_V then
      walkFrom va alloc level (PTE2PA (s.pte (t, PX (level + 1) va)))
    else if alloc = false then pure none
    else
      let r ← kalloc
      if r = 0 then pure none
      else
        memset r 0
        writePte (t, PX (level + 1) va) (PA2PTE r ||| PTE_V)
        walkFrom va alloc level r

/-- The entry for `va`, or `none` for a null pointer. -/
def walk (pagetable va : Nat) (alloc : Bool) : Kern Phys (Option PtePtr) := do
  Kern.when (va ≥ MAXVA) (Kern.panic "walk")
  walkFrom va alloc 2 pagetable

def walkaddr (pagetable va : Nat) : Kern Phys Nat := do
  if va ≥ MAXVA then pure 0
  else
    match ← walk pagetable va false with
    | none => pure 0
    | some x =>
      let s ← Kern.get
      if has (s.pte x) PTE_V = false then pure 0
      else if has (s.pte x) PTE_U = false then pure 0
      else pure (PTE2PA (s.pte x))

/-- `n + 1` rounds of the loop of `mappages`. -/
def mappagesFrom (pagetable : Nat) (perm : Word) : Nat → Nat → Nat → Kern Phys Int
  | n, a, pa => do
    match ← walk pagetable a true with
    | none => pure (-1)
    | some x =>
      let s ← Kern.get
      Kern.when (has (s.pte x) PTE_V) (Kern.panic "remap")
      writePte x (PA2PTE pa ||| perm ||| PTE_V)
      match n with
      | 0 => pure 0
      | n + 1 => mappagesFrom pagetable perm n (a + PGSIZE) (pa + PGSIZE)

/-- The loop ends at the round whose `a` is `PGROUNDDOWN(va + size - 1)`. -/
def mappages (pagetable va size pa : Nat) (perm : Word) : Kern Phys Int :=
  let a := PGROUNDDOWN va
  let last := PGROUNDDOWN ((2 ^ 64 - 1 + size + va) % 2 ^ 64)
  mappagesFrom pagetable perm ((2 ^ 64 - a + last) % 2 ^ 64 / PGSIZE) a pa

def uvmcreate : Kern Phys Nat := do
  let pagetable ← kalloc
  if pagetable = 0 then pure 0
  else
    memset pagetable 0
    pure pagetable

def cowpage (pagetable va : Nat) : Kern Phys Int := do
  if va ≥ MAXVA then pure (-1)
  else
    match ← walk pagetable va false with
    | none => pure (-1)
    | some x =>
      let s ← Kern.get
      if has (s.pte x) PTE_V = false then pure (-1)
      else pure (if has (s.pte x) PTE_F then 0 else -1)

section
variable [Layout]

def unmapOne (pagetable : Nat) (doFree : Bool) (a : Nat) : Kern Phys Unit := do
  match ← walk pagetable a false with
  | none => pure ()
  | some x =>
    let s ← Kern.get
    if has (s.pte x) PTE_V = false then pure ()
    else if PTE_FLAGS (s.pte x) = PTE_V then Kern.panic "uvmunmap: not a leaf"
    else
      Kern.when doFree (kfree (PTE2PA (s.pte x)))
      writePte x 0

def uvmunmapFrom (pagetable : Nat) (doFree : Bool) : Nat → Nat → Kern Phys Unit
  | 0, _ => pure ()
  | n + 1, a => do
    unmapOne pagetable doFree a
    uvmunmapFrom pagetable doFree n (a + PGSIZE)

def uvmunmap (pagetable va npages : Nat) (doFree : Bool) : Kern Phys Unit := do
  Kern.when (va % PGSIZE ≠ 0) (Kern.panic "uvmunmap: not aligned")
  uvmunmapFrom pagetable doFree (((va + npages * PGSIZE) % 2 ^ 64 - va) / PGSIZE) va

/-- `npages` is an `int`, which `uvmunmap` takes as a `uint64`. -/
def uvmdealloc (pagetable oldsz newsz : Nat) : Kern Phys Nat := do
  if newsz ≥ oldsz then pure oldsz
  else
    Kern.when (PGROUNDUP newsz < PGROUNDUP oldsz)
      (uvmunmap pagetable (PGROUNDUP newsz)
        (BitVec.signExtend 64 (BitVec.ofNat 32
          ((PGROUNDUP oldsz - PGROUNDUP newsz) / PGSIZE))).toNat true)
    pure newsz

/-- `mappages` for a page from `kalloc`, which is freed again if there is no memory for the
tables. -/
def mapOrFree (pagetable va mem : Nat) (perm : Word) : Kern Phys Int := do
  let r ← mappages pagetable va PGSIZE mem perm
  Kern.when (r ≠ 0) (kfree mem)
  pure r

def uvmallocFrom (pagetable oldsz newsz : Nat) : Nat → Nat → Kern Phys Nat
  | 0, _ => pure newsz
  | n + 1, a => do
    let mem ← kalloc
    if mem = 0 then
      let _ ← uvmdealloc pagetable a oldsz
      pure 0
    else
      memset mem 0
      let r ← mapOrFree pagetable a mem (PTE_W ||| PTE_X ||| PTE_R ||| PTE_U)
      if r ≠ 0 then
        let _ ← uvmdealloc pagetable a oldsz
        pure 0
      else uvmallocFrom pagetable oldsz newsz n (a + PGSIZE)

def uvmalloc (pagetable oldsz newsz : Nat) : Kern Phys Nat :=
  if newsz < oldsz then pure oldsz
  else
    uvmallocFrom pagetable (PGROUNDUP oldsz) newsz
      ((newsz - PGROUNDUP oldsz + PGSIZE - 1) / PGSIZE) (PGROUNDUP oldsz)

/-- The entries of a table, in the order in which `freewalk` visits them. -/
@[irreducible] def tableIndices : List (Fin 512) := List.finRange 512

/-- One round of the loop of `freewalk`, which calls itself for the table below. -/
def freeEntry (freewalk : Nat → Kern Phys Unit) (pagetable : Nat) (i : Fin 512) :
    Kern Phys Unit := do
  let s ← Kern.get
  if has (s.pte (pagetable, i)) PTE_V ∧
      has (s.pte (pagetable, i)) (PTE_R ||| PTE_W ||| PTE_X) = false then
    freewalk (PTE2PA (s.pte (pagetable, i)))
    writePte (pagetable, i) 0
  else pure ()

/-- The recursion of `freewalk`, at most `depth` tables deep. A page table is three deep. -/
def freewalk : Nat → Nat → Kern Phys Unit
  | 0, _ => Kern.panic "freewalk: below the last level"
  | depth + 1, pagetable => do
    Kern.forEach tableIndices (freeEntry (freewalk depth) pagetable)
    kfree pagetable

def uvmfree (pagetable sz : Nat) : Kern Phys Unit := do
  Kern.when (sz > 0) (uvmunmap pagetable 0 (PGROUNDUP sz / PGSIZE) true)
  freewalk 3 pagetable

/-- The flags that parent and child share a page with. -/
def shareFlags (w : Word) : Word :=
  if has w PTE_W then (PTE_FLAGS w ||| PTE_F) &&& ~~~PTE_W else PTE_FLAGS w

/-- One round of `uvmcopy` for the valid entry `x` of the parent. -/
def sharePage (new i : Nat) (x : PtePtr) : Kern Phys Int := do
  let s ← Kern.get
  let w := s.pte x
  Kern.when (has w PTE_W) (writePte x (PA2PTE (PTE2PA w) ||| shareFlags w))
  let r ← mappages new i PGSIZE (PTE2PA w) (shareFlags w)
  if r ≠ 0 then
    uvmunmap new 0 (i / PGSIZE) true
    pure (-1)
  else
    let _ ← kaddrefcnt (PTE2PA w)
    pure 0

def uvmcopyFrom (old new : Nat) : Nat → Nat → Kern Phys Int
  | 0, _ => pure 0
  | n + 1, i => do
    match ← walk old i false with
    | none => uvmcopyFrom old new n (i + PGSIZE)
    | some x =>
      let s ← Kern.get
      if has (s.pte x) PTE_V = false then uvmcopyFrom old new n (i + PGSIZE)
      else
        let r ← sharePage new i x
        if r ≠ 0 then pure (-1) else uvmcopyFrom old new n (i + PGSIZE)

def uvmcopy (old new sz : Nat) : Kern Phys Int :=
  uvmcopyFrom old new ((sz + PGSIZE - 1) / PGSIZE) 0

/-- The entry of a page that has become private to its process again. -/
def cowFlags (w : Word) : Word := (PTE_FLAGS (w &&& ~~~PTE_V) ||| PTE_W) &&& ~~~PTE_F

/-- The branch of `cowalloc` for a shared page `pa`, with a page `mem` for the copy. -/
def cowCopy (pagetable va : Nat) (x : PtePtr) (pa mem : Nat) : Kern Phys Nat := do
  Kern.modify fun s => s.setPage mem (s.page pa)
  let s ← Kern.get
  let w := s.pte x
  writePte x (w &&& ~~~PTE_V)
  let r ← mappages pagetable va PGSIZE mem (cowFlags w)
  if r ≠ 0 then
    kfree mem
    Kern.modify fun s => s.setPte x (s.pte x ||| PTE_V)
    pure 0
  else
    kfree (PGROUNDDOWN pa)
    pure mem

/-- `cowalloc` past the lookup of the entry `x`, which maps `pa`. -/
def cowUnshare (pagetable va : Nat) (x : PtePtr) (pa : Nat) : Kern Phys Nat := do
  let n ← krefcnt pa
  if n = 1 then
    Kern.modify fun s => s.setPte x (s.pte x ||| PTE_W)
    Kern.modify fun s => s.setPte x (s.pte x &&& ~~~PTE_F)
    pure pa
  else
    let mem ← kalloc
    if mem = 0 then pure 0 else cowCopy pagetable va x pa mem

def cowalloc (pagetable va : Nat) : Kern Phys Nat := do
  if va % PGSIZE ≠ 0 then pure 0
  else
    let pa ← walkaddr pagetable va
    if pa = 0 then pure 0
    else
      match ← walk pagetable va false with
      | none => pure 0
      | some x => cowUnshare pagetable va x pa

end

/-! ### Bytes of user memory -/

def getByte (p : Page) (off : Nat) : Byte :=
  (p (Fin.ofNat 512 (off / 8))).extractLsb' (8 * (off % 8)) 8

def setByte (p : Page) (off : Nat) (b : Byte) : Page :=
  Function.update p (Fin.ofNat 512 (off / 8))
    (p (Fin.ofNat 512 (off / 8)) &&& ~~~(0xFF#64 <<< (8 * (off % 8))) |||
      b.zeroExtend 64 <<< (8 * (off % 8)))

/-- `memmove` of the bytes to offset `off` of a page -/
def setBytes (p : Page) (off : Nat) : List Byte → Page
  | [] => p
  | b :: bs => setBytes (setByte p off b) (off + 1) bs

section
variable [Layout]

/-- The page that `copyout` writes to: a copy-on-write page is made private first. -/
def copyoutPage (pagetable va0 : Nat) : Kern Phys Nat := do
  let pa0 ← walkaddr pagetable va0
  let c ← cowpage pagetable va0
  if c = 0 then cowalloc pagetable va0 else pure pa0

/-- At most `fuel` rounds of the loop of `copyout`; a round copies at least one byte. -/
def copyoutFrom (pagetable : Nat) : Nat → Nat → List Byte → Kern Phys Int
  | _, _, [] => pure 0
  | 0, _, _ :: _ => pure 0
  | fuel + 1, dstva, b :: bs => do
    let src := b :: bs
    let va0 := PGROUNDDOWN dstva
    let pa0 ← copyoutPage pagetable va0
    if pa0 = 0 then pure (-1)
    else
      let n := min (PGSIZE - (dstva - va0)) src.length
      Kern.modify fun s => s.setPage pa0 (setBytes (s.page pa0) (dstva - va0) (src.take n))
      copyoutFrom pagetable fuel (va0 + PGSIZE) (src.drop n)

def copyout (pagetable dstva : Nat) (src : List Byte) : Kern Phys Int :=
  copyoutFrom pagetable src.length dstva src

end

end Yyds.Mm
