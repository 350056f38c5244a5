import Yyds.Kernel.Machine

/-! What a load or a store of user code can lead to, in every state that the machine reaches. -/
namespace Yyds.Kernel

open Lib Kern Mm Function

/-! ### Above the size -/

/-- The valid entries of `p`, but for the kernel's two, lie below its size. -/
def Confined (s : Sys) (p : ProcId) : Prop :=
  ∀ k : Slot, has (s.mem.leaf (s.proc p).pagetable k) PTE_V →
    k = slot TRAMPOLINE ∨ k = slot TRAPFRAME ∨ k.va < PGROUNDUP (s.proc p).sz

section
variable [Layout] {s s₀ s' : Sys} {p : ProcId} {own : Nat → Owner} {cause va : Nat}

theorem Inv.confined (I : Inv s own) (p : ProcId) : Confined s p := by
  intro k hk
  by_cases hp : (s.proc p).pagetable = 0
  · rw [hp, Phys.leaf, if_pos rfl] at hk
    exact absurd hk (by decide)
  have A := I.space p hp
  by_cases hlt : k.va < TRAPFRAME
  · refine .inr (.inr ?_)
    by_contra hge
    rw [← Sys.root_some, A.empty k (Nat.not_lt.mp hge) hlt] at hk
    cases hk
  by_cases hmax : k.va < MAXVA
  · rcases slot_of_high (Nat.not_lt.mp hlt) hmax with he | he
    · rw [slot_of_va] at he
      exact .inr (.inl he)
    · rw [slot_of_va] at he
      exact .inl he
  · rw [← Sys.root_some, A.beyond k (Nat.not_lt.mp hmax)] at hk
    exact absurd hk (by decide)

/-- Above the size and outside the window of the shared memory, a fault is the end. -/
theorem pageFault_above (I : Inv s own) (hp : (s.proc p).pagetable ≠ 0)
    (hva : (s.proc p).sz ≤ va) (hw : ¬ InShmWindow s p va) :
    pageFault p cause va s = .ok ((), s.setProc p killedProc) := by
  rw [pageFault, get_bind_apply, bind_of_ok (onMem_of_ok (I.cowpage hp va))]
  by_cases hc : CowEntry s.mem s.root (some p) va
  · rw [if_pos (if_pos hc), cowFault, get_bind_apply, if_pos hva]
    rfl
  have hno : mmapFault p cause va s = .ok (-1, s) := by
    rw [mmapFault, get_bind_apply, if_neg fun h => absurd h.2 (Nat.not_lt.mpr hva)]
    rfl
  have hsz : ((s.proc p).aboveStack va && decide (va < (s.proc p).sz)) = false := by
    simp [Nat.not_lt.mpr hva]
  have hshm : ((s.proc p).aboveStack va && decide (va < (s.proc p).shm)) = false := by
    by_contra h
    simp only [Bool.not_eq_false, Bool.and_eq_true, decide_eq_true_eq] at h
    exact hw ⟨hva, h.2, h.1⟩
  rw [if_neg (by rw [if_neg hc]; decide), bind_of_ok hno, if_neg (by decide), lazyFault,
    get_bind_apply]
  simp only [hsz, hshm]
  rfl

/-- In every state that is reached without a fault between `p->sz` and `p->shm`, a process maps
nothing at or above its size, and a fault there kills it and does nothing else. -/
theorem faults_above_size_kill {xs : List (ProcId × Action)} (hs : ∃ own, Inv s₀ own)
    (h : Run (Guarded Tame Step) s₀ xs s) : (∀ p, Confined s p) ∧
      ∀ p cause va, (s.proc p).Active → (s.proc p).sz ≤ va → ¬ InShmWindow s p va →
        pageFault p cause va s = .ok ((), s.setProc p killedProc) := by
  obtain ⟨own, I⟩ := run_inv h hs
  refine ⟨I.confined, ?_⟩
  intro p cause va ha hva hw
  exact pageFault_above I (I.used p ha.1) hva hw

end

def noFile : Nat → File := fun _ => ⟨false, false, some 0, 0⟩
def noInode : Nat → Inode := fun _ => ⟨0, []⟩

/-- A child that has stored to its memory loads from an address above the window. -/
theorem faults_above_size_kill_child : let := twentyPages
    ∃ s, small noFile noInode Tame [(0, .fork), (1, .store 8 7), (1, .sbrk 100)] = some s ∧
      (∀ p, Confined s p) ∧
      pageFault 1 13 0x90000000 s = .ok ((), s.setProc 1 killedProc) := by
  let := twentyPages
  obtain ⟨s, hs, ha, hsz, hshm⟩ : ∃ s,
      small noFile noInode Tame [(0, .fork), (1, .store 8 7), (1, .sbrk 100)] = some s ∧
      (s.proc 1).Active ∧ (s.proc 1).sz ≤ 0x90000000 ∧ (s.proc 1).shm ≤ 0x90000000 := by
    decide +kernel
  obtain ⟨s₀, hs0, hrun⟩ := small_run hs
  obtain ⟨hconf, hkill⟩ := faults_above_size_kill hs0 hrun
  exact ⟨s, hs, hconf, hkill 1 13 _ ha hsz fun hw => Nat.not_lt.mpr hshm hw.2.1⟩

/-- The first process can load from an address far above its size. -/
theorem wild_load_maps_a_page : let := twentyPages
    ∃ s s', small noFile noInode (fun _ _ => True) [] = some s ∧ (s.proc 0).sz ≤ 0x50000000 ∧
      Step s (0, .load 0x50000000) s' ∧ (s'.proc 0).killed = false ∧ ¬ Confined s' 0 := by
  let := twentyPages
  obtain ⟨s, hs, hsz, s', hstep, hk, hsz', hV⟩ : ∃ s,
      small noFile noInode (fun _ _ => True) [] = some s ∧ (s.proc 0).sz = PGSIZE ∧
      ∃ s', next s (0, .load 0x50000000) = some s' ∧ (s'.proc 0).killed = false ∧
        (s'.proc 0).sz = PGSIZE ∧
        has (s'.mem.leaf (s'.proc 0).pagetable (slot 0x50000000)) PTE_V = true := by
    decide +kernel
  refine ⟨s, s', hs, by rw [hsz]; decide, next_eq_some.mp hstep, hk, fun hconf => ?_⟩
  have := hconf (slot 0x50000000) hV
  rw [hsz'] at this
  exact absurd this (by decide)

/-! ### No panic -/

section
variable [Layout] {s s₀ s' : Sys} {p : ProcId} {own : Nat → Owner} {m m1 m' : Phys}
  {root : TableId → Nat} {q : TableId} {r va : Nat} {perm : Word} {pg : Page}

/-- A page from `kalloc` can be mapped where nothing is mapped. -/
theorem mapFresh_returns (hfill : Counted (m1.setPage r pg) root (update own r .held) ∧
      Keeps root (fun _ => False) m (m1.setPage r pg)) (hq : root q ≠ 0) (hva : va < MAXVA)
    (hnv : has (m.leaf (root q) (slot va)) PTE_V = false) (perm : Word) :
    (mapOrFree (root q) (PGROUNDDOWN va) r perm).Returns (m1.setPage r pg) := by
  obtain ⟨C, K⟩ := hfill
  have hr : update own r Owner.held r = .held := update_self _ _ _
  have hdown : PGROUNDDOWN va < MAXVA := Nat.lt_of_le_of_lt (Nat.div_mul_le_self _ _) hva
  rcases C.space.mappages_spec hq hdown (PGROUNDDOWN_aligned va) r perm with
    ⟨m2, own2, h2, S2, F, hl⟩ | ⟨_, hv⟩ | ⟨_, m2, own2, h2, S2, F, P⟩
  · obtain ⟨m3, hk, _⟩ := (C.frame S2 F hl).kfree_held (F.held_kept hr)
    rw [mapOrFree, Returns, bind_of_ok h2, when_pos (by decide), bind_of_ok hk]
    exact ⟨_, _, rfl⟩
  · rw [slot_PGROUNDDOWN hva, Keeps.sameLeaf K, hnv] at hv
    cases hv
  · rw [mapOrFree, Returns, bind_of_ok h2]
    exact ⟨_, _, rfl⟩

theorem mmapFill_returns (I : Inv s own) (hp : (s.proc p).pagetable ≠ 0) {a : VmArea} {va : Int}
    (hip : (s.file a.vfile).ip ≠ none) (h : s.fileBytes a va ≠ [] → uint64 va < MAXVA ∧
      has (s.mem.leaf (s.root (some p)) (slot (uint64 va))) PTE_V = false) :
    (mmapFill p a va).Returns s := by
  obtain ⟨r, m1, hk, hcase⟩ := I.counted.kalloc_fill
  rw [mmapFill, Returns, get_bind_apply, bind_of_ok (onMem_of_ok hk)]
  rcases hcase with ⟨hr, _⟩ | ⟨hr, ho, hfill⟩
  · rw [if_pos hr]
    exact ⟨_, _, rfl⟩
  rw [if_neg hr, bind_of_ok (onMem_of_ok
    (show memset r 0 m1 = .ok ((), m1.setPage r fun _ => 0) from rfl)), when_neg hip,
    pure_bind_apply]
  by_cases hb : s.fileBytes a va = []
  · obtain ⟨m2, hf, _⟩ := (hfill fun _ => 0).1.kfree_held (update_self r Owner.held own)
    simp only [show readi _ _ _ = [] from hb, if_pos]
    rw [bind_of_ok (onMem_of_ok hf)]
    exact ⟨_, _, rfl⟩
  simp only [show ¬ readi _ _ _ = [] from hb, if_false]
  obtain ⟨hva, hnv⟩ := h hb
  have hm := mapFresh_returns (q := some p) (hfill (filePage (s.fileBytes a va))) hp hva hnv
    a.pteFlags
  rw [← setPage_twice] at hm
  refine Returns.bind ⟨(), _, rfl⟩ fun _ t ht => ?_
  cases ht
  refine Returns.bind (.zoom hm) fun _ t _ => ?_
  split <;> exact .pure _ _

theorem mmapFault_returns (I : Inv s own) (hp : (s.proc p).pagetable ≠ 0) {cause : Nat}
    (hip : ∀ a, findVma (s.proc p) (int va) = some a → (s.file a.vfile).ip ≠ none)
    (hfile : ∀ a, FileHit s p cause va a → uint64 (int va) < MAXVA ∧
      has (s.mem.leaf (s.root (some p)) (slot (uint64 (int va)))) PTE_V = false) :
    (mmapFault p cause va).Returns s := by
  rw [mmapFault, Returns, get_bind_apply]
  split
  case isFalse => exact ⟨_, _, rfl⟩
  case isTrue hc =>
    rw [mmap_handler, get_bind_apply]
    cases hf : findVma (s.proc p) (int va) with
    | none => exact ⟨_, _, rfl⟩
    | some a =>
      dsimp only
      split
      case isTrue => exact ⟨_, _, rfl⟩
      case isFalse hr =>
        split
        case isTrue => exact ⟨_, _, rfl⟩
        case isFalse hw =>
          refine mmapFill_returns I hp (hip a hf) fun hb => hfile a ?_
          exact ⟨hc.1, hc.2, hf, by simpa using hr, by simpa using hw, hb⟩

theorem mapZero_returns (hfill : Counted (m1.setPage r fun _ => 0) s.root (update own r .held) ∧
      Keeps s.root (fun _ => False) m (m1.setPage r fun _ => 0))
    (hp : (s.proc p).pagetable ≠ 0) (hva : va < MAXVA)
    (hnv : has (m.leaf (s.root (some p)) (slot va)) PTE_V = false) :
    (mapZero p va r).Returns { s with mem := m1 } := by
  rw [mapZero, Returns, get_bind_apply]
  refine Returns.bind ⟨(), _, rfl⟩ fun _ t ht => ?_
  cases ht
  refine Returns.bind (.zoom ?_) fun _ t _ => .when ⟨_, _, rfl⟩
  exact mapFresh_returns (q := some p) hfill hp hva hnv _

theorem kallocIf_returns (C : Counted s.mem s.root own) (c : Bool) : (kallocIf c).Returns s := by
  rw [kallocIf]
  split
  · obtain ⟨r, m1, hk, _⟩ := C.kalloc_fill
    exact .zoom ⟨r, m1, hk⟩
  · exact .pure _ _

/-- The lazy allocation does not panic where nothing is mapped. -/
theorem lazyFault_returns (I : Inv s own) (hp : (s.proc p).pagetable ≠ 0)
    (h : (s.proc p).aboveStack va → va < (s.proc p).sz ∨ va < (s.proc p).shm → va < MAXVA ∧
      has (s.mem.leaf (s.root (some p)) (slot va)) PTE_V = false) : (lazyFault p va).Returns s := by
  rw [lazyFault, Returns, get_bind_apply]
  obtain ⟨r, s1, hk⟩ := kallocIf_returns I.counted
    ((s.proc p).aboveStack va && decide (va < (s.proc p).sz))
  rw [bind_of_ok hk]
  obtain ⟨m1, rfl, hcase⟩ := kallocIf_spec I.counted hk
  rcases hcase with ⟨hr, C1, K1, _⟩ | ⟨hr, hc, ho, _, hfill⟩
  · rw [if_neg (by simpa using hr)]
    obtain ⟨r2, s2, hk2⟩ := kallocIf_returns (s := { s with mem := m1 }) C1
      ((s.proc p).aboveStack va && decide (va < (s.proc p).shm))
    rw [bind_of_ok hk2]
    obtain ⟨m2, rfl, hcase⟩ := kallocIf_spec C1 hk2
    rcases hcase with ⟨hr2, _⟩ | ⟨hr2, hc, ho, _, hfill⟩
    · rw [if_neg (by simpa using hr2)]
      exact ⟨_, _, rfl⟩
    rw [if_pos hr2]
    simp only [Bool.and_eq_true, decide_eq_true_eq] at hc
    obtain ⟨hva, hnv⟩ := h hc.1 (.inr hc.2)
    obtain ⟨C2, K2⟩ := hfill fun _ => 0
    exact mapZero_returns (s := s) ⟨C2, K1.trans K2⟩ hp hva hnv
  · rw [if_pos hr]
    simp only [Bool.and_eq_true, decide_eq_true_eq] at hc
    obtain ⟨hva, hnv⟩ := h hc.1 (.inl hc.2)
    exact mapZero_returns (hfill _) hp hva hnv

/-- A page fault meets a copy-on-write entry or no entry, where the kernel maps a page, and what is
mapped there has an inode. -/
structure Meets (s : Sys) (p : ProcId) (cause va : Nat) : Prop where
  entry : ¬ CowEntry s.mem s.root (some p) va → (s.proc p).aboveStack va →
    va < (s.proc p).sz ∨ va < (s.proc p).shm →
    va < MAXVA ∧ has (s.mem.leaf (s.root (some p)) (slot va)) PTE_V = false
  inode : ∀ a, findVma (s.proc p) (int va) = some a → (s.file a.vfile).ip ≠ none
  file : ¬ CowEntry s.mem s.root (some p) va → ∀ a, FileHit s p cause va a →
    uint64 (int va) < MAXVA ∧
      has (s.mem.leaf (s.root (some p)) (slot (uint64 (int va)))) PTE_V = false

theorem pageFault_returns (I : Inv s own) (hp : (s.proc p).pagetable ≠ 0) {cause : Nat}
    (h : Meets s p cause va) : (pageFault p cause va).Returns s := by
  rw [pageFault, Returns, get_bind_apply, bind_of_ok (onMem_of_ok (I.cowpage hp va))]
  by_cases hc : CowEntry s.mem s.root (some p) va
  · rw [if_pos (if_pos hc)]
    obtain ⟨s1, h1, _⟩ := cowFault_spec I hp hc
    exact ⟨_, _, h1⟩
  rw [if_neg (by rw [if_neg hc]; decide)]
  obtain ⟨e, s1, hm⟩ := mmapFault_returns I hp h.inode (h.file hc)
  rw [bind_of_ok hm]
  obtain ⟨m1, own1, rfl, C1, G1, hcase⟩ := mmapFault_spec I hp hm
  rcases hcase with ⟨rfl, K1, _⟩ | ⟨rfl, _⟩
  · have I1 : Inv { s with mem := m1 } own1 :=
      I.of_rests C1 G1.hold fun q => .of_keeps K1
    refine lazyFault_returns I1 hp fun hst hlt => ?_
    obtain ⟨hva, hnv⟩ := h.entry hc hst hlt
    refine ⟨hva, ?_⟩
    rw [show (Sys.root { s with mem := m1 }) = s.root from rfl, Keeps.sameLeaf K1]
    exact hnv
  · exact ⟨_, _, rfl⟩

/-- The entry of the page is a copy-on-write entry that user code can read, or there is none; a
mapped file that is found for `va` is there, is no pipe and no socket, and lets user code do this. -/
structure Orderly (s : Sys) (p : ProcId) (va : Nat) (store : Bool) : Prop where
  entry : va < TRAPFRAME → has (s.mem.leaf (s.proc p).pagetable (slot va)) PTE_V →
    has (s.mem.leaf (s.proc p).pagetable (slot va)) PTE_F ∧
      has (s.mem.leaf (s.proc p).pagetable (slot va)) PTE_U ∧
      has (s.mem.leaf (s.proc p).pagetable (slot va)) PTE_R
  file : ∀ a, findVma (s.proc p) (int va) = some a → va < 2 ^ 31 ∧ allows a.prot PROT_READ ∧
    (store = true → allows a.prot PROT_WRITE) ∧ (s.file a.vfile).ip ≠ none

omit [Layout] in
theorem uint64_int_of_small {va : Nat} (h : va < 2 ^ 31) : uint64 (int va) = va := by
  rw [int_of_small, uint64_of_nonneg, Int.toNat_natCast]

theorem Orderly.meets (I : Inv s own) (hp : (s.proc p).pagetable ≠ 0) {store : Bool} {cause : Nat}
    (hw : ¬ InShmWindow s p va) (h : Orderly s p va store) : Meets s p cause va := by
  have hsize := (I.space p hp).size
  have hinvalid : ¬ CowEntry s.mem s.root (some p) va → va < (s.proc p).sz →
      va < MAXVA ∧ has (s.mem.leaf (s.root (some p)) (slot va)) PTE_V = false := by
    intro hc hlt
    have hva : va < TRAPFRAME := Nat.lt_of_lt_of_le hlt hsize
    have hmax : va < MAXVA := lt_MAXVA hva
    refine ⟨hmax, ?_⟩
    by_contra hV
    have hV : has (s.mem.leaf (s.root (some p)) (slot va)) PTE_V := by simpa using hV
    exact hc ⟨hmax, hV, (h.entry hva hV).1⟩
  refine ⟨fun hc hst hlt => hinvalid hc ?_, fun a ha => (h.file a ha).2.2.2, fun hc a hit => ?_⟩
  · by_contra hge
    refine hw ⟨Nat.not_lt.mp hge, ?_, hst⟩
    exact hlt.resolve_left hge
  · rw [uint64_int_of_small (h.file a hit.area).1]
    exact hinvalid hc hit.size

section
omit [Layout]

theorem mayAccess_eq_true {w : Word} {store : Bool} (hV : has w PTE_V) (hU : has w PTE_U)
    (hR : has w PTE_R) (hW : store = true → has w PTE_W) : mayAccess store w = true := by
  rw [mayAccess, hV, hU, hR]
  cases store with
  | false => rfl
  | true => simpa using hW rfl

theorem has_mk {k : Nat} (r : Nat) (hk : k < 10 := by decide) (h0 : k ≠ 0 := by decide) :
    has (PA2PTE r ||| perm ||| PTE_V) (1#64 <<< k) = has perm (1#64 <<< k) := by
  have hV : PTE_V.getLsbD k = false := by
    rw [show PTE_V = 1#64 <<< 0 from rfl, getLsbD_flag (by decide)]
    simpa using fun h => h0 h.symm
  rw [has_bit _ (by omega), has_bit _ (by omega), BitVec.or_assoc, getLsbD_PA2PTE_or _ _ hk,
    BitVec.getLsbD_or, hV, Bool.or_false]

theorem lt_of_PGROUNDDOWN_lt (h : PGROUNDDOWN va < TRAPFRAME) : va < TRAPFRAME := by
  rw [TRAPFRAME_eq] at *
  simp only [PGROUNDDOWN, PGSIZE] at h
  omega

end

theorem Mapped.allowed (M : Mapped s.root (some p) (PGROUNDDOWN va) perm pg s.mem m')
    (hU : has perm PTE_U) (hR : has perm PTE_R) {store : Bool} (hW : store = true → has perm PTE_W) :
    Kernel.allowed m' (s.proc p).pagetable va store = true := by
  have hmax : va < MAXVA := lt_MAXVA (lt_of_PGROUNDDOWN_lt M.below)
  obtain ⟨r, _, P, _⟩ := M.page
  rw [slot_PGROUNDDOWN hmax] at P
  rw [Kernel.allowed, ← Sys.root_some, P.self]
  simp only [hmax, decide_true, Bool.true_and]
  exact mayAccess_eq_true (has_mk_V _) ((has_mk r).trans hU)
    ((has_mk r).trans hR) fun hs => (has_mk r).trans (hW hs)

omit [Layout] in
theorem has_pteFlags (a : VmArea) : has a.pteFlags PTE_U ∧
    (allows a.prot PROT_READ → has a.pteFlags PTE_R) ∧
    (allows a.prot PROT_WRITE → has a.pteFlags PTE_W) := by
  rw [VmArea.pteFlags]
  cases allows a.prot PROT_READ <;> cases allows a.prot PROT_WRITE <;>
    cases allows a.prot PROT_EXEC <;> decide

omit [Layout] in
/-- Making a page private lets user code write what it could read. -/
theorem Privatized.mayAccess {w w' : Word} (h : Privatized w w') (hV : has w PTE_V)
    (hU : has w PTE_U) (hR : has w PTE_R) (store : Bool) : Kernel.mayAccess store w' = true := by
  refine mayAccess_eq_true (by rw [h.has_V]; exact hV) ?_ ?_ fun _ => h.has_W
  · rw [has_U] at hU ⊢
    rw [h 4 (by decide), hU]
    rfl
  · rw [has_R] at hR ⊢
    rw [h 1 (by decide), hR]
    rfl

/-- In every state that is reached, a fault on a page that is copy-on-write or not there makes
the access possible or kills the process. -/
theorem access_resolved_or_killed {xs : List (ProcId × Action)} {store : Bool}
    (hs : ∃ own, Inv s₀ own) (h : Run (Guarded Tame Step) s₀ xs s) (ha : (s.proc p).Active)
    (hw : ¬ InShmWindow s p va) (ho : Orderly s p va store) :
    ∃ s', pageFault p (if store then 15 else 13) va s = .ok ((), s') ∧
      ((s'.proc p).killed = true ∨ allowed s'.mem (s'.proc p).pagetable va store = true) := by
  obtain ⟨own, I⟩ := run_inv h hs
  have hp := I.used p ha.1
  obtain ⟨_, s', hf⟩ := pageFault_returns I hp (ho.meets I hp hw)
  refine ⟨s', hf, ?_⟩
  obtain ⟨own', _, _, D⟩ := pageFault_spec I hp hf
  cases D with
  | cow hc d =>
    obtain ⟨m', ⟨rfl, _⟩ | ⟨rfl, hlt, _, r, hr, D⟩⟩ := d
    · rw [Sys.setProc_self]
      exact .inl rfl
    rcases D with ⟨hr', _⟩ | ⟨_, t, ht, hU, _, _, hpriv⟩
    · exact absurd hr' hr
    · have hva : va < TRAPFRAME := Nat.lt_of_lt_of_le hlt (I.space p hp).size
      have hV := hc.2.1
      refine .inr ?_
      rw [allowed, decide_eq_true hc.1]
      exact Privatized.mayAccess hpriv hV hU (ho.entry hva hV).2.2 store
  | @file m' a hc hit M hs =>
    obtain ⟨hlt, hR, hW, -⟩ := ho.file a hit.area
    obtain ⟨fU, fR, fW⟩ := has_pteFlags a
    subst hs
    rw [FileMapped, uint64_int_of_small hlt] at M
    exact .inr (Mapped.allowed M fU (fR hR) fun hst => fW (hW hst))
  | zero hc hno hst hlt M hs =>
    subst hs
    exact .inr (Mapped.allowed M (by decide) (by decide) fun _ => by decide)
  | killed hc hno K hs =>
    subst hs
    rw [Sys.setProc_self]
    exact .inl rfl

end

/-- One file, open for reading and writing, with 26 bytes. -/
def oneFile : Nat → File := fun _ => ⟨true, true, some 0, 0⟩
def oneInode : Nat → Inode := fun _ => ⟨3, List.replicate 26 0x61⟩

/-- The first load from a mapped file. -/
theorem access_resolved_or_killed_mmap : let := twentyPages
    ∃ s, small oneFile oneInode Tame [(0, .mmap 0 4096 1 2 0 0)] = some s ∧
      ∃ s', pageFault 0 13 4096 s = .ok ((), s') ∧
        ((s'.proc 0).killed = true ∨ allowed s'.mem (s'.proc 0).pagetable 4096 false = true) := by
  let := twentyPages
  obtain ⟨s, hs, ha, hw, hV, hfile⟩ : ∃ s,
      small oneFile oneInode Tame [(0, .mmap 0 4096 1 2 0 0)] = some s ∧ (s.proc 0).Active ∧
      ¬ InShmWindow s 0 4096 ∧ has (s.mem.leaf (s.proc 0).pagetable (slot 4096)) PTE_V = false ∧
      (findVma (s.proc 0) (int 4096)).all fun a =>
        allows a.prot PROT_READ && (s.file a.vfile).ip.isSome := by
    decide +kernel
  obtain ⟨s₀, hs0, hrun⟩ := small_run hs
  have ho : Orderly s 0 4096 false := by
    refine ⟨?_, ?_⟩
    · intro _ hV'
      rw [hV] at hV'
      cases hV'
    · intro a hf
      rw [show ((4096 : Nat) : Int) = 4096 from rfl] at hf
      rw [hf] at hfile
      obtain ⟨hread, hip⟩ := Bool.and_eq_true_iff.mp hfile
      exact ⟨by decide, hread, fun h => absurd h (by decide), Option.isSome_iff_ne_none.mp hip⟩
  exact ⟨s, hs, (access_resolved_or_killed hs0 hrun ha hw ho :)⟩

/-- A store to a page of a file that was mapped for reading only. -/
theorem store_to_read_only_mapping_panics : let := twentyPages
    ∃ s, small oneFile oneInode Tame [(0, .mmap 0 4096 1 2 0 0), (0, .load 4096)] = some s ∧
      (s.proc 0).Active ∧ (Action.store 4096 0).run 0 s = .error "remap" := by
  intro
  decide +kernel

end Yyds.Kernel
