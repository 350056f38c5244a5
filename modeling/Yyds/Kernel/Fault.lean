import Yyds.Kernel.Inv
import Yyds.Mm.Supply

/-! The ways in which a page fault of a user program can end. -/
namespace Yyds.Kernel

open Lib Kern Mm Function

theorem onMem_ok {α : Type} {x : Kern Phys α} {s s' : Sys} {a : α}
    (h : onMem x s = .ok (a, s')) : ∃ m', x s.mem = .ok (a, m') ∧ s' = { s with mem := m' } :=
  zoom_ok h

theorem onMem_bind_ok {α β : Type} {x : Kern Phys α} {f : α → Kern Sys β} {s s' : Sys} {b : β}
    (h : (onMem x >>= f) s = .ok (b, s')) :
    ∃ a m', x s.mem = .ok (a, m') ∧ f a { s with mem := m' } = .ok (b, s') := by
  obtain ⟨a, s1, h1, h2⟩ := bind_ok h
  obtain ⟨m', hm, rfl⟩ := onMem_ok h1
  exact ⟨a, m', hm, h2⟩

theorem onMem_of_ok {α : Type} {x : Kern Phys α} {s : Sys} {a : α} {m' : Phys}
    (h : x s.mem = .ok (a, m')) : onMem x s = .ok (a, { s with mem := m' }) := by
  simp only [onMem, Kern.zoom, h]

theorem PGROUNDDOWN_aligned (a : Nat) : PGROUNDDOWN a % PGSIZE = 0 := Nat.mul_mod_left _ _

theorem mappages_beyond {va : Nat} (hva : MAXVA ≤ va) (hal : va % PGSIZE = 0)
    (pt size pa : Nat) (perm : Word) (m : Phys) : mappages pt va size pa perm m = .error "walk" := by
  have hwalk : walk pt va true m = .error "walk" := by
    rw [walk, when_pos hva]
    rfl
  have hfrom : ∀ n, mappagesFrom pt perm n va pa m = .error "walk" := by
    intro n
    cases n with
    | zero => rw [mappagesFrom, bind_of_error hwalk]
    | succ n => rw [mappagesFrom, bind_of_error hwalk]
  simp only [mappages, PGROUNDDOWN_of_aligned hal, hfrom]

variable [Layout]

/-- A page with contents `pg` is mapped at `va`, where nothing was, and nothing else has
changed. -/
structure Mapped (root : TableId → Nat) (q : TableId) (va : Nat) (perm : Word) (pg : Page)
    (m m' : Phys) : Prop where
  below : va < TRAPFRAME
  fresh : has (m.leaf (root q) (slot va)) PTE_V = false
  page : ∃ r, Managed r ∧ Space.PutLeaf root q (slot va) (PA2PTE r ||| perm ||| PTE_V) m m' ∧
    m'.page r = pg
  keeps : Keeps root (· = (q, slot va)) m m'

variable {m m1 m' : Phys} {root : TableId → Nat} {q : TableId} {own own' : Nat → Owner}
  {va r tf sz : Nat} {perm : Word} {e : Int} {pg : Page}

omit [Layout] in
theorem Keeps.sameLeaf (h : Keeps root (fun _ => False) m m') : SameLeaf root m m' :=
  fun p k => (h (p, k) id).1

theorem Mapped.after (M : Mapped root q va perm pg m1 m') (K : Keeps root (fun _ => False) m m1) :
    Mapped root q va perm pg m m' := by
  have hleaf := Keeps.sameLeaf K
  obtain ⟨r, hr, P, hpg⟩ := M.page
  refine ⟨M.below, by rw [← hleaf]; exact M.fresh, ⟨r, hr, ?_, hpg⟩,
    (K.mono fun _ h => h.elim).trans M.keeps⟩
  intro p k
  rw [P p k, hleaf p k]

/-- No page is mapped over the kernel's entries. -/
theorem below_of_mapOrFree (A : AddrSpace m root q tf sz) (S : Space m root own)
    (hal : va % PGSIZE = 0) (h : mapOrFree (root q) va r perm m = .ok (e, m')) :
    va < TRAPFRAME := by
  by_contra hge
  have hfail : ∃ msg, mappages (root q) va PGSIZE r perm m = .error msg := by
    by_cases hmax : va < MAXVA
    · exact ⟨_, S.mappages_remap hmax hal (A.valid_high (Nat.not_lt.mp hge) hmax) r perm⟩
    · exact ⟨_, mappages_beyond (Nat.not_lt.mp hmax) hal _ _ _ _ _⟩
  obtain ⟨msg, hmsg⟩ := hfail
  rw [mapOrFree, bind_of_error hmsg] at h
  cases h

/-- A page from `kalloc`, filled by the kernel, is mapped or given back. -/
theorem mapFresh_spec (A : AddrSpace m root q tf sz) (hq : root q ≠ 0) (ho : own r = .user)
    (hfill : Counted (m1.setPage r pg) root (update own r .held) ∧
      Keeps root (fun _ => False) m (m1.setPage r pg)) (hal : va % PGSIZE = 0)
    (hperm : IsFlags perm) (h : mapOrFree (root q) va r perm (m1.setPage r pg) = .ok (e, m')) :
    ∃ own', Counted m' root own' ∧ Grows q own own' ∧
      ((e ≠ 0 ∧ Keeps root (fun _ => False) m m' ∧ ¬ Enough m1 2) ∨
        (e = 0 ∧ Mapped root q va perm pg m m')) := by
  obtain ⟨C, K⟩ := hfill
  have hva := below_of_mapOrFree (A.of_rests (.of_keeps K)) C.space hal h
  obtain ⟨own', C', G, hcase⟩ := mapOrFree_spec C ho hq hva hal hperm h
  refine ⟨own', C', G, ?_⟩
  rcases hcase with ⟨he, K'⟩ | ⟨he, hnv, hpg, P, K'⟩
  · refine .inl ⟨he, K.trans K', fun hE => he ?_⟩
    exact (C.space.mapOrFree_enough hq (lt_MAXVA hva) hal (hE.congr rfl) h).1
  · have hr := (C.space.held r (update_self _ _ _)).1
    rw [Phys.setPage_page, update_self] at hpg
    exact .inr ⟨he, Mapped.after ⟨hva, hnv, ⟨r, hr, P, hpg⟩, K'⟩ K⟩

omit [Layout] in
theorem isFlags_pteFlags (a : VmArea) : IsFlags a.pteFlags := by
  unfold VmArea.pteFlags
  split <;> split <;> split <;> decide

/-- The part of the file that `mmap_handler` reads for the address `va` of the area `a`. -/
def Sys.fileBytes (s : Sys) (a : VmArea) (va : Int) : List Byte :=
  readi (s.fileData a.vfile) (a.fileOffset va) PGSIZE

/-- The page that shows these bytes, zero-filled. -/
def filePage (bytes : List Byte) : Page := setBytes (fun _ => 0) 0 bytes

omit [Layout] in
theorem setPage_twice (m : Phys) (r : Nat) (bytes : List Byte) :
    (m.setPage r fun _ => 0).setPage r (setBytes ((m.setPage r fun _ => 0).page r) 0 bytes) =
      m.setPage r (filePage bytes) := by
  simp only [Phys.setPage, update_self, update_idem, filePage]

variable {s s' : Sys} {p : ProcId}

theorem kfree_fresh (C : Counted m1 root (update own r .held)) (ho : own r = .user)
    (K : Keeps root (fun _ => False) m m1) (h : kfree r m1 = .ok ((), m')) :
    Counted m' root own ∧ Keeps root (fun _ => False) m m' := by
  obtain ⟨m2, hk, hpage, _, hl, C2⟩ := C.kfree_held (update_self r Owner.held own)
  rw [h] at hk
  cases hk
  have hown : update (update own r .held) r .user = own := by
    rw [update_idem, ← ho, update_eq_self]
  rw [hown] at C2
  refine ⟨C2, K.trans (C.keeps_none hl ?_ _)⟩
  intro t ht _
  refine hpage t ?_
  rintro rfl
  rw [update_self] at ht
  cases ht

theorem kfree_cnt (C : Counted m root own) (hk : kalloc m = .ok (r, m1)) (hr : r ≠ 0)
    {m2 : Phys} (C2 : Counted m2 root (update own r .held)) (hc : m2.cnt = m1.cnt)
    (h : kfree r m2 = .ok ((), m')) : m'.cnt = m.cnt := by
  obtain ⟨r', m1', hk', _, hcase⟩ := C.kalloc
  rw [hk] at hk'
  cases hk'
  obtain ⟨m3, hk3, _, hcnt, _⟩ := C2.kfree_held (update_self r Owner.held own)
  rw [h] at hk3
  cases hk3
  rcases hcase with ⟨hr', _⟩ | ⟨_, hz, _, _, hc1, _⟩
  · exact absurd hr' hr
  · rw [hcnt, hc, hc1, update_idem]
    exact update_eq_self_iff.mpr hz.symm

theorem mmapFill_spec (I : Inv s own) (hp : (s.proc p).pagetable ≠ 0) {a : VmArea} {va : Int}
    (h : mmapFill p a va s = .ok (e, s')) :
    ∃ m' own', s' = { s with mem := m' } ∧ Counted m' s.root own' ∧ Grows (some p) own own' ∧
      ((e = -1 ∧ Keeps s.root (fun _ => False) s.mem m' ∧
          ((s.fileBytes a va = [] ∧ m'.cnt = s.mem.cnt) ∨ ¬ Enough s.mem 3)) ∨
        (e = 0 ∧ s.fileBytes a va ≠ [] ∧ Mapped s.root (some p) (PGROUNDDOWN (uint64 va)) a.pteFlags
          (filePage (s.fileBytes a va)) s.mem m')) := by
  obtain ⟨r, m1, hk, h⟩ := onMem_bind_ok h
  obtain ⟨r', m1', hk', hcase⟩ := I.counted.kalloc_fill
  rw [hk] at hk'
  cases hk'
  rcases hcase with ⟨hr, C1, K1⟩ | ⟨hr, ho, hfill⟩
  · rw [if_pos hr] at h
    cases h
    refine ⟨m1, own, rfl, C1, .refl _ _, .inl ⟨rfl, K1, .inr fun he => ?_⟩⟩
    exact (he.kalloc I.counted.space.alloc hk).1 hr
  rw [if_neg hr] at h
  obtain ⟨_, m2, hz, h⟩ := onMem_bind_ok h
  cases hz
  obtain ⟨_, t, hip, h⟩ := bind_ok h
  have ht := (Moves.when (R := Eq) (.panic "ilock")) _ _ _ hip
  subst ht
  by_cases hb : s.fileBytes a va = []
  · simp only [show readi _ _ _ = [] from hb, if_pos] at h
    obtain ⟨_, m3, hf, h⟩ := onMem_bind_ok h
    cases h
    obtain ⟨C3, K3⟩ := kfree_fresh (hfill _).1 ho (hfill _).2 hf
    have hcnt := kfree_cnt I.counted hk hr (hfill _).1 rfl hf
    exact ⟨m3, own, rfl, C3, .refl _ _, .inl ⟨rfl, K3, .inl ⟨hb, hcnt⟩⟩⟩
  simp only [show ¬ readi _ _ _ = [] from hb, if_false] at h
  obtain ⟨_, m3, hf, h⟩ := onMem_bind_ok h
  cases hf
  obtain ⟨e', m4, hm, h⟩ := onMem_bind_ok h
  have hm' : mapOrFree (s.root (some p)) (PGROUNDDOWN (uint64 va)) r a.pteFlags
      (m1.setPage r (filePage (s.fileBytes a va))) = .ok (e', m4) := by
    rw [← setPage_twice]
    exact hm
  obtain ⟨own', C', G, hend⟩ := mapFresh_spec (I.space p hp) hp ho (hfill _)
    (PGROUNDDOWN_aligned _) (isFlags_pteFlags a) hm'
  refine ⟨m4, own', ?_⟩
  rcases hend with ⟨he, K', hno⟩ | ⟨he, M⟩
  · rw [if_pos he] at h
    cases h
    refine ⟨rfl, C', G, .inl ⟨rfl, K', .inr fun hE => hno ?_⟩⟩
    exact (hE.kalloc I.counted.space.alloc hk).2
  · rw [if_neg (by simpa using he)] at h
    cases h
    exact ⟨rfl, C', G, .inr ⟨rfl, hb, M⟩⟩

/-- The page fault is for a mapped file `a` that may be read or written in this way, and the
file has contents for it. -/
structure FileHit (s : Sys) (p : ProcId) (cause va : Nat) (a : VmArea) : Prop where
  stack : (s.proc p).aboveStack va
  size : va < (s.proc p).sz
  area : findVma (s.proc p) (int va) = some a
  readable : cause = 13 → (s.file a.vfile).readable
  writable : cause = 15 → (s.file a.vfile).writable
  bytes : s.fileBytes a (int va) ≠ []

/-- The page that a fault on a mapped file installs. -/
def FileMapped (s : Sys) (p : ProcId) (va : Nat) (a : VmArea) (m' : Phys) : Prop :=
  Mapped s.root (some p) (PGROUNDDOWN (uint64 (int va))) a.pteFlags
    (filePage (s.fileBytes a (int va))) s.mem m'

/-- How the call of `mmap_handler` ends: the page is there, or nothing has changed because
there was nothing to map or no memory. -/
def MmapDone (s : Sys) (p : ProcId) (cause va : Nat) (own : Nat → Owner) (e : Int) (s' : Sys) :
    Prop :=
  ∃ m' own', s' = { s with mem := m' } ∧ Counted m' s.root own' ∧ Grows (some p) own own' ∧
    ((e = -1 ∧ Keeps s.root (fun _ => False) s.mem m' ∧
        (Enough s.mem 3 → m'.cnt = s.mem.cnt ∧ ∀ a, ¬ FileHit s p cause va a)) ∨
      (e = 0 ∧ ∃ a, FileHit s p cause va a ∧ FileMapped s p va a m'))

theorem MmapDone.refused (I : Inv s own) {cause va : Nat}
    (h : (.ok (-1, s) : Except String (Int × Sys)) = .ok (e, s'))
    (hno : ∀ a, ¬ FileHit s p cause va a) : MmapDone s p cause va own e s' := by
  cases h
  exact ⟨s.mem, own, rfl, I.counted, .refl _ _, .inl ⟨rfl, .refl _ _ _, fun _ => ⟨rfl, hno⟩⟩⟩

theorem mmapFault_spec (I : Inv s own) (hp : (s.proc p).pagetable ≠ 0) {cause va : Nat}
    (h : mmapFault p cause va s = .ok (e, s')) : MmapDone s p cause va own e s' := by
  rw [mmapFault, get_bind_apply] at h
  split at h
  case isFalse hc => exact .refused I h fun a ha => hc ⟨ha.stack, ha.size⟩
  case isTrue hc =>
    rw [mmap_handler, get_bind_apply] at h
    cases hf : findVma (s.proc p) (int va) with
    | none =>
      rw [hf] at h
      refine .refused I h fun a ha => ?_
      have := ha.area
      rw [hf] at this
      cases this
    | some a =>
      have hsame : ∀ b, FileHit s p cause va b → b = a := by
        intro b hb
        have := hb.area
        rw [hf] at this
        cases this
        rfl
      simp only [hf] at h
      split at h
      case isTrue hr =>
        refine .refused I h fun b hb => ?_
        have hread := hb.readable hr.1
        rw [hsame b hb, hr.2] at hread
        cases hread
      case isFalse hr =>
        split at h
        case isTrue hw =>
          refine .refused I h fun b hb => ?_
          have hwrite := hb.writable hw.1
          rw [hsame b hb, hw.2] at hwrite
          cases hwrite
        case isFalse hw =>
          obtain ⟨m', own', hs, C', G, hend⟩ := mmapFill_spec I hp h
          refine ⟨m', own', hs, C', G, ?_⟩
          rcases hend with ⟨he, K, hwhy⟩ | ⟨he, hb, M⟩
          · refine .inl ⟨he, K, fun hE => ?_⟩
            rcases hwhy with ⟨hbytes, hcnt⟩ | hno
            · exact ⟨hcnt, fun b hb => hb.bytes (by rw [hsame b hb, hbytes])⟩
            · exact absurd hE hno
          · exact .inr ⟨he, a, ⟨hc.1, hc.2, hf, by simpa using hr, by simpa using hw, hb⟩, M⟩

theorem kallocIf_spec (C : Counted s.mem s.root own) {c : Bool} {r : Nat}
    (h : kallocIf c s = .ok (r, s')) : ∃ m1, s' = { s with mem := m1 } ∧
      ((r = 0 ∧ Counted m1 s.root own ∧ Keeps s.root (fun _ => False) s.mem m1 ∧
          (Enough s.mem 3 → c = false ∧ m1 = s.mem)) ∨
        (r ≠ 0 ∧ c = true ∧ own r = .user ∧ (Enough s.mem 3 → Enough m1 2) ∧ ∀ pg,
          Counted (m1.setPage r pg) s.root (update own r .held) ∧
            Keeps s.root (fun _ => False) s.mem (m1.setPage r pg))) := by
  cases c with
  | false =>
    cases h
    exact ⟨s.mem, rfl, .inl ⟨rfl, C, .refl _ _ _, fun _ => ⟨rfl, rfl⟩⟩⟩
  | true =>
    obtain ⟨m1, hk, rfl⟩ := onMem_ok h
    obtain ⟨r', m1', hk', hcase⟩ := C.kalloc_fill
    rw [hk] at hk'
    cases hk'
    refine ⟨m1, rfl, ?_⟩
    rcases hcase with ⟨hr, C1, K1⟩ | ⟨hr, ho, hfill⟩
    · exact .inl ⟨hr, C1, K1, fun hE => absurd hr (hE.kalloc C.space.alloc hk).1⟩
    · exact .inr ⟨hr, rfl, ho, fun hE => (hE.kalloc C.space.alloc hk).2, hfill⟩

/-- `p->killed = 1` -/
def killedProc (pr : Proc) : Proc := { pr with killed := true }

/-- How the lazy allocation ends: a zero page is there, or the process is killed. -/
def LazyDone (s : Sys) (p : ProcId) (va : Nat) (own : Nat → Owner) (s' : Sys) : Prop :=
  ∃ m' own', Counted m' s.root own' ∧ Grows (some p) own own' ∧
    ((s' = { s with mem := m' }.setProc p killedProc ∧ Keeps s.root (fun _ => False) s.mem m' ∧
        (Enough s.mem 3 → ¬ ((s.proc p).aboveStack va ∧
          (va < (s.proc p).sz ∨ va < (s.proc p).shm)))) ∨
      (s' = { s with mem := m' } ∧ (s.proc p).aboveStack va ∧
        (va < (s.proc p).sz ∨ va < (s.proc p).shm) ∧
        Mapped s.root (some p) (PGROUNDDOWN va) (PTE_R ||| PTE_W ||| PTE_X ||| PTE_U) (fun _ => 0)
          s.mem m'))

theorem mapZero_spec (A : AddrSpace m s.root (some p) tf sz) (hp : (s.proc p).pagetable ≠ 0)
    (ho : own r = .user)
    (hfill : ∀ pg, Counted (m1.setPage r pg) s.root (update own r .held) ∧
      Keeps s.root (fun _ => False) m (m1.setPage r pg)) {va : Nat}
    (h : mapZero p va r { s with mem := m1 } = .ok ((), s')) :
    ∃ m' own', Counted m' s.root own' ∧ Grows (some p) own own' ∧
      ((s' = { s with mem := m' }.setProc p killedProc ∧ Keeps s.root (fun _ => False) m m' ∧
          ¬ Enough m1 2) ∨
        (s' = { s with mem := m' } ∧ Mapped s.root (some p) (PGROUNDDOWN va)
          (PTE_R ||| PTE_W ||| PTE_X ||| PTE_U) (fun _ => 0) m m')) := by
  rw [mapZero, get_bind_apply] at h
  obtain ⟨_, m2, hz, h⟩ := onMem_bind_ok h
  cases hz
  obtain ⟨e, m', hm, h⟩ := onMem_bind_ok h
  obtain ⟨own', C', G, hend⟩ :=
    mapFresh_spec A hp ho (hfill _) (PGROUNDDOWN_aligned va) (by decide) hm
  refine ⟨m', own', C', G, ?_⟩
  rcases hend with ⟨he, K', hno⟩ | ⟨he, M⟩
  · rw [when_pos he] at h
    cases h
    exact .inl ⟨rfl, K', hno⟩
  · rw [when_neg (by simpa using he)] at h
    cases h
    exact .inr ⟨rfl, M⟩

theorem lazyFault_spec (I : Inv s own) (hp : (s.proc p).pagetable ≠ 0) {va : Nat}
    (h : lazyFault p va s = .ok ((), s')) : LazyDone s p va own s' := by
  have A := I.space p hp
  rw [lazyFault, get_bind_apply] at h
  obtain ⟨r, s1, hk, h⟩ := bind_ok h
  obtain ⟨m1, rfl, hcase⟩ := kallocIf_spec I.counted hk
  rcases hcase with ⟨hr, C1, K1, hE1⟩ | ⟨hr, hc, ho, hE, hfill⟩
  · rw [if_neg (by simpa using hr)] at h
    obtain ⟨r2, s2, hk2, h⟩ := bind_ok h
    obtain ⟨m2, rfl, hcase⟩ := kallocIf_spec C1 hk2
    rcases hcase with ⟨hr2, C2, K2, hE2⟩ | ⟨hr2, hc, ho, hE, hfill⟩
    · rw [if_neg (by simpa using hr2)] at h
      cases h
      refine ⟨m2, own, C2, .refl _ _, .inl ⟨rfl, K1.trans K2, ?_⟩⟩
      rintro hE ⟨hst, hlt⟩
      obtain ⟨hc1, rfl⟩ := hE1 hE
      obtain ⟨hc2, _⟩ := hE2 hE
      simp only [hst, Bool.true_and, decide_eq_false_iff_not] at hc1 hc2
      exact hlt.elim hc1 hc2
    · rw [if_pos hr2] at h
      simp only [Bool.and_eq_true, decide_eq_true_eq] at hc
      obtain ⟨m', own', C', G, hend⟩ := mapZero_spec A hp ho
        (fun pg => ⟨(hfill pg).1, K1.trans (hfill pg).2⟩) h
      refine ⟨m', own', C', G, ?_⟩
      rcases hend with ⟨hs, K, hno⟩ | ⟨hs, M⟩
      · refine .inl ⟨hs, K, fun h3 _ => hno (hE ?_)⟩
        obtain ⟨_, rfl⟩ := hE1 h3
        exact h3
      · exact .inr ⟨hs, hc.1, .inr hc.2, M⟩
  · rw [if_pos hr] at h
    simp only [Bool.and_eq_true, decide_eq_true_eq] at hc
    obtain ⟨m', own', C', G, hend⟩ := mapZero_spec A hp ho hfill h
    refine ⟨m', own', C', G, ?_⟩
    rcases hend with ⟨hs, K, hno⟩ | ⟨hs, M⟩
    · exact .inl ⟨hs, K, fun h3 _ => hno (hE h3)⟩
    · exact .inr ⟨hs, hc.1, .inl hc.2, M⟩

/-- The entry for `va` is a copy-on-write entry. -/
def CowEntry (m : Phys) (root : TableId → Nat) (q : TableId) (va : Nat) : Prop :=
  va < MAXVA ∧ has (m.leaf (root q) (slot va)) PTE_V ∧ has (m.leaf (root q) (slot va)) PTE_F
  deriving Decidable

/-- How a fault on a copy-on-write entry ends: the process has a page of its own there, or it
is killed. -/
def CowFaultDone (s : Sys) (p : ProcId) (va : Nat) (s' : Sys) : Prop :=
  ∃ m', (s' = { s with mem := m' }.setProc p killedProc ∧
      Keeps s.root (fun _ => False) s.mem m' ∧ (va < (s.proc p).sz →
        has (s.mem.leaf (s.root (some p)) (slot va)) PTE_U = false ∨ Full m')) ∨
    (s' = { s with mem := m' } ∧ va < (s.proc p).sz ∧
      Keeps s.root (· = (some p, slot va)) s.mem m' ∧
      ∃ r, r ≠ 0 ∧ CowDone s.root (some p) va r s.mem m')

omit [Layout] in
theorem CowEntry.below {s : Sys} (R : Reserved s.mem s.root q) {va : Nat}
    (h : CowEntry s.mem s.root q va) : va < TRAPFRAME := by
  by_contra hge
  have hva : (slot va).va = PGROUNDDOWN va := slot_va h.1
  have hle : TRAPFRAME ≤ (slot va).va := by
    rw [hva]
    have := Nat.not_lt.mp hge
    rw [TRAPFRAME_eq] at this ⊢
    simp only [PGROUNDDOWN, PGSIZE]
    omega
  have hF := h.2.2
  rw [(R (slot va) hle).2] at hF
  cases hF

theorem cowFault_spec (I : Inv s own) (hp : (s.proc p).pagetable ≠ 0) {va : Nat}
    (hc : CowEntry s.mem s.root (some p) va) :
    ∃ s', cowFault p va s = .ok ((), s') ∧ Counted s'.mem s.root own ∧ CowFaultDone s p va s' := by
  have hva : va < TRAPFRAME := hc.below (I.space p hp).reserved
  have hdown : PGROUNDDOWN va < TRAPFRAME := Nat.lt_of_le_of_lt (Nat.div_mul_le_self _ _) hva
  have hslot := slot_PGROUNDDOWN hc.1
  rw [cowFault]
  simp only [get_bind_apply]
  by_cases hge : va ≥ (s.proc p).sz
  · rw [if_pos hge]
    exact ⟨_, rfl, I.counted, s.mem, .inl ⟨rfl, .refl _ _ _, fun h => absurd h (by omega)⟩⟩
  rw [if_neg hge]
  obtain ⟨r, m', hcow, C', K, D⟩ := cowalloc_spec (p := some p) I.counted hp hdown
    (PGROUNDDOWN_aligned va)
  rw [Sys.root_some] at hcow
  rw [hslot] at K
  rw [bind_of_ok (onMem_of_ok hcow)]
  by_cases hr : r = 0
  · rw [when_pos hr]
    refine ⟨_, rfl, C', m', .inl ⟨rfl, ?_⟩⟩
    rcases D with ⟨_, K0, hwhy⟩ | ⟨hr', _⟩
    · refine ⟨K0, fun _ => hwhy.imp_left fun hno => ?_⟩
      rw [hslot] at hno
      simpa [hc.2.1] using hno
    · exact absurd hr hr'
  · rw [when_neg hr]
    refine ⟨_, rfl, C', m', .inr ⟨rfl, by omega, K, r, hr, ?_⟩⟩
    rw [CowDone, hslot] at D
    exact D

/-- How a page fault ends. -/
inductive FaultDone (s : Sys) (p : ProcId) (cause va : Nat) (s' : Sys) : Prop
  | cow (h : CowEntry s.mem s.root (some p) va) (d : CowFaultDone s p va s')
  | file {m' : Phys} {a : VmArea} (h : ¬ CowEntry s.mem s.root (some p) va)
      (hit : FileHit s p cause va a) (d : FileMapped s p va a m') (hs : s' = { s with mem := m' })
  | zero {m' : Phys} (h : ¬ CowEntry s.mem s.root (some p) va)
      (hno : Enough s.mem 3 → ∀ a, ¬ FileHit s p cause va a) (stack : (s.proc p).aboveStack va)
      (hlt : va < (s.proc p).sz ∨ va < (s.proc p).shm)
      (d : Mapped s.root (some p) (PGROUNDDOWN va) (PTE_R ||| PTE_W ||| PTE_X ||| PTE_U)
        (fun _ => 0) s.mem m') (hs : s' = { s with mem := m' })
  | killed {m' : Phys} (h : ¬ CowEntry s.mem s.root (some p) va)
      (hno : Enough s.mem 3 → (∀ a, ¬ FileHit s p cause va a) ∧
        ¬ ((s.proc p).aboveStack va ∧ (va < (s.proc p).sz ∨ va < (s.proc p).shm)))
      (d : Keeps s.root (fun _ => False) s.mem m')
      (hs : s' = { s with mem := m' }.setProc p killedProc)

theorem Inv.cowpage (I : Inv s own) (hp : (s.proc p).pagetable ≠ 0) (va : Nat) :
    Mm.cowpage (s.proc p).pagetable va s.mem =
      .ok (if CowEntry s.mem s.root (some p) va then 0 else -1, s.mem) :=
  cowpage_spec (p := some p) I.counted.space hp va

theorem pageFault_spec (I : Inv s own) (hp : (s.proc p).pagetable ≠ 0) {cause va : Nat}
    (h : pageFault p cause va s = .ok ((), s')) :
    ∃ own', Counted s'.mem s.root own' ∧ Grows (some p) own own' ∧ FaultDone s p cause va s' := by
  rw [pageFault, get_bind_apply, bind_of_ok (onMem_of_ok (I.cowpage hp va))] at h
  by_cases hc : CowEntry s.mem s.root (some p) va
  · rw [if_pos (if_pos hc)] at h
    obtain ⟨s1, h1, C1, D⟩ := cowFault_spec I hp hc
    rw [h] at h1
    cases h1
    exact ⟨own, C1, .refl _ _, .cow hc D⟩
  rw [if_neg (by rw [if_neg hc]; decide)] at h
  obtain ⟨e, s1, hm, h⟩ := bind_ok h
  obtain ⟨m1, own1, rfl, C1, G1, hcase⟩ := mmapFault_spec I hp hm
  rcases hcase with ⟨rfl, K1, hno⟩ | ⟨rfl, a, hit, M⟩
  · have I1 : Inv { s with mem := m1 } own1 :=
      I.of_rests C1 G1.hold fun q => .of_keeps K1
    obtain ⟨m', own', C', G', hend⟩ := lazyFault_spec I1 hp h
    have hE1 : Enough s.mem 3 → Enough m1 3 := fun hE => hE.congr (hno hE).1
    rcases hend with ⟨rfl, K', hwhy⟩ | ⟨rfl, hst, hlt, M⟩
    · exact ⟨own', C', G1.trans G', .killed hc (fun hE => ⟨(hno hE).2, hwhy (hE1 hE)⟩)
        (K1.trans K') rfl⟩
    · exact ⟨own', C', G1.trans G', .zero hc (fun hE => (hno hE).2) hst hlt (M.after K1) rfl⟩
  · cases h
    exact ⟨own1, C1, G1, .file hc hit M rfl⟩

end Yyds.Kernel
