import Yyds.Kernel.Access

/-! The reference counts of user pages over whole runs of the machine. -/
namespace Yyds.Kernel

open Lib Mm

/-- The page that a leaf entry maps, the kernel's own entries included. -/
def leafTarget (s : Sys) (x : TableId × Slot) : Option Nat :=
  if has (s.mem.leaf (s.root x.1) x.2) PTE_V then some (PTE2PA (s.mem.leaf (s.root x.1) x.2))
  else none

/-- A page is on one of the free lists. -/
def OnFreeList (m : Phys) (t : Nat) : Prop := ∃ c l, Chain m.next 0 (m.freelist c) l ∧ t ∈ l

section
variable [Layout]

/-- A page for user memory: it is free, or a user entry maps it. -/
def UserPage (s : Sys) (t : Nat) : Prop :=
  Managed t ∧ (s.mem.count t = 0 ∨ ∃ x, target s.mem s.root x = some t)

/-- `ref.cnt` is exact: for each user page it is the number of leaf entries that map it, a
writable user entry is the only one for its page, and a page that is mapped is not free. -/
structure ExactCounts (s : Sys) : Prop where
  count : ∀ t, UserPage s t → s.mem.refcnt t = refs (leafTarget s) t
  writable : ∀ (q : TableId) (k : Slot) (t : Nat), target s.mem s.root (q, k) = some t →
    has (s.mem.leaf (s.root q) k) PTE_W → s.mem.refcnt t = 1
  mapped : ∀ x t, leafTarget s x = some t → ¬ OnFreeList s.mem t

variable {s s₀ : Sys} {own : Nat → Owner} {t : Nat} {x : TableId × Slot}

/-- The entries of the kernel map the trampoline and pages that it holds. -/
theorem Inv.leafTarget_cases (I : Inv s own) (h : leafTarget s x = some t) :
    target s.mem s.root x = some t ∨ own t = .held ∨ ¬ Managed t := by
  obtain ⟨q, k⟩ := x
  have hV : has (s.mem.leaf (s.root q) k) PTE_V := by
    by_contra hV
    rw [leafTarget, if_neg hV] at h
    cases h
  rw [leafTarget, if_pos hV, Option.some.injEq] at h
  cases q with
  | none =>
    rw [show s.root none = 0 from rfl, Phys.leaf, if_pos rfl] at hV
    exact absurd hV (by decide)
  | some p =>
    by_cases hp : (s.proc p).pagetable = 0
    · rw [Sys.root_some, hp, Phys.leaf, if_pos rfl] at hV
      exact absurd hV (by decide)
    have A := I.space p hp
    by_cases hlt : k.va < TRAPFRAME
    · exact .inl (target_eq_some.mpr ⟨hlt, hV, h⟩)
    by_cases hmax : k.va < MAXVA
    · refine .inr ?_
      rw [← slot_of_va k] at h
      rcases slot_of_high (Nat.not_lt.mp hlt) hmax with he | he
      · rw [he, A.trapframe, trapframePte] at h
        by_cases h0 : (s.proc p).trapframe = 0
        · rw [h0] at h
          exact .inr fun hm => hm.pos h.symm
        · have hheld : own (s.proc p).trapframe = .held := I.frame (p, false) h0
          obtain ⟨hm, _⟩ := I.counted.space.held _ hheld
          rw [PTE2PA_mk_V hm.1 hm.lt (by decide)] at h
          exact .inl (h ▸ hheld)
      · have hlt := Layout.trampoline_lt
        have hle := Layout.kend_le
        rw [PHYSTOP_eq] at hle
        rw [he, A.trampoline, trampolinePte,
          PTE2PA_mk_V Layout.trampoline_aligned (by omega) (by decide)] at h
        refine .inr fun hm => ?_
        have := hm.2.1
        omega
    · rw [A.beyond k (Nat.not_lt.mp hmax)] at hV
      exact absurd hV (by decide)

theorem Inv.exactCounts (I : Inv s own) : ExactCounts s := by
  have C := I.counted
  have hsame : ∀ t, own t = .user → Managed t → ∀ x,
      leafTarget s x = some t ↔ target s.mem s.root x = some t := by
    intro t ho hm x
    refine ⟨fun h => ?_, fun h => ?_⟩
    · rcases I.leafTarget_cases h with h | h | h
      · exact h
      · rw [ho] at h
        cases h
      · exact absurd hm h
    · obtain ⟨_, hV, hpa⟩ := target_eq_some.mp h
      rw [leafTarget, if_pos hV, hpa]
  have hint : ∀ t, Managed t → own t = .user → s.mem.refcnt t = refs (target s.mem s.root) t := by
    intro t hm ho
    rw [Phys.refcnt, C.count t hm ho]
    have := C.space.refs_le t
    rw [BitVec.toInt_eq_toNat_cond, BitVec.toNat_ofNat, Nat.mod_eq_of_lt (by omega),
      if_pos (by omega)]
  refine ⟨?_, ?_, ?_⟩
  · rintro t ⟨hm, hcase⟩
    have ho : own t = .user := by
      rcases hcase with h0 | ⟨x, hx⟩
      · exact C.space.own_of_free h0
      · exact (C.user x t hx).2
    rw [hint t hm ho, refs_congr (hsame t ho hm)]
  · intro q k t ht hW
    obtain ⟨hm, ho⟩ := C.user _ t ht
    rw [hint t hm ho, C.writable (q, k) t ht hW]
    rfl
  · rintro x t ht ⟨c, l, hchain, hmem⟩
    obtain ⟨lists, hl⟩ := C.space.alloc
    obtain rfl := hchain.unique (hl.threads.chain c)
    obtain ⟨hm, h0⟩ := (hl.mem_iff t).mp ⟨c, hmem⟩
    have ho : own t = .user := C.space.own_of_free h0
    exact C.count_ne_zero ((hsame t ho hm x).mp ht) h0

/-- The steps on copy-on-write memory: user code and faults below `p->sz`, the routines that
move pages, and the end of a process. -/
def CowStep (s : Sys) (x : ProcId × Action) : Prop :=
  match x.2 with
  | .load va | .store va _ => va.toNat < (s.proc x.1).sz
  | .moveSp _ | .argaddr _ | .copyout _ _ | .grow _ | .shrink _ | .fork | .exec _ _ | .exit _
  | .wait _ => True
  | .sbrk _ | .mmap .. | .munmap _ _ => False

omit [Layout] in
instance (s : Sys) : (x : ProcId × Action) → Decidable (CowStep s x)
  | (_, a) => by
    refine a.casesOn ?_ ?_ ?_ ?_ ?_ ?_ ?_ ?_ ?_ ?_ ?_ ?_ ?_ ?_ <;> intros <;> dsimp only [CowStep] <;>
      infer_instance

omit [Layout] in
theorem CowStep.tame {x : ProcId × Action} (h : CowStep s x) : Tame s x := by
  obtain ⟨p, a⟩ := x
  cases a with
  | load va => exact fun hw => Nat.not_lt.mpr hw.1 h
  | store va b => exact fun hw => Nat.not_lt.mpr hw.1 h
  | sbrk n => exact h.elim
  | mmap addr length prot flags vfile offset => exact h.elim
  | munmap addr length => exact h.elim
  | moveSp | argaddr | copyout | grow | shrink | fork | exec | exit | wait => trivial

end

/-- The steps of the processes other than `q` on their memory. -/
def OtherMemory (q : ProcId) (s : Sys) (x : ProcId × Action) : Prop :=
  Tame s x ∧ x.1 ≠ q ∧ OwnMemory s x.1 x.2

section
variable [Layout] {s s' s₀ : Sys} {p q : ProcId} {xs ys : List (ProcId × Action)}

/-- A child starts with the memory of its parent. Nobody else notices, also if `fork` fails. -/
theorem fork_copies_memory {e : Int} (hs : ∃ own, Inv s₀ own)
    (h : Run (Guarded Tame Step) s₀ xs s) (hp : (s.proc p).state ≠ .UNUSED)
    (hf : fork p s = .ok (e, s')) :
    Unnoticed s s' ∧ (e = -1 ∨ ∃ c, (s.proc c).state = .UNUSED ∧ e = (s'.proc c).pid ∧
      view s'.mem s'.root (some c) = view s.mem s.root (some p)) := by
  obtain ⟨own, I⟩ := run_inv h hs
  rcases fork_spec I hp hf with ⟨he, hn, _⟩ | ⟨c, _, he, F⟩
  · exact ⟨hn, .inl he⟩
  refine ⟨fun q hq => ?_, .inr ⟨c, F.free, he, F.copied⟩⟩
  have hne : q ≠ c := by
    rintro rfl
    exact hq F.free
  exact ⟨F.only.proc q hne, F.view _ (by simpa using hne)⟩

/-- Whatever pages they share, no process sees what the others do to their memory. -/
theorem others_unseen (hs : ∃ own, Inv s₀ own) (h : Run (Guarded Tame Step) s₀ xs s)
    (h' : Run (Guarded (OtherMemory q) Step) s ys s') :
    view s'.mem s'.root (some q) = view s.mem s.root (some q) := by
  have I := run_inv h hs
  clear h
  induction h' with
  | nil => rfl
  | cons hst _ ih =>
    obtain ⟨⟨ht, hx, ha⟩, hst⟩ := hst
    obtain ⟨own, I⟩ := I
    obtain ⟨own', L⟩ := hst.local I ht ha
    rw [ih ⟨own', L.inv⟩, L.same_root]
    exact funext fun k => L.keeps.view fun hk => hx (Option.some.inj hk).symm

end

/-- The first process has a child with the process id 2. -/
theorem fork_copies_memory_first : let := twentyPages
    ∃ s s', small noFile noInode Tame [] = some s ∧ fork 0 s = .ok (2, s') ∧ Unnoticed s s' ∧
      ∃ c, (s.proc c).state = .UNUSED ∧ 2 = (s'.proc c).pid ∧
        view s'.mem s'.root (some c) = view s.mem s.root (some 0) := by
  let := twentyPages
  obtain ⟨s, hs, hp, ⟨e, s'⟩, hf, rfl⟩ : ∃ s ∈ small noFile noInode Tame [],
      (s.proc 0).state ≠ .UNUSED ∧ ∃ r ∈ (fork 0 s).toOption, r.1 = 2 := by
    decide +kernel
  have hf : fork 0 s = .ok (2, s') := by
    cases hr : fork 0 s <;> rw [hr] at hf <;> cases hf
    rfl
  obtain ⟨s₀, hs0, hrun⟩ := small_run hs
  obtain ⟨hunnoticed, hchild⟩ := fork_copies_memory hs0 hrun hp hf
  exact ⟨s, s', hs, hf, hunnoticed, hchild.resolve_left (by decide)⟩

/-- The child stores to the page that it shares with its parent. -/
theorem others_unseen_child : let := twentyPages
    ∃ s s', Run (Guarded (OtherMemory 0) Step) s [(1, .store 8 7)] s' ∧
      view s'.mem s'.root (some 0) = view s.mem s.root (some 0) := by
  let := twentyPages
  have h : (small noFile noInode Tame [(0, .fork), (1, .store 8 7)]).isSome = true := by
    decide +kernel
  obtain ⟨_, hs⟩ := Option.isSome_iff_exists.mp h
  obtain ⟨s₀, hs0, hrun⟩ := small_run hs
  rcases hrun with _ | ⟨hf, _ | ⟨⟨ht, hst⟩, _⟩⟩
  have hx : Guarded (OtherMemory 0) Step _ _ _ := ⟨⟨ht, by decide, trivial⟩, hst⟩
  exact ⟨_, _, .single hx, others_unseen hs0 (.single hf) (.single hx)⟩

end Yyds.Kernel
