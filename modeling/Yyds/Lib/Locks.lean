import Yyds.Lib.Run

/-! Threads that take and release spin locks, one instruction at a time, and when they wait for
each other in a circle. -/
namespace Yyds.Lib

/-- One instruction: `next`, `yes` and `no` are the places in the code to go on at. `act` works on
the memory `M`, with an input `I` from outside, and says where to go on. -/
inductive Op (L M P I : Type*)
  | acquire (l : L) (next : P)
  | release (l : L) (next : P)
  | holding (l : L) (yes no : P)
  | act (f : I → M → Option (M × P))

/-- Who holds each lock, where each thread is in its code, and the memory. -/
structure LockState (T L M P : Type*) where
  holder : L → Option T
  pc : T → P
  mem : M

namespace LockState

variable {T L M P I : Type*} [DecidableEq T]

def goto (s : LockState T L M P) (t : T) (p : P) : LockState T L M P :=
  { s with pc := Function.update s.pc t p }

/-- The lock that thread `t` is about to acquire. -/
def wants (code : T → P → Op L M P I) (s : LockState T L M P) (t : T) : Option L :=
  match code t (s.pc t) with
  | .acquire l _ => some l
  | _ => none

/-- Thread `t` waits for a lock that `u` holds. -/
def WaitsFor (code : T → P → Op L M P I) (s : LockState T L M P) (t u : T) : Prop :=
  ∃ l, s.wants code t = some l ∧ s.holder l = some u

/-- A circle of threads, each waiting for a lock that the next one holds. -/
def Deadlocked (code : T → P → Op L M P I) (s : LockState T L M P) : Prop :=
  ∃ t, Relation.TransGen (s.WaitsFor code) t t

variable [DecidableEq L]

/-- A thread executes its next instruction. It spins while another one holds the lock. -/
def next (code : T → P → Op L M P I) (s : LockState T L M P) (a : T × I) :
    Option (LockState T L M P) :=
  match code a.1 (s.pc a.1) with
  | .acquire l p =>
    if s.holder l = none then
      some ({ s with holder := Function.update s.holder l (some a.1) }.goto a.1 p)
    else none
  | .release l p =>
    if s.holder l = some a.1 then
      some ({ s with holder := Function.update s.holder l none }.goto a.1 p)
    else none
  | .holding l yes no => some (s.goto a.1 (if s.holder l = some a.1 then yes else no))
  | .act f => (f a.2 s.mem).map fun r => { s with mem := r.1 }.goto a.1 r.2

def Steps (code : T → P → Op L M P I) (s : LockState T L M P) (a : T × I)
    (t : LockState T L M P) : Prop :=
  s.next code a = some t

end LockState

section
variable {T L M P I : Type*} [DecidableEq T] {code : T → P → Op L M P I}
  {ok : T → P → Prop} {holds : T → P → L → Prop} {s s' : LockState T L M P} {t u : T} {i : I}

open LockState

@[simp] theorem goto_pc_self (s : LockState T L M P) (t : T) (p : P) : (s.goto t p).pc t = p := by
  simp [goto]

@[simp] theorem goto_pc_of_ne {p : P} (h : u ≠ t) : (s.goto t p).pc u = s.pc u := by
  simp [goto, h]

@[simp] theorem goto_holder (s : LockState T L M P) (t : T) (p : P) :
    (s.goto t p).holder = s.holder := rfl

@[simp] theorem goto_mem (s : LockState T L M P) (t : T) (p : P) : (s.goto t p).mem = s.mem := rfl

omit [DecidableEq T] in
theorem wants_eq_some {l : L} : s.wants code t = some l ↔ ∃ p, code t (s.pc t) = .acquire l p := by
  unfold wants
  split
  · rename_i k p hc
    simp [hc]
  rename_i hc
  constructor
  · intro h
    cases h
  · rintro ⟨p, h⟩
    exact absurd h (hc l p)

/-- `ok` says at which places a thread can be at all, and `holds` which locks it has there. -/
structure Annotation (code : T → P → Op L M P I) (ok : T → P → Prop) (holds : T → P → L → Prop) :
    Prop where
  acquire : ∀ t p l p', ok t p → ¬ holds t p l → code t p = .acquire l p' →
    ok t p' ∧ ∀ k, holds t p' k ↔ k = l ∨ holds t p k
  release : ∀ t p l p', ok t p → code t p = .release l p' →
    ok t p' ∧ ∀ k, holds t p' k ↔ k ≠ l ∧ holds t p k
  holding : ∀ t p l yes no, ok t p → code t p = .holding l yes no →
    (ok t yes ∧ ∀ k, holds t yes k ↔ holds t p k) ∧ (ok t no ∧ ∀ k, holds t no k ↔ holds t p k)
  act : ∀ t p f i m m' p', ok t p → code t p = .act f → f i m = some (m', p') →
    ok t p' ∧ ∀ k, holds t p' k ↔ holds t p k

/-- The threads are where they can be, and hold the locks that the annotation says. -/
structure Owned (ok : T → P → Prop) (holds : T → P → L → Prop) (s : LockState T L M P) : Prop where
  place : ∀ t, ok t (s.pc t)
  locks : ∀ l t, s.holder l = some t ↔ holds t (s.pc t) l

theorem place_goto {p : P} (h : ∀ u, ok u (s.pc u)) (hp : ok t p) (u : T) :
    ok u ((s.goto t p).pc u) := by
  by_cases hu : u = t
  · subst hu
    simpa using hp
  · simpa [hu] using h u

theorem Owned.goto {m : M} {p : P} (h : Owned ok holds s)
    (hp : ok t p ∧ ∀ k, holds t p k ↔ holds t (s.pc t) k) :
    Owned ok holds ({ s with mem := m }.goto t p) := by
  refine ⟨place_goto h.place hp.1, ?_⟩
  intro l u
  by_cases hu : u = t
  · subst hu
    simpa [hp.2 l] using h.locks l u
  · simpa [hu] using h.locks l u

variable [DecidableEq L]

theorem LockState.Steps.cases (h : Steps code s (t, i) s') :
    (∃ l p, code t (s.pc t) = .acquire l p ∧ s.holder l = none ∧
      s' = { s with holder := Function.update s.holder l (some t) }.goto t p) ∨
    (∃ l p, code t (s.pc t) = .release l p ∧ s.holder l = some t ∧
      s' = { s with holder := Function.update s.holder l none }.goto t p) ∨
    (∃ l yes no, code t (s.pc t) = .holding l yes no ∧
      s' = s.goto t (if s.holder l = some t then yes else no)) ∨
    ∃ f m p, code t (s.pc t) = .act f ∧ f i s.mem = some (m, p) ∧
      s' = { s with mem := m }.goto t p := by
  unfold Steps LockState.next at h
  split at h
  · rename_i l p hc
    rw [Option.ite_none_right_eq_some] at h
    exact .inl ⟨l, p, hc, h.1, (Option.some.inj h.2).symm⟩
  · rename_i l p hc
    rw [Option.ite_none_right_eq_some] at h
    exact .inr (.inl ⟨l, p, hc, h.1, (Option.some.inj h.2).symm⟩)
  · rename_i l yes no hc
    exact .inr (.inr (.inl ⟨l, yes, no, hc, (Option.some.inj h).symm⟩))
  · rename_i f hc
    rw [Option.map_eq_some_iff] at h
    obtain ⟨⟨m, p⟩, hf, he⟩ := h
    exact .inr (.inr (.inr ⟨f, m, p, hc, hf, he.symm⟩))

theorem LockState.Steps.pc_of_ne (h : Steps code s (t, i) s') (hu : u ≠ t) : s'.pc u = s.pc u := by
  obtain ⟨l, p, _, _, rfl⟩ | ⟨l, p, _, _, rfl⟩ | ⟨l, yes, no, _, rfl⟩ | ⟨f, m, p, _, _, rfl⟩ :=
    h.cases <;> simp [hu]

theorem Owned.next (A : Annotation code ok holds) (h : Owned ok holds s)
    (hn : Steps code s (t, i) s') : Owned ok holds s' := by
  obtain ⟨l, p, hc, hfree, rfl⟩ | ⟨l, p, hc, hheld, rfl⟩ | ⟨l, yes, no, hc, rfl⟩ |
    ⟨f, m, p, hc, hf, rfl⟩ := hn.cases
  · have hnot : ¬ holds t (s.pc t) l := by
      intro hh
      rw [(h.locks l t).mpr hh] at hfree
      cases hfree
    obtain ⟨hok, hp⟩ := A.acquire _ _ _ _ (h.place t) hnot hc
    refine ⟨place_goto h.place hok, ?_⟩
    intro k u
    by_cases hu : u = t
    · subst hu
      by_cases hk : k = l
      · simp [hp, hk]
      · simpa [hp, hk] using h.locks k u
    · by_cases hk : k = l
      · have hno := h.locks l u
        simp only [hfree, reduceCtorEq, false_iff] at hno
        simp [hk, hu, hno, Ne.symm hu]
      · simpa [hk, hu] using h.locks k u
  · obtain ⟨hok, hp⟩ := A.release _ _ _ _ (h.place t) hc
    refine ⟨place_goto h.place hok, ?_⟩
    intro k u
    by_cases hk : k = l
    · by_cases hu : u = t
      · simp [hp, hk, hu]
      · have hno := h.locks l u
        simp only [hheld, Option.some.injEq, Ne.symm hu, false_iff] at hno
        simp [hk, hu, hno]
    · by_cases hu : u = t
      · subst hu
        simpa [hp, hk] using h.locks k u
      · simpa [hk, hu] using h.locks k u
  · obtain ⟨hyes, hno⟩ := A.holding _ _ _ _ _ (h.place t) hc
    refine h.goto ?_
    split
    · exact hyes
    · exact hno
  · exact h.goto (A.act _ _ _ _ _ _ _ (h.place t) hc hf)

/-- At most one thread is in a part `C` of its code, if a thread enters it only while no other one
is there. -/
theorem LockState.Steps.unique {C : T → P → Prop} (h : Steps code s (t, i) s')
    (hone : ∀ u v, C u (s.pc u) → C v (s.pc v) → u = v)
    (hnew : C t (s'.pc t) → C t (s.pc t) ∨ ∀ u, u ≠ t → ¬ C u (s.pc u)) (u v : T)
    (hu : C u (s'.pc u)) (hv : C v (s'.pc v)) : u = v := by
  have hother : ∀ w, w ≠ t → C t (s'.pc t) → ¬ C w (s'.pc w) := by
    intro w hw ht hcw
    rw [h.pc_of_ne hw] at hcw
    rcases hnew ht with hold | hno
    · exact hw (hone w t hcw hold)
    · exact hno w hw hcw
  by_cases hut : u = t
  · subst hut
    by_contra hne
    exact hother v (Ne.symm hne) hu hv
  by_cases hvt : v = t
  · subst hvt
    exact absurd hu (hother u hut hv)
  · rw [h.pc_of_ne hut] at hu
    rw [h.pc_of_ne hvt] at hv
    exact hone u v hu hv

end

section
variable {T L M P I : Type*} {code : T → P → Op L M P I}
  {ok : T → P → Prop} {holds : T → P → L → Prop} {s : LockState T L M P}

open LockState

/-- A thread on a circle waits for the next one on it and is waited for by the one before. -/
theorem circle_neighbours {r : T → T → Prop} {t : T} (h : Relation.TransGen r t t) :
    (∃ v, r v t) ∧ ∃ w, r t w ∧ Relation.TransGen r w w := by
  obtain ⟨v, -, hvt⟩ := Relation.TransGen.tail'_iff.mp h
  obtain ⟨w, htw, hwt⟩ := Relation.TransGen.head'_iff.mp h
  exact ⟨⟨v, hvt⟩, w, htw, .tail' hwt htw⟩

theorem deadlocked_of_two {t u : T} (h : s.WaitsFor code t u) (h' : s.WaitsFor code u t) :
    s.Deadlocked code :=
  ⟨t, .tail (.single h) h'⟩

/-- A thread that has an `inner` lock waits for nothing, and at most one thread that has a lock
waits for another lock that is not `inner`. -/
theorem Owned.not_deadlocked (h : Owned ok holds s) (inner : L → Prop) (C : T → Prop)
    (hinner : ∀ t k l p, inner k → holds t (s.pc t) k → code t (s.pc t) ≠ .acquire l p)
    (houter : ∀ t k l p, holds t (s.pc t) k → code t (s.pc t) = .acquire l p →
      inner l ∨ C t ∧ ¬ holds t (s.pc t) l)
    (hone : ∀ t u, C t → C u → t = u) : ¬ s.Deadlocked code := by
  have hC : ∀ t, Relation.TransGen (s.WaitsFor code) t t →
      C t ∧ ∀ l, s.wants code t = some l → s.holder l ≠ some t := by
    intro t ht
    obtain ⟨⟨v, k, -, hk⟩, w, ⟨l, hl, hw⟩, hcircle⟩ := circle_neighbours ht
    obtain ⟨_, x, ⟨l', hl', -⟩, _⟩ := circle_neighbours hcircle
    obtain ⟨p, hp⟩ := wants_eq_some.mp hl
    obtain ⟨p', hp'⟩ := wants_eq_some.mp hl'
    rcases houter t k l p ((h.locks k t).mp hk) hp with hin | ⟨hCt, hne⟩
    · exact absurd hp' (hinner w l l' p' hin ((h.locks l w).mp hw))
    · refine ⟨hCt, ?_⟩
      intro l1 hl1 ht1
      cases hl.symm.trans hl1
      exact hne ((h.locks l t).mp ht1)
  rintro ⟨t, ht⟩
  obtain ⟨_, w, ⟨l, hl, hw⟩, hcircle⟩ := circle_neighbours ht
  have he := hone t w (hC t ht).1 (hC w hcircle).1
  subst he
  exact (hC t ht).2 l hl hw

end

end Yyds.Lib
