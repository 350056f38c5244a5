import Mathlib

/-! Null-terminated linked lists threaded through the cells of a store, and a family of
such lists that share no cell. -/
namespace Yyds.Lib

open Function

variable {A C : Type*} {next next' : A → A} {null : A} {head : C → A}
  {lists : C → List A} {a b : A} {c d : C} {l l' : List A}

/-- Following `next` from a cell visits exactly the listed cells and ends at `null`. -/
inductive Chain (next : A → A) (null : A) : A → List A → Prop
  | nil : Chain next null null []
  | cons {a : A} {l : List A} : a ≠ null → Chain next null (next a) l → Chain next null a (a :: l)

namespace Chain

section
variable (h : Chain next null a l)
include h

theorem unique (h' : Chain next null a l') : l = l' := by
  induction h generalizing l' with
  | nil =>
    cases h' with
    | nil => rfl
    | cons hne _ => exact absurd rfl hne
  | cons hne _ ih =>
    cases h' with
    | nil => exact absurd rfl hne
    | cons _ ht => rw [ih ht]

theorem congr (hn : ∀ b ∈ l, next' b = next b) : Chain next' null a l := by
  induction h with
  | nil => exact .nil
  | cons hne _ ih =>
    refine .cons hne ?_
    rw [hn _ List.mem_cons_self]
    exact ih fun b hb => hn b (List.mem_cons_of_mem _ hb)

theorem ne_null (hb : b ∈ l) : b ≠ null := by
  induction h with
  | nil => cases hb
  | cons hne _ ih =>
    rcases List.mem_cons.mp hb with rfl | hb
    · exact hne
    · exact ih hb

theorem eq_nil_iff : l = [] ↔ a = null := by
  cases h with
  | nil => simp
  | cons hne _ => simp [hne]

end

theorem drop_append (h : Chain next null a (l ++ b :: l')) : Chain next null b (b :: l') := by
  induction l generalizing a with
  | nil =>
    cases h with
    | cons hne ht => exact .cons hne ht
  | cons x l ih =>
    cases h with
    | cons _ ht => exact ih ht

/-- A list that ends cannot come back to a cell it has left. -/
theorem nodup (h : Chain next null a l) : l.Nodup := by
  induction h with
  | nil => exact List.nodup_nil
  | cons hne ht ih =>
    refine List.nodup_cons.mpr ⟨?_, ih⟩
    intro hmem
    obtain ⟨l1, l2, rfl⟩ := List.append_of_mem hmem
    have hlen := congrArg List.length (unique (.cons hne ht) ht.drop_append)
    simp at hlen
    omega

theorem head_eq (h : Chain next null a l) : a = l.headD null := by
  cases h with
  | nil => rfl
  | cons => rfl

theorem next_eq (h : Chain next null a (l ++ b :: l')) : next b = l'.headD null := by
  cases h.drop_append with
  | cons _ ht => exact ht.head_eq

theorem cut [DecidableEq A] {x : A} (h : Chain next null a (l ++ b :: x :: l')) :
    Chain (update next b (next x)) null a (l ++ b :: l') := by
  have hnd := h.nodup
  induction l generalizing a with
  | nil =>
    cases h with
    | cons hne ht =>
      cases ht with
      | cons _ ht =>
        refine .cons hne ?_
        rw [update_self]
        refine ht.congr fun y hy => update_of_ne ?_ ..
        rintro rfl
        exact (List.nodup_cons.mp hnd).1 (List.mem_cons_of_mem _ hy)
  | cons y l ih =>
    cases h with
    | cons hne ht =>
      obtain ⟨hy, hnd⟩ := List.nodup_cons.mp hnd
      refine .cons hne ?_
      rw [update_of_ne]
      · exact ih ht hnd
      · rintro rfl
        exact hy (by simp)

/-- A cell is put at the end, after `b`. -/
theorem snoc {x : A} (h : Chain next null a (l ++ [b])) (hx : x ≠ null) (hb : next' b = x)
    (hnull : next' x = null) (hl : ∀ y ∈ l, next' y = next y) :
    Chain next' null a (l ++ [b, x]) := by
  induction l generalizing a with
  | nil =>
    cases h with
    | cons hne _ =>
      refine .cons hne ?_
      rw [hb]
      refine .cons hx ?_
      rw [hnull]
      exact .nil
  | cons y l ih =>
    cases h with
    | cons hne ht =>
      refine .cons hne ?_
      rw [hl y List.mem_cons_self]
      exact ih ht fun z hz => hl z (List.mem_cons_of_mem _ hz)

end Chain

/-- One list for each `c`, and no cell on two of them. -/
structure Threads (next : A → A) (null : A) (head : C → A) (lists : C → List A) : Prop where
  chain : ∀ c, Chain next null (head c) (lists c)
  disjoint : ∀ c d a, a ∈ lists c → a ∈ lists d → c = d

namespace Threads

section
variable (h : Threads next null head lists)
include h

theorem congr (hn : ∀ c, ∀ b ∈ lists c, next' b = next b) : Threads next' null head lists :=
  ⟨fun c => (h.chain c).congr (hn c), h.disjoint⟩

theorem empty_iff : (∀ c, head c = null) ↔ ∀ c, lists c = [] :=
  forall_congr' fun c => (h.chain c).eq_nil_iff.symm

theorem exists_cons (hc : head c ≠ null) : ∃ l, lists c = head c :: l := by
  have hch := h.chain c
  cases hl : lists c with
  | nil => exact absurd ((hch.eq_nil_iff).mp hl) hc
  | cons b l =>
    rw [hl] at hch
    cases hch
    exact ⟨l, rfl⟩

end

variable [DecidableEq C]

section
variable (h : Threads next null head lists)
include h

/-- One list is replaced; its cells are those it had, and cells that were on no list. -/
theorem replace {head' : C → A} (hc : Chain next' null (head' c) l)
    (hhead : ∀ d ≠ c, head' d = head d) (hnext : ∀ d ≠ c, ∀ b ∈ lists d, next' b = next b)
    (hmem : ∀ b ∈ l, b ∈ lists c ∨ ∀ d, b ∉ lists d) :
    Threads next' null head' (update lists c l) := by
  have hown : ∀ d b, b ∈ lists d → b ∈ l → d = c := by
    intro d b hd hb
    rcases hmem b hb with hold | hfresh
    · exact h.disjoint d c b hd hold
    · exact absurd hd (hfresh d)
  refine ⟨fun d => ?_, fun d e b hd he => ?_⟩
  · by_cases hdc : d = c
    · rw [hdc, update_self]
      exact hc
    · rw [update_of_ne hdc, hhead d hdc]
      exact (h.chain d).congr (hnext d hdc)
  · by_cases hdc : d = c <;> by_cases hec : e = c
    · exact hdc.trans hec.symm
    · rw [hdc, update_self] at hd
      rw [update_of_ne hec] at he
      exact absurd (hown e b he hd) hec
    · rw [update_of_ne hdc] at hd
      rw [hec, update_self] at he
      exact absurd (hown d b hd he) hdc
    · rw [update_of_ne hdc] at hd
      rw [update_of_ne hec] at he
      exact h.disjoint d e b hd he

theorem push (ha : a ≠ null) (hfresh : ∀ d, a ∉ lists d) (hn : next' a = head c)
    (hne : ∀ b ≠ a, next' b = next b) :
    Threads next' null (update head c a) (update lists c (a :: lists c)) := by
  have hother : ∀ d, ∀ b ∈ lists d, next' b = next b :=
    fun d b hb => hne b fun he => hfresh d (he ▸ hb)
  refine h.replace ?_ (fun d hd => update_of_ne hd ..) (fun d _ => hother d) fun b hb => ?_
  · rw [update_self]
    exact .cons ha (hn ▸ (h.chain c).congr (hother c))
  · rcases List.mem_cons.mp hb with rfl | hb
    · exact .inr hfresh
    · exact .inl hb

theorem pop (hl : lists c = a :: l) :
    Threads next null (update head c (next a)) (update lists c l) := by
  have hc := h.chain c
  rw [hl] at hc
  refine h.replace ?_ (fun d hd => update_of_ne hd ..) (fun _ _ _ _ => rfl) fun b hb => .inl ?_
  · rw [update_self]
    cases hc with
    | cons _ ht => exact ht
  · rw [hl]
    exact List.mem_cons_of_mem _ hb

theorem cut [DecidableEq A] (hl : lists c = l ++ b :: a :: l') :
    Threads (update next b (next a)) null head
      (update lists c (l ++ b :: l')) := by
  have hb : b ∈ lists c := by
    rw [hl]
    simp
  refine h.replace (hl ▸ h.chain c).cut (fun _ _ => rfl) (fun d hd x hx => update_of_ne ?_ ..)
    fun x hx => .inl ?_
  · rintro rfl
    exact hd (h.disjoint d c x hx hb)
  · rw [hl]
    simp only [List.mem_append, List.mem_cons] at hx ⊢
    rcases hx with hx | rfl | hx
    · exact .inl hx
    · exact .inr (.inl rfl)
    · exact .inr (.inr (.inr hx))

/-- A cell that is on no list is put at the end of a list that is not empty. -/
theorem snoc [DecidableEq A] (hl : lists c = l ++ [b]) (ha : a ≠ null) (hnull : next a = null)
    (hfresh : ∀ d, a ∉ lists d) :
    Threads (update next b a) null head (update lists c (l ++ [b, a])) := by
  have hb : b ∈ lists c := by
    rw [hl]
    simp
  have hab : a ≠ b := fun heq => hfresh c (heq ▸ hb)
  have hchain := h.chain c
  rw [hl] at hchain
  refine h.replace (hchain.snoc ha (update_self ..) ?_ fun y hy => update_of_ne ?_ ..)
    (fun _ _ => rfl) (fun d hd y hy => update_of_ne ?_ ..) fun x hx => ?_
  · rw [update_of_ne hab]
    exact hnull
  · rintro rfl
    exact (List.nodup_append.mp hchain.nodup).2.2 y hy y (by simp) rfl
  · rintro rfl
    exact hd (h.disjoint d c y hy hb)
  · rw [hl]
    simp only [List.mem_append, List.mem_cons, List.not_mem_nil, or_false] at hx ⊢
    rcases hx with hx | hx | rfl
    · exact .inl (.inl hx)
    · exact .inl (.inr hx)
    · exact .inr hfresh

end

end Threads

end Yyds.Lib
