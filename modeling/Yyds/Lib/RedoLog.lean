import Mathlib

/-! Redo logging over an arbitrary store. A header cell names the home cells of the
transaction that is committed and not yet installed; log slots hold their new contents.
Only prefixes of the issued writes reach the store before a crash. -/
namespace Yyds.Lib

open Function

variable {A B : Type*}

/-- Where the log lives in the store: a header, which `targets` decodes, and `cap` slots. -/
structure RedoLayout (A B : Type*) where
  head : A
  slot : Nat → A
  cap : Nat
  targets : B → List A
  slot_ne_head : ∀ i, slot i ≠ head
  slot_injective : Injective slot

namespace RedoLayout

variable (L : RedoLayout A B)

/-- The cells that are not the log's own. -/
def Home (a : A) : Prop := a ≠ L.head ∧ ∀ i < L.cap, a ≠ L.slot i

/-- Two stores agree outside the log. -/
def SameHome (d e : A → B) : Prop := ∀ a, L.Home a → d a = e a

/-- The installation writes a store calls for: slot `i` to the `i`th cell the header names. -/
def redo (d : A → B) : List (A × B) :=
  (L.targets (d L.head)).zipIdx.map fun p => (p.1, d (L.slot p.2))

/-- A header that names distinct home cells, and no more of them than there are slots. -/
def WellHeaded (d : A → B) : Prop :=
  (∀ a ∈ L.targets (d L.head), L.Home a) ∧ (L.targets (d L.head)).length ≤ L.cap ∧
    (L.targets (d L.head)).Nodup

/-- The writes of one recovery, in issue order; `h` is the cleared header. -/
def recoverWrites (d : A → B) (h : B) : List (A × B) := L.redo d ++ [(L.head, h)]

variable {L} {d e : A → B}

theorem SameHome.refl (d : A → B) : L.SameHome d d := fun _ _ => rfl

theorem SameHome.trans {f : A → B} (h : L.SameHome d e) (k : L.SameHome e f) : L.SameHome d f :=
  fun a ha => (h a ha).trans (k a ha)

theorem mem_redo {w : A × B} (hw : w ∈ L.redo d) : w.1 ∈ L.targets (d L.head) := by
  obtain ⟨p, hp, rfl⟩ := List.mem_map.mp hw
  exact List.fst_mem_of_mem_zipIdx hp

/-- A transaction: the home cells it writes, their new contents, and the two headers its
commit writes. -/
structure Txn (L : RedoLayout A B) where
  cells : List A
  data : A → B
  header : B
  clear : B
  cells_ne : cells ≠ []
  home : ∀ a ∈ cells, L.Home a
  fits : cells.length ≤ L.cap
  nodup : cells.Nodup
  header_targets : L.targets header = cells
  clear_targets : L.targets clear = []

namespace Txn

variable (x : Txn L)

def logWrites : List (A × B) := x.cells.zipIdx.map fun p => (L.slot p.2, x.data p.1)

def homeWrites : List (A × B) := x.cells.map fun a => (a, x.data a)

/-- The writes of one commit, in issue order. -/
def commitWrites : List (A × B) :=
  x.logWrites ++ [(L.head, x.header)] ++ x.homeWrites ++ [(L.head, x.clear)]

variable {x}

theorem logWrites_slot {w : A × B} (hw : w ∈ x.logWrites) : ∃ i < L.cap, w.1 = L.slot i := by
  obtain ⟨p, hp, rfl⟩ := List.mem_map.mp hw
  have := List.snd_lt_of_mem_zipIdx hp
  have := x.fits
  exact ⟨p.2, by omega, rfl⟩

theorem homeWrites_home {w : A × B} (hw : w ∈ x.homeWrites) : L.Home w.1 := by
  obtain ⟨a, ha, rfl⟩ := List.mem_map.mp hw
  exact x.home a ha

end Txn

end RedoLayout

variable [DecidableEq A]

/-- The store after the writes `ws`, oldest first. -/
def replay (d : A → B) (ws : List (A × B)) : A → B :=
  ws.foldl (fun d w => update d w.1 w.2) d

@[simp] theorem replay_nil (d : A → B) : replay d [] = d := rfl

@[simp] theorem replay_cons (d : A → B) (w : A × B) (ws : List (A × B)) :
    replay d (w :: ws) = replay (update d w.1 w.2) ws := rfl

theorem replay_append (d : A → B) (vs ws : List (A × B)) :
    replay d (vs ++ ws) = replay (replay d vs) ws := by
  simp [replay, List.foldl_append]

theorem replay_of_agree {d : A → B} {ws : List (A × B)} {a : A} {b : B}
    (h : ∀ w ∈ ws, w.1 = a → w.2 = b) (hb : (∃ w ∈ ws, w.1 = a) ∨ d a = b) : replay d ws a = b := by
  induction ws generalizing d with
  | nil => simpa using hb
  | cons w ws ih =>
    rw [replay_cons]
    refine ih (fun v hv => h v (List.mem_cons_of_mem w hv)) ?_
    by_cases hw : w.1 = a
    · exact .inr (hw ▸ (update_self w.1 w.2 d).trans (h w List.mem_cons_self hw))
    · rw [update_of_ne (Ne.symm hw)]
      simpa [hw] using hb

theorem replay_of_not_mem {d : A → B} {ws : List (A × B)} {a : A} (h : ∀ w ∈ ws, w.1 ≠ a) :
    replay d ws a = d a :=
  replay_of_agree (fun w hw he => absurd he (h w hw)) (.inr rfl)

/-- A cell that is written holds what was written last, whatever it held before. -/
theorem replay_congr {d e : A → B} {ws : List (A × B)} {a : A}
    (h : (∃ w ∈ ws, w.1 = a) ∨ d a = e a) : replay d ws a = replay e ws a := by
  induction ws generalizing d e with
  | nil =>
    rcases h with ⟨w, hw, _⟩ | h
    · cases hw
    · exact h
  | cons w ws ih =>
    rw [replay_cons, replay_cons]
    apply ih
    by_cases hw : w.1 = a
    · right
      subst hw
      simp
    rcases h with ⟨v, hv, hva⟩ | h
    · rcases List.mem_cons.mp hv with rfl | hv
      · exact absurd hva hw
      · exact Or.inl ⟨v, hv, hva⟩
    · right
      rw [update_of_ne (Ne.symm hw), update_of_ne (Ne.symm hw), h]

/-- The writes of a loop over `is`, where each turn sees what the turns before it wrote. -/
def chained {ι : Type*} (w : (A → B) → ι → A × B) (d : A → B) : List ι → List (A × B)
  | [] => []
  | i :: is => w d i :: chained w (update d (w d i).1 (w d i).2) is

/-- A loop that reads the cells in `C` only and writes none of them. -/
theorem chained_eq_map {ι : Type*} {w : (A → B) → ι → A × B} {d : A → B} {is : List ι} {C : A → Prop}
    (hread : ∀ i ∈ is, ∀ e : A → B, (∀ a, C a → e a = d a) → w e i = w d i)
    (hwrite : ∀ i ∈ is, ¬ C (w d i).1) : chained w d is = is.map (w d) := by
  have hchain : ∀ e : A → B, (∀ a, C a → e a = d a) → chained w e is = is.map (w d) := by
    induction is with
    | nil => exact fun _ _ => rfl
    | cons i is ih =>
      intro e he
      rw [chained, hread i List.mem_cons_self e he, List.map_cons]
      refine congrArg _ (ih (fun j hj => hread j (List.mem_cons_of_mem i hj))
        (fun j hj => hwrite j (List.mem_cons_of_mem i hj)) _ fun a ha => ?_)
      rw [update_of_ne, he a ha]
      rintro rfl
      exact hwrite i List.mem_cons_self ha
  exact hchain d fun _ _ => rfl

/-- Writes to cells that `ws` writes anyway are lost under `ws`. -/
theorem replay_absorb {d : A → B} {vs ws : List (A × B)} (h : ∀ v ∈ vs, ∃ w ∈ ws, w.1 = v.1) :
    replay (replay d vs) ws = replay d ws := by
  funext a
  apply replay_congr
  by_cases ha : ∃ v ∈ vs, v.1 = a
  · obtain ⟨v, hv, rfl⟩ := ha
    exact Or.inl (h v hv)
  · right
    apply replay_of_not_mem
    intro v hv hva
    exact ha ⟨v, hv, hva⟩

namespace RedoLayout

variable {L : RedoLayout A B} {d e : A → B} {h : B} {ws : List (A × B)}

/-- The store that completed recovery would leave, the header apart. -/
def recovered (L : RedoLayout A B) (d : A → B) : A → B := replay d (L.redo d)

theorem SameHome.replay (h : L.SameHome d e) (ws : List (A × B)) :
    L.SameHome (replay d ws) (replay e ws) :=
  fun a ha => replay_congr (Or.inr (h a ha))

theorem recovered_clean (h : L.targets (d L.head) = []) : L.recovered d = d := by
  simp [recovered, redo, h]

/-- Writes to home cells leave the header and the slots alone. -/
theorem replay_home_head (hw : ∀ w ∈ ws, L.Home w.1) : replay d ws L.head = d L.head :=
  replay_of_not_mem fun w hmem => (hw w hmem).1

theorem replay_home_slot (hw : ∀ w ∈ ws, L.Home w.1) {i : Nat} (hi : i < L.cap) :
    replay d ws (L.slot i) = d (L.slot i) :=
  replay_of_not_mem fun w hmem => (hw w hmem).2 i hi

theorem redo_replay_home (hd : (L.targets (d L.head)).length ≤ L.cap)
    (hw : ∀ w ∈ ws, L.Home w.1) : L.redo (replay d ws) = L.redo d := by
  unfold redo
  rw [replay_home_head hw]
  apply List.map_congr_left
  intro p hp
  have := List.snd_lt_of_mem_zipIdx hp
  rw [replay_home_slot hw (by omega)]

/-- Installing any part of what the header calls for changes nothing recovery would not. -/
theorem recovered_install (hd : L.WellHeaded d) (k : Nat) :
    L.recovered (replay d ((L.redo d).take k)) = L.recovered d := by
  have hhome : ∀ w ∈ (L.redo d).take k, L.Home w.1 :=
    fun w hw => hd.1 _ (mem_redo (List.mem_of_mem_take hw))
  unfold recovered
  rw [redo_replay_home hd.2.1 hhome]
  exact replay_absorb fun v hv => ⟨v, List.mem_of_mem_take hv, rfl⟩

theorem wellHeaded_install (hd : L.WellHeaded d) (k : Nat) :
    L.WellHeaded (replay d ((L.redo d).take k)) := by
  have hhome : ∀ w ∈ (L.redo d).take k, L.Home w.1 :=
    fun w hw => hd.1 _ (mem_redo (List.mem_of_mem_take hw))
  unfold WellHeaded
  rw [replay_home_head hhome]
  exact hd

/-- Clearing the header of an installed log keeps what recovery would give. -/
theorem recovered_clear (h0 : L.targets h = []) :
    L.SameHome (L.recovered (update (L.recovered d) L.head h)) (L.recovered d) := by
  intro a ha
  rw [recovered_clean (by simpa using h0)]
  exact update_of_ne ha.1 _ _

theorem recovered_recoverWrites (hd : L.WellHeaded d) (h0 : L.targets h = []) (k : Nat) :
    L.SameHome (L.recovered (replay d ((L.recoverWrites d h).take k))) (L.recovered d) ∧
      L.WellHeaded (replay d ((L.recoverWrites d h).take k)) := by
  unfold recoverWrites
  by_cases hk : k ≤ (L.redo d).length
  · rw [List.take_append_of_le_length hk]
    refine ⟨?_, wellHeaded_install hd k⟩
    rw [recovered_install hd]
    exact SameHome.refl _
  · have hall : (L.redo d ++ [(L.head, h)]).take k = L.redo d ++ [(L.head, h)] :=
      List.take_of_length_le (by simp; omega)
    rw [hall, replay_append]
    refine ⟨recovered_clear h0, ?_⟩
    simp [WellHeaded, h0]

namespace Txn

variable {x : Txn L}

/-- Before the header is written the log has no effect. -/
theorem replay_logWrites_take (h : L.targets (d L.head) = []) (k : Nat) :
    L.targets (replay d (x.logWrites.take k) L.head) = [] ∧
      L.SameHome (replay d (x.logWrites.take k)) d := by
  constructor
  · rw [replay_of_not_mem]
    · exact h
    · intro w hw he
      obtain ⟨i, _, hi⟩ := logWrites_slot (List.mem_of_mem_take hw)
      exact L.slot_ne_head i (hi.symm.trans he)
  · intro a ha
    apply replay_of_not_mem
    intro w hw he
    obtain ⟨i, hcap, hi⟩ := logWrites_slot (List.mem_of_mem_take hw)
    exact ha.2 i hcap (he.symm.trans hi)

/-- After the log writes slot `i` holds the contents of the `i`th cell. -/
theorem replay_logWrites_slot {i : Nat} {a : A} (hi : (a, i) ∈ x.cells.zipIdx) :
    replay d x.logWrites (L.slot i) = x.data a := by
  refine replay_of_agree ?_ (.inl ⟨_, List.mem_map.mpr ⟨(a, i), hi, rfl⟩, rfl⟩)
  intro w hw he
  obtain ⟨q, hq, rfl⟩ := List.mem_map.mp hw
  have hqi : q.2 = i := L.slot_injective he
  rw [List.mem_zipIdx_iff_getElem?] at hi hq
  rw [hqi, hi] at hq
  exact congrArg x.data (Option.some.inj hq).symm

/-- Once the header is written, recovery would install exactly the transaction. -/
theorem redo_committed :
    L.redo (update (replay d x.logWrites) L.head x.header) = x.homeWrites := by
  simp only [redo, update_self, x.header_targets, homeWrites]
  have hmap : ∀ p ∈ x.cells.zipIdx, (p.1, update (replay d x.logWrites) L.head x.header
      (L.slot p.2)) = (p.1, x.data p.1) := by
    intro p hp
    rw [update_of_ne (L.slot_ne_head p.2), replay_logWrites_slot hp]
  rw [List.map_congr_left hmap]
  calc x.cells.zipIdx.map (fun p => (p.1, x.data p.1))
      = (x.cells.zipIdx.map Prod.fst).map (fun a => (a, x.data a)) := by rw [List.map_map]; rfl
    _ = x.cells.map (fun a => (a, x.data a)) := by rw [List.zipIdx_map_fst]

/-- A crash inside one commit is all or nothing. The cut is at the header write. -/
theorem recovered_commitWrites_take (hd : L.targets (d L.head) = []) (k : Nat) :
    L.WellHeaded (replay d (x.commitWrites.take k)) ∧
    L.SameHome (L.recovered (replay d (x.commitWrites.take k)))
      (if k ≤ x.cells.length then d else replay d x.homeWrites) := by
  have hlen : x.logWrites.length = x.cells.length := by simp [logWrites]
  unfold commitWrites
  by_cases hk : k ≤ x.cells.length
  · rw [if_pos hk, List.append_assoc, List.append_assoc, List.take_append_of_le_length (by omega)]
    obtain ⟨hclean, hsame⟩ := replay_logWrites_take hd k
    rw [recovered_clean hclean]
    refine ⟨?_, hsame⟩
    simp [WellHeaded, hclean]
  rw [if_neg hk]
  set e := update (replay d x.logWrites) L.head x.header with he
  have hredo : L.redo e = x.homeWrites := redo_committed
  have hwell : L.WellHeaded e := by
    rw [WellHeaded, he, update_self, x.header_targets]
    exact ⟨x.home, x.fits, x.nodup⟩
  -- past the header the writes are those of a recovery
  have hsplit : replay d ((x.logWrites ++ [(L.head, x.header)] ++ x.homeWrites ++
      [(L.head, x.clear)]).take k) =
      replay e ((L.recoverWrites e x.clear).take (k - (x.cells.length + 1))) := by
    have hpre : (x.logWrites ++ [(L.head, x.header)]).length = x.cells.length + 1 := by
      simp [hlen]
    have hk' : k = (x.cells.length + 1) + (k - (x.cells.length + 1)) := by omega
    conv_lhs => rw [hk', List.append_assoc, ← hpre, List.take_length_add_append]
    rw [replay_append, replay_append, hpre, recoverWrites, hredo]
    rfl
  obtain ⟨hsame, hw⟩ := recovered_recoverWrites hwell x.clear_targets (k - (x.cells.length + 1))
  rw [hsplit]
  refine ⟨hw, hsame.trans ?_⟩
  unfold recovered
  rw [hredo]
  apply SameHome.replay
  intro a ha
  rw [he, update_of_ne ha.1]
  have hlog := (replay_logWrites_take (x := x) hd x.logWrites.length).2 a ha
  rwa [List.take_length] at hlog

theorem replay_commitWrites (hd : L.targets (d L.head) = []) :
    L.targets (replay d x.commitWrites L.head) = [] ∧
      L.SameHome (replay d x.commitWrites) (replay d x.homeWrites) := by
  have hclean : L.targets (replay d x.commitWrites L.head) = [] := by
    rw [commitWrites, replay_append]
    simpa using x.clear_targets
  refine ⟨hclean, ?_⟩
  have hall := (recovered_commitWrites_take (x := x) hd x.commitWrites.length).2
  rw [List.take_length, recovered_clean hclean, if_neg] at hall
  · exact hall
  · simp [commitWrites, logWrites]

/-- The number of commit points among the writes `ws`. -/
def committed (L : RedoLayout A B) (ws : List (A × B)) : Nat :=
  ws.countP fun w => w.1 = L.head && !(L.targets w.2).isEmpty

theorem committed_commitWrites_take (x : Txn L) (k : Nat) :
    committed L (x.commitWrites.take k) = if k ≤ x.cells.length then 0 else 1 := by
  have hlen : x.logWrites.length = x.cells.length := by simp [logWrites]
  have hlog : ∀ w ∈ x.logWrites, ¬ (w.1 = L.head && !(L.targets w.2).isEmpty) = true := by
    intro w hw hc
    obtain ⟨i, _, hi⟩ := logWrites_slot hw
    simp [hi, L.slot_ne_head] at hc
  have hhome : ∀ w ∈ x.homeWrites, ¬ (w.1 = L.head && !(L.targets w.2).isEmpty) = true := by
    intro w hw hc
    simp [(homeWrites_home hw).1] at hc
  unfold committed commitWrites
  by_cases hk : k ≤ x.cells.length
  · rw [if_pos hk, List.append_assoc, List.append_assoc, List.take_append_of_le_length (by omega),
      List.countP_eq_zero]
    intro w hw
    exact hlog w (List.mem_of_mem_take hw)
  rw [if_neg hk]
  have hpre : (x.logWrites ++ [(L.head, x.header)]).length = x.cells.length + 1 := by simp [hlen]
  have hk' : k = (x.cells.length + 1) + (k - (x.cells.length + 1)) := by omega
  rw [hk', List.append_assoc, ← hpre, List.take_length_add_append, List.countP_append,
    List.countP_append, List.countP_eq_zero.mpr hlog]
  have hrest : ∀ w ∈ (x.homeWrites ++ [(L.head, x.clear)]).take
      (k - (x.logWrites ++ [(L.head, x.header)]).length),
      ¬ (w.1 = L.head && !(L.targets w.2).isEmpty) = true := by
    intro w hw
    rcases List.mem_append.mp (List.mem_of_mem_take hw) with hw | hw
    · exact hhome w hw
    · rw [List.mem_singleton.mp hw]
      simp [x.clear_targets]
  have hne : (L.targets x.header).isEmpty = false := by
    rw [x.header_targets]
    simpa using x.cells_ne
  rw [List.countP_eq_zero.mpr hrest]
  simp [hne]

/-- **Crash atomicity.** Cut the writes of any sequence of commits anywhere: recovery gives
the transactions whose commit point was reached, in order, and nothing of the others. -/
theorem crash_atomic (xs : List (Txn L)) (hd : L.targets (d L.head) = []) (k : Nat) :
    L.WellHeaded (replay d ((xs.flatMap commitWrites).take k)) ∧
    L.SameHome (L.recovered (replay d ((xs.flatMap commitWrites).take k)))
      (replay d ((xs.take (committed L ((xs.flatMap commitWrites).take k))).flatMap
        homeWrites)) := by
  induction xs generalizing d k with
  | nil =>
    simp only [List.flatMap_nil, List.take_nil, replay_nil, recovered_clean hd]
    refine ⟨?_, SameHome.refl d⟩
    simp [WellHeaded, hd]
  | cons x xs ih =>
    rw [List.flatMap_cons]
    by_cases hk : k ≤ x.commitWrites.length
    · rw [List.take_append_of_le_length hk, committed_commitWrites_take]
      obtain ⟨hwell, hsame⟩ := recovered_commitWrites_take hd k
      refine ⟨hwell, hsame.trans ?_⟩
      split
      · simpa using SameHome.refl d
      · simpa using SameHome.refl _
    obtain ⟨m, rfl⟩ := Nat.exists_eq_add_of_lt (Nat.lt_of_not_le hk)
    rw [Nat.add_assoc, List.take_length_add_append]
    obtain ⟨hclean, hhome⟩ := replay_commitWrites hd
    have hone : committed L x.commitWrites = 1 := by
      have := committed_commitWrites_take x x.commitWrites.length
      rw [List.take_length, if_neg] at this
      · exact this
      · simp [commitWrites, logWrites]
    have hcount : committed L (x.commitWrites ++ (xs.flatMap commitWrites).take (m + 1)) =
        committed L ((xs.flatMap commitWrites).take (m + 1)) + 1 := by
      rw [committed, List.countP_append, Nat.add_comm]
      exact congrArg _ hone
    rw [hcount, List.take_succ_cons, List.flatMap_cons, replay_append, replay_append]
    obtain ⟨hwell, hsame⟩ := ih hclean (m + 1)
    exact ⟨hwell, hsame.trans (hhome.replay _)⟩

end Txn

end RedoLayout

end Yyds.Lib
