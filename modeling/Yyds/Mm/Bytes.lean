import Yyds.Mm.View

/-! The bytes of a page, as loads and stores see them. -/
namespace Yyds.Mm

variable {p : Page} {i j : Nat}

theorem extractLsb_store (w : Word) (b : Byte) {i j : Nat} (hi : i < 8) (hj : j < 8) :
    (w &&& ~~~(0xFF#64 <<< (8 * i)) ||| b.zeroExtend 64 <<< (8 * i)).extractLsb' (8 * j) 8 =
      if j = i then b else w.extractLsb' (8 * j) 8 := by
  refine BitVec.eq_of_getLsbD_eq fun k hk => ?_
  have hFF : ∀ n, (0xFF#64).getLsbD n = decide (n < 8) := by
    intro n
    by_cases hn : n < 64
    · have : ∀ m : Fin 64, (0xFF#64).getLsbD m = decide (m.val < 8) := by decide
      exact this ⟨n, hn⟩
    · rw [BitVec.getLsbD_of_ge _ _ (by omega)]
      simp
      omega
  simp only [BitVec.getLsbD_extractLsb', BitVec.getLsbD_or, BitVec.getLsbD_and, BitVec.getLsbD_not,
    BitVec.getLsbD_shiftLeft, hFF, hk, show 8 * j + k < 64 by omega, decide_true, Bool.true_and]
  by_cases hji : j = i
  · subst hji
    simp [show 8 * j + k - 8 * j = k by omega, hk, show k < 64 by omega,
      show ¬ 8 * j + k < 8 * j by omega]
  · rw [if_neg hji]
    by_cases hlt : 8 * j + k < 8 * i
    · simp [hlt, hk]
    · have hge : ¬ 8 * j + k - 8 * i < 8 := by omega
      have hz : b.getLsbD (8 * j + k - 8 * i) = false := BitVec.getLsbD_of_ge _ _ (by omega)
      simp [hge, hz, hk]

theorem getByte_setByte (p : Page) (b : Byte) (hi : i < PGSIZE) (hj : j < PGSIZE) :
    getByte (setByte p i b) j = if j = i then b else getByte p j := by
  have hpg : PGSIZE = 4096 := rfl
  by_cases hw : j / 8 = i / 8
  · rw [getByte, setByte, hw, Function.update_self,
      extractLsb_store _ _ (Nat.mod_lt _ (by decide)) (Nat.mod_lt _ (by decide)), getByte, hw]
    have hiff : j % 8 = i % 8 ↔ j = i := by omega
    simp only [hiff]
  · have hne : Fin.ofNat 512 (j / 8) ≠ Fin.ofNat 512 (i / 8) := by
      rw [Ne, Fin.ext_iff, Fin.val_ofNat, Fin.val_ofNat, Nat.mod_eq_of_lt (by omega),
        Nat.mod_eq_of_lt (by omega)]
      exact hw
    rw [getByte, setByte, Function.update_of_ne hne, if_neg (fun h => hw (by rw [h]))]
    rfl

theorem getByte_setBytes (bs : List Byte) (h : i + bs.length ≤ PGSIZE) (hj : j < PGSIZE) :
    getByte (setBytes p i bs) j =
      if i ≤ j then (bs[j - i]?).getD (getByte p j) else getByte p j := by
  induction bs generalizing p i with
  | nil => simp [setBytes]
  | cons b bs ih =>
    rw [List.length_cons] at h
    rw [setBytes, ih (by omega), getByte_setByte p b (by omega) hj]
    rcases Nat.lt_trichotomy j i with hlt | rfl | hgt
    · rw [if_neg (by omega), if_neg (by omega), if_neg (by omega)]
    · rw [if_neg (by omega), if_pos rfl, if_pos (Nat.le_refl _), Nat.sub_self]
      rfl
    · have hsub : j - i = j - (i + 1) + 1 := by omega
      rw [if_pos (by omega), if_neg (by omega), if_pos (by omega), hsub, List.getElem?_cons_succ]

end Yyds.Mm
