import Mathlib.Algebra.Ring.Nat
import Mathlib.Logic.Function.Basic
/-!
# Bytes — memory as words and as bytes

The bytes of a little-endian memory of 32-bit words: byte `a` is byte `a % 4` of word `a / 4`.
-/

/-- A byte of a word. -/
def getByte (w : BitVec 32) (j : Nat) : BitVec 8 := (w >>> (8 * j)).setWidth 8

/-- The word with one byte replaced. -/
def setByte (w : BitVec 32) (j : Nat) (b : BitVec 8) : BitVec 32 :=
  (w &&& ~~~((0xFF : BitVec 32) <<< (8 * j))) ||| (b.setWidth 32 <<< (8 * j))

/-- Byte `a` of the memory. -/
def byteAt (m : Nat → BitVec 32) (a : Nat) : BitVec 8 := getByte (m (a / 4)) (a % 4)

/-- The memory with byte `a` replaced. -/
def putByte (m : Nat → BitVec 32) (a : Nat) (b : BitVec 8) : Nat → BitVec 32 :=
  Function.update m (a / 4) (setByte (m (a / 4)) (a % 4) b)

theorem ones_bit : ∀ i : Fin 32, (0xFF : BitVec 32)[i] = decide (i.val < 8) := by decide

theorem getByte_setByte (w : BitVec 32) {i j : Nat} (hi : i < 4) (hj : j < 4) (b : BitVec 8) :
    getByte (setByte w j b) i = if i = j then b else getByte w i := by
  apply BitVec.eq_of_getLsbD_eq
  intro n hn
  have hones : ∀ m, (0xFF : BitVec 32).getLsbD m = decide (m < 8) := by
    intro m
    by_cases hm : m < 32
    · have h := ones_bit ⟨m, hm⟩
      rw [Fin.getElem_fin] at h
      rw [BitVec.getLsbD_eq_getElem hm]
      exact h
    · rw [BitVec.getLsbD_of_ge _ _ (by omega), decide_eq_false (by omega)]
  have hleft : (getByte (setByte w j b) i).getLsbD n = (setByte w j b).getLsbD (8 * i + n) := by
    unfold getByte
    rw [BitVec.getLsbD_setWidth, BitVec.getLsbD_ushiftRight, decide_eq_true hn, Bool.true_and]
  have hlt : 8 * i + n < 32 := by omega
  have hset : (setByte w j b).getLsbD (8 * i + n) =
      (w.getLsbD (8 * i + n) && !(decide (¬8 * i + n < 8 * j) && decide (8 * i + n - 8 * j < 8)) ||
        (decide (¬8 * i + n < 8 * j) && b.getLsbD (8 * i + n - 8 * j))) := by
    unfold setByte
    rw [BitVec.getLsbD_or, BitVec.getLsbD_and, BitVec.getLsbD_not, BitVec.getLsbD_shiftLeft,
      BitVec.getLsbD_shiftLeft, hones,
      BitVec.getLsbD_setWidth]
    simp only [hlt, decide_true, Bool.true_and, decide_not]
    by_cases h8 : 8 * i + n < 8 * j
    · simp [h8]
    · have h32 : 8 * i + n - 8 * j < 32 := by omega
      simp [h8, h32]
  rw [hleft, hset]
  by_cases hij : i = j
  · subst hij
    have h1 : ¬8 * i + n < 8 * i := by omega
    have h2 : 8 * i + n - 8 * i = n := by omega
    rw [if_pos rfl, decide_eq_true h1, h2, decide_eq_true hn]
    simp
  · rw [if_neg hij]
    have hout : (decide (¬8 * i + n < 8 * j) && decide (8 * i + n - 8 * j < 8)) = false := by
      by_cases h8 : 8 * i + n < 8 * j
      · simp [h8]
      · have : ¬8 * i + n - 8 * j < 8 := by omega
        simp [this]
    have hb : (decide (¬8 * i + n < 8 * j) && b.getLsbD (8 * i + n - 8 * j)) = false := by
      by_cases h8 : 8 * i + n < 8 * j
      · simp [h8]
      · rw [BitVec.getLsbD_of_ge _ _ (by omega), Bool.and_false]
    rw [hout, hb]
    unfold getByte
    rw [BitVec.getLsbD_setWidth, BitVec.getLsbD_ushiftRight, decide_eq_true hn]
    simp

/-- **A byte is written.** -/
theorem byteAt_putByte (m : Nat → BitVec 32) (a c : Nat) (b : BitVec 8) :
    byteAt (putByte m a b) c = if c = a then b else byteAt m c := by
  unfold byteAt putByte
  rw [Function.update_apply]
  by_cases hw : c / 4 = a / 4
  · rw [if_pos hw, getByte_setByte _ (Nat.mod_lt _ (by decide)) (Nat.mod_lt _ (by decide)), hw]
    by_cases hca : c = a
    · rw [if_pos hca, hca, if_pos rfl]
    · rw [if_neg hca, if_neg (by omega)]
  · rw [if_neg hw, if_neg (by omega)]

theorem eq_of_getByte {w w' : BitVec 32} (h : ∀ j < 4, getByte w j = getByte w' j) : w = w' := by
  apply BitVec.eq_of_getLsbD_eq
  intro n hn
  have hbyte : ∀ v : BitVec 32, v.getLsbD n = (getByte v (n / 8)).getLsbD (n % 8) := by
    intro v
    unfold getByte
    rw [BitVec.getLsbD_setWidth, BitVec.getLsbD_ushiftRight, decide_eq_true (Nat.mod_lt _ (by decide)), Bool.true_and,
      Nat.div_add_mod]
  rw [hbyte w, hbyte w', h (n / 8) (by omega)]

theorem toNat_and_not_mask {w m : BitVec 32} {k : Nat} (hm : m.toNat = 2 ^ k - 1) :
    (w &&& ~~~m).toNat = w.toNat / 2 ^ k * 2 ^ k := by
  have hsum : w = (w &&& m) + (w &&& ~~~m) := by
    have hdisj : (w &&& m) &&& (w &&& ~~~m) = 0#32 := by
      ext i hi
      simp only [BitVec.getElem_and, BitVec.getElem_not, BitVec.getElem_zero]
      cases m[i] <;> simp
    rw [BitVec.add_eq_or_of_and_eq_zero _ _ hdisj]
    ext i hi
    simp only [BitVec.getElem_or, BitVec.getElem_and, BitVec.getElem_not]
    cases m[i] <;> simp
  have hlow : (w &&& m).toNat = w.toNat % 2 ^ k := by
    rw [BitVec.toNat_and, hm, Nat.and_two_pow_sub_one_eq_mod]
  have hle : (w &&& ~~~m).toNat ≤ w.toNat := by
    rw [BitVec.toNat_and]
    exact Nat.and_le_left
  have hnat : w.toNat = ((w &&& m).toNat + (w &&& ~~~m).toNat) % 2 ^ 32 := by
    have h := congrArg BitVec.toNat hsum
    rwa [BitVec.toNat_add] at h
  have hdm := Nat.div_add_mod w.toNat (2 ^ k)
  have hw := w.isLt
  have hmod : w.toNat % 2 ^ k ≤ w.toNat := Nat.mod_le _ _
  rw [hlow] at hnat
  rw [Nat.mul_comm]
  omega
