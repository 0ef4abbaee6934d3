import Mos.Lib.Bytes
import Mos.Lib.While
/-!
# Memcpy — copying and filling memory (`lib/string.c`)

`memcpy` and `memset` go byte by byte up to a word boundary, then word by word, then byte by byte again.  The memory
is a memory of words whose bytes are read and written alone; an access to a word at an address that is no multiple of
four is an exception, `none`.  Both leave what byte after byte leaves, from the lowest address up.
-/
namespace Mos.Libc

/-- A memory of words. -/
abbrev Ram := Nat → BitVec 32

/-- `*(uint32_t *)a` -/
def loadWord (m : Ram) (a : BitVec 32) : Option (BitVec 32) := if a.toNat % 4 = 0 then some (m (a.toNat / 4)) else none

/-- `*(uint32_t *)a = w` -/
def storeWord (m : Ram) (a w : BitVec 32) : Option Ram :=
  if a.toNat % 4 = 0 then some (Function.update m (a.toNat / 4) w) else none

/-! ## The loops -/

section Loops

variable {S : Type}

/-- `while (dst < max) byte` -/
def eachByte (dst : S → BitVec 32) (max : BitVec 32) (byte : S → Option S) : Nat → S → Option S :=
  whileDo (fun s => decide (dst s < max)) byte

/-- `while ((dst & 3) && dst < max) byte; while (dst + 4 <= max) word; while (dst < max) byte` -/
def inWords (dst : S → BitVec 32) (max : BitVec 32) (byte word : S → Option S) (fuel : Nat) (s : S) : Option S :=
  (whileDo (fun s => decide (dst s &&& 3 ≠ 0) && decide (dst s < max)) byte fuel s).bind fun s₁ =>
  (whileDo (fun s => decide (dst s + 4 ≤ max)) word fuel s₁).bind fun s₂ => eachByte dst max byte fuel s₂

end Loops

/-! ## `memcpy` -/

/-- The memory, `dst` and `src`. -/
structure Copy where
  mem : Ram
  dst : BitVec 32
  src : BitVec 32

/-- `*(char *)dst++ = *(char *)src++` -/
def copyByte (s : Copy) : Option Copy :=
  some ⟨putByte s.mem s.dst.toNat (byteAt s.mem s.src.toNat), s.dst + 1, s.src + 1⟩

/-- `*(uint32_t *)dst = *(uint32_t *)src; dst += 4; src += 4` -/
def copyWord (s : Copy) : Option Copy :=
  (loadWord s.mem s.src).bind fun w => (storeWord s.mem s.dst w).map fun m => ⟨m, s.dst + 4, s.src + 4⟩

/-- `memcpy`, each loop with at most `fuel` tests of its condition. -/
def memcpy (fuel : Nat) (m : Ram) (dst src n : BitVec 32) : Option (Ram × BitVec 32) :=
  let max := dst + n
  (if src &&& 3 ≠ dst &&& 3 then eachByte Copy.dst max copyByte fuel ⟨m, dst, src⟩
  else inWords Copy.dst max copyByte copyWord fuel ⟨m, dst, src⟩).map fun s => (s.mem, dst)

/-! ## `memset` -/

/-- The memory and `dst`. -/
structure Fill where
  mem : Ram
  dst : BitVec 32

/-- `*(u_char *)dst++ = byte` -/
def fillByte (byte : BitVec 8) (s : Fill) : Option Fill := some ⟨putByte s.mem s.dst.toNat byte, s.dst + 1⟩

/-- `*(uint32_t *)dst = word; dst += 4` -/
def fillWord (word : BitVec 32) (s : Fill) : Option Fill := (storeWord s.mem s.dst word).map fun m => ⟨m, s.dst + 4⟩

/-- `byte | byte << 8 | byte << 16 | byte << 24` -/
def wordOf (byte : BitVec 8) : BitVec 32 :=
  let w := byte.setWidth 32
  w ||| w <<< 8 ||| w <<< 16 ||| w <<< 24

/-- `memset`, each loop with at most `fuel` tests of its condition. -/
def memset (fuel : Nat) (m : Ram) (dst c n : BitVec 32) : Option (Ram × BitVec 32) :=
  let byte := (c &&& 0xff).setWidth 8
  (inWords Fill.dst (dst + n) (fillByte byte) (fillWord (wordOf byte)) fuel ⟨m, dst⟩).map fun s => (s.mem, dst)

/-! ## What they are for -/

/-- `n` bytes are copied one by one, from the lowest address up. -/
def bytewise (m : Ram) (dst src : Nat) : Nat → Ram
  | 0 => m
  | n + 1 => let m' := bytewise m dst src n; putByte m' (dst + n) (byteAt m' (src + n))

/-- `n` bytes are set one by one. -/
def filled (b : BitVec 8) (m : Ram) (dst : Nat) : Nat → Ram
  | 0 => m
  | n + 1 => putByte (filled b m dst n) (dst + n) b

/-! ## Bytes -/

theorem ext_bytes {m m' : Ram} (h : ∀ a, byteAt m a = byteAt m' a) : m = m' := by
  funext i
  refine eq_of_getByte fun j hj => ?_
  have hb := h (4 * i + j)
  unfold byteAt at hb
  rwa [show (4 * i + j) / 4 = i by omega, show (4 * i + j) % 4 = j by omega] at hb

theorem toNat_and_three (w : BitVec 32) : (w &&& 3).toNat = w.toNat % 4 := by
  rw [BitVec.toNat_and]
  exact Nat.and_two_pow_sub_one_eq_mod _ 2

theorem toNat_add_ofNat {w : BitVec 32} {k : Nat} (h : w.toNat + k < 2 ^ 32) :
    (w + BitVec.ofNat 32 k).toNat = w.toNat + k := by
  rw [BitVec.toNat_add, BitVec.toNat_ofNat]
  omega

theorem getByte_wordOf (b : BitVec 8) : ∀ j < 4, getByte (wordOf b) j = b := by
  intro j hj
  apply BitVec.eq_of_getLsbD_eq
  intro n hn
  -- the byte of each of the four terms that has bit `8 * j + n`
  have hpart : ∀ k, (!decide (8 * j + n < 8 * k) &&
    (decide (8 * j + n - 8 * k < 32) && b.getLsbD (8 * j + n - 8 * k))) =
      (decide (j = k) && b.getLsbD n) := by
    intro k
    rcases Nat.lt_trichotomy j k with hjk | rfl | hjk
    · rw [decide_eq_true (show 8 * j + n < 8 * k by omega), decide_eq_false (show ¬j = k by omega)]
      rfl
    · rw [decide_eq_false (show ¬8 * j + n < 8 * j by omega), decide_eq_true rfl, Nat.add_sub_cancel_left,
        decide_eq_true (show n < 32 by omega)]
      rfl
    · rw [BitVec.getLsbD_of_ge b _ (show 8 ≤ 8 * j + n - 8 * k by omega),
        decide_eq_false (show ¬j = k by omega), Bool.and_false,
        Bool.and_false, Bool.false_and]
  have h32 : 8 * j + n < 32 := by omega
  have hlow := hpart 0
  have hthree : j = 0 ∨ j = 1 ∨ j = 2 ∨ j = 3 := by omega
  simp only [Nat.mul_zero, Nat.not_lt_zero, Nat.sub_zero, h32, decide_true, decide_false, Bool.not_false,
    Bool.true_and] at hlow
  unfold getByte wordOf
  rw [BitVec.getLsbD_setWidth, BitVec.getLsbD_ushiftRight, decide_eq_true hn, Bool.true_and]
  simp only [BitVec.getLsbD_or, BitVec.getLsbD_shiftLeft, BitVec.getLsbD_setWidth, h32, decide_true, Bool.true_and]
  rw [hlow, hpart 1, hpart 2, hpart 3]
  obtain rfl | rfl | rfl | rfl := hthree <;> simp

theorem byteAt_filled {b : BitVec 8} {m : Ram} {dst : Nat} : ∀ {n : Nat} (a : Nat),
    byteAt (filled b m dst n) a = if dst ≤ a ∧ a < dst + n then b else byteAt m a
  | 0, a => by
    rw [if_neg (by omega)]
    rfl
  | n + 1, a => by
    rw [filled, byteAt_putByte, byteAt_filled]
    by_cases ha : a = dst + n
    · rw [if_pos ha, if_pos (by omega)]
    · rw [if_neg ha]
      by_cases hin : dst ≤ a ∧ a < dst + n
      · rw [if_pos hin, if_pos (by omega)]
      · rw [if_neg hin, if_neg (by omega)]

theorem byteAt_bytewise_outside {m : Ram} {dst src a : Nat} : ∀ {n : Nat}, a < dst ∨ dst + n ≤ a →
    byteAt (bytewise m dst src n) a = byteAt m a
  | 0, _ => rfl
  | n + 1, h => by
    rw [bytewise, byteAt_putByte, if_neg (by omega)]
    exact byteAt_bytewise_outside (by omega)

theorem bytewise_add {m : Ram} {dst src a : Nat} :
    ∀ b, bytewise m dst src (a + b) = bytewise (bytewise m dst src a) (dst + a) (src + a) b
  | 0 => rfl
  | b + 1 => by
    rw [← Nat.add_assoc, bytewise, bytewise_add b, ← Nat.add_assoc, ← Nat.add_assoc]
    rfl

theorem filled_add {c : BitVec 8} {m : Ram} {dst a : Nat} :
    ∀ b, filled c m dst (a + b) = filled c (filled c m dst a) (dst + a) b
  | 0 => rfl
  | b + 1 => by
    rw [← Nat.add_assoc, filled, filled_add b, ← Nat.add_assoc]
    rfl

/-- **A word is copied**: none of its bytes is one that the copy of another has replaced, for two words that overlap are
the same. -/
theorem word_bytewise (m : Ram) {dst src : Nat} (hd : dst % 4 = 0) (hs : src % 4 = 0) :
    Function.update m (dst / 4) (m (src / 4)) = bytewise m dst src 4 := by
  have hread : ∀ j < 4, byteAt (bytewise m dst src j) (src + j) = byteAt m (src + j) := by
    intro j hj
    by_cases hsd : src < dst + 4 ∧ dst < src + 4
    · exact byteAt_bytewise_outside (.inr (by omega))
    · exact byteAt_bytewise_outside (by omega)
  refine ext_bytes fun a => ?_
  have hleft : byteAt (Function.update m (dst / 4) (m (src / 4))) a =
      if a / 4 = dst / 4 then byteAt m (src + a % 4) else byteAt m a := by
    unfold byteAt
    rw [Function.update_apply]
    split
    · rw [show (src + a % 4) / 4 = src / 4 by omega, show (src + a % 4) % 4 = a % 4 by omega]
    · rfl
  rw [hleft]
  by_cases hin : a / 4 = dst / 4
  · rw [if_pos hin]
    obtain ⟨j, hj, rfl⟩ : ∃ j < 4, a = dst + j := ⟨a % 4, Nat.mod_lt _ (by decide), by omega⟩
    obtain ⟨r, hr⟩ : ∃ r, 4 = j + 1 + r := ⟨3 - j, by omega⟩
    -- the bytes after it are elsewhere
    have hright : byteAt (bytewise m dst src 4) (dst + j) = byteAt (bytewise m dst src j) (src + j) := by
      rw [hr, bytewise_add, byteAt_bytewise_outside (by omega), bytewise, byteAt_putByte, if_pos rfl]
    rw [hright, hread j hj, show (dst + j) % 4 = j by omega]
  · rw [if_neg hin, byteAt_bytewise_outside (by omega)]

theorem word_filled (c : BitVec 8) (m : Ram) {dst : Nat} (hd : dst % 4 = 0) :
    Function.update m (dst / 4) (wordOf c) = filled c m dst 4 := by
  refine ext_bytes fun a => ?_
  rw [byteAt_filled]
  unfold byteAt
  rw [Function.update_apply]
  by_cases hin : a / 4 = dst / 4
  · rw [if_pos hin, if_pos (by omega)]
    exact getByte_wordOf c _ (Nat.mod_lt _ (by decide))
  · rw [if_neg hin, if_neg (by omega)]

/-! ## The loops end -/

section Loops

variable {S : Type} {dst : S → BitVec 32} {max : BitVec 32} {byte word : S → Option S} {d n fuel : Nat} {t : Nat → S}

/-- `t k` is the state after `k` bytes, which byte steps and word steps lead to. -/
structure Bytewise (dst : S → BitVec 32) (byte word : S → Option S) (d n : Nat) (t : Nat → S) : Prop where
  dst : ∀ k ≤ n, (dst (t k)).toNat = d + k
  byte : ∀ k < n, byte (t k) = some (t (k + 1))
  word : ∀ k, k + 4 ≤ n → (d + k) % 4 = 0 → word (t k) = some (t (k + 4))

theorem eachByte_spec (hdst : ∀ k ≤ n, (dst (t k)).toNat = d + k) (hbyte : ∀ k < n, byte (t k) = some (t (k + 1)))
    (hmax : max.toNat = d + n) {j : Nat} (hj : j ≤ n) (hf : n < fuel) :
    eachByte dst max byte fuel (t j) = some (t n) := by
  have hend := whileDo_trace (fun s => decide (dst s < max)) byte fuel (fun i => t (j + i)) (k := n - j)
    (fun i hi => ⟨decide_eq_true (by rw [BitVec.lt_def, hdst _ (by omega), hmax]; omega), hbyte (j + i) (by omega)⟩)
    (decide_eq_false (by rw [BitVec.lt_def, hdst _ (by omega), hmax]; omega)) (by omega)
  rwa [Nat.add_sub_cancel' hj] at hend

theorem inWords_spec (h : Bytewise dst byte word d n t) (hmax : max.toNat = d + n) (hfit : d + n + 4 < 2 ^ 32)
    (hf : n < fuel) :
    inWords dst max byte word fuel (t 0) = some (t n) := by
  -- the first byte on a word boundary, or the end
  obtain ⟨p, hp⟩ : ∃ p, p = min n ((4 - d % 4) % 4) := ⟨_, rfl⟩
  have hfirst : whileDo (fun s => decide (dst s &&& 3 ≠ 0) && decide (dst s < max)) byte fuel (t 0) = some (t p) := by
    refine whileDo_trace _ _ _ t (fun i hi => ⟨?_, h.byte i (by omega)⟩) ?_ (by omega)
    · have hd := h.dst i (by omega)
      rw [Bool.and_eq_true, decide_eq_true_eq, decide_eq_true_eq, BitVec.lt_def, hd, hmax]
      refine ⟨fun h0 => ?_, by omega⟩
      have hm := toNat_and_three (dst (t i))
      rw [h0, hd] at hm
      have : (0 : BitVec 32).toNat = 0 := rfl
      omega
    · have hd := h.dst p (by omega)
      rw [Bool.and_eq_false_iff, decide_eq_false_iff_not, decide_eq_false_iff_not, BitVec.lt_def, hd, hmax]
      by_cases hpn : p < n
      · refine .inl fun hne => hne ?_
        apply BitVec.eq_of_toNat_eq
        rw [toNat_and_three, hd]
        show _ = 0
        omega
      · exact .inr (by omega)
  obtain ⟨w, hw⟩ : ∃ w, w = (n - p) / 4 := ⟨_, rfl⟩
  have hnext : ∀ k ≤ n, (dst (t k) + 4).toNat = d + k + 4 := by
    intro k hk
    have hd := h.dst k hk
    have h4 := toNat_add_ofNat (w := dst (t k)) (k := 4) (by omega)
    rw [hd] at h4
    exact h4
  have hsecond : whileDo (fun s => decide (dst s + 4 ≤ max)) word fuel (t p) = some (t (p + 4 * w)) := by
    refine whileDo_trace _ _ _ (fun i => t (p + 4 * i)) (fun i hi => ⟨?_, h.word _ (by omega) (by omega)⟩) ?_ (by omega)
    · rw [decide_eq_true_eq, BitVec.le_def, hnext _ (by omega), hmax]
      omega
    · rw [decide_eq_false_iff_not, BitVec.le_def, hnext _ (by omega), hmax]
      omega
  unfold inWords
  rw [hfirst, Option.bind_some, hsecond, Option.bind_some]
  exact eachByte_spec h.dst h.byte hmax (by omega) hf

end Loops

/-! ## Both functions -/

/-- The copy after `k` bytes. -/
def Copy.after (m : Ram) (dst src : BitVec 32) (k : Nat) : Copy :=
  ⟨bytewise m dst.toNat src.toNat k, dst + BitVec.ofNat 32 k, src + BitVec.ofNat 32 k⟩

/-- The filling after `k` bytes. -/
def Fill.after (b : BitVec 8) (m : Ram) (dst : BitVec 32) (k : Nat) : Fill :=
  ⟨filled b m dst.toNat k, dst + BitVec.ofNat 32 k⟩

theorem add_ofNat_add (w : BitVec 32) (j k : Nat) :
    w + BitVec.ofNat 32 j + BitVec.ofNat 32 k = w + BitVec.ofNat 32 (j + k) := by
  rw [BitVec.add_assoc, ← BitVec.ofNat_add]

theorem copyByte_after {m : Ram} {dst src : BitVec 32} {k : Nat} (hd : dst.toNat + k < 2 ^ 32)
    (hs : src.toNat + k < 2 ^ 32) :
    copyByte (Copy.after m dst src k) = some (Copy.after m dst src (k + 1)) := by
  unfold copyByte Copy.after
  rw [toNat_add_ofNat hd, toNat_add_ofNat hs, bytewise, ← add_ofNat_add dst, ← add_ofNat_add src]
  rfl

theorem copyWord_after {m : Ram} {dst src : BitVec 32} {k : Nat} (hd : dst.toNat + k < 2 ^ 32)
    (hs : src.toNat + k < 2 ^ 32) (hd4 : (dst.toNat + k) % 4 = 0) (hs4 : (src.toNat + k) % 4 = 0) :
    copyWord (Copy.after m dst src k) = some (Copy.after m dst src (k + 4)) := by
  have hword := word_bytewise (bytewise m dst.toNat src.toNat k) hd4 hs4
  unfold copyWord Copy.after loadWord storeWord
  rw [toNat_add_ofNat hd, toNat_add_ofNat hs, if_pos hs4, Option.bind_some, if_pos hd4, Option.map_some,
    bytewise_add, ← hword,
    ← add_ofNat_add dst, ← add_ofNat_add src]
  rfl

theorem fillByte_after {b : BitVec 8} {m : Ram} {dst : BitVec 32} {k : Nat} (hd : dst.toNat + k < 2 ^ 32) :
    fillByte b (Fill.after b m dst k) = some (Fill.after b m dst (k + 1)) := by
  unfold fillByte Fill.after
  rw [toNat_add_ofNat hd, filled, ← add_ofNat_add dst]
  rfl

theorem fillWord_after {b : BitVec 8} {m : Ram} {dst : BitVec 32} {k : Nat} (hd : dst.toNat + k < 2 ^ 32)
    (hd4 : (dst.toNat + k) % 4 = 0) :
    fillWord (wordOf b) (Fill.after b m dst k) = some (Fill.after b m dst (k + 4)) := by
  have hword := word_filled b (filled b m dst.toNat k) hd4
  unfold fillWord Fill.after storeWord
  rw [toNat_add_ofNat hd, if_pos hd4, Option.map_some, filled_add, ← hword, ← add_ofNat_add dst]
  rfl

/-- **`memcpy` copies byte by byte.** -/
theorem memcpy_spec {m : Ram} {dst src n : BitVec 32} {fuel : Nat} (hd : dst.toNat + n.toNat + 4 < 2 ^ 32)
    (hs : src.toNat + n.toNat + 4 < 2 ^ 32) (hf : n.toNat < fuel) :
    memcpy fuel m dst src n = some (bytewise m dst.toNat src.toNat n.toNat, dst) := by
  have hmax : (dst + n).toNat = dst.toNat + n.toNat := by
    rw [BitVec.toNat_add]
    omega
  have hdst : ∀ k ≤ n.toNat, (Copy.after m dst src k).dst.toNat = dst.toNat + k :=
    fun k hk => toNat_add_ofNat (by omega)
  have hbyte : ∀ k < n.toNat, copyByte (Copy.after m dst src k) = some (Copy.after m dst src (k + 1)) :=
    fun k hk => copyByte_after (by omega) (by omega)
  have hstart : (⟨m, dst, src⟩ : Copy) = Copy.after m dst src 0 := by
    unfold Copy.after
    rw [BitVec.add_zero, BitVec.add_zero]
    rfl
  unfold memcpy
  simp only [hstart]
  split
  · rw [eachByte_spec hdst hbyte hmax (Nat.zero_le _) hf]
    rfl
  · rename_i hsame
    have hmod := congrArg BitVec.toNat (not_not.1 hsame)
    rw [toNat_and_three, toNat_and_three] at hmod
    rw [inWords_spec ⟨hdst, hbyte, fun k hk h4 => copyWord_after (by omega) (by omega) h4 (by omega)⟩ hmax hd hf]
    rfl

/-- **`memset` fills byte by byte.** -/
theorem memset_spec {m : Ram} {dst c n : BitVec 32} {fuel : Nat} (hd : dst.toNat + n.toNat + 4 < 2 ^ 32)
    (hf : n.toNat < fuel) :
    memset fuel m dst c n = some (filled ((c &&& 0xff).setWidth 8) m dst.toNat n.toNat, dst) := by
  have hmax : (dst + n).toNat = dst.toNat + n.toNat := by
    rw [BitVec.toNat_add]
    omega
  have hstart : (⟨m, dst⟩ : Fill) = Fill.after ((c &&& 0xff).setWidth 8) m dst 0 := by
    unfold Fill.after
    rw [BitVec.add_zero]
    rfl
  have hdst : ∀ k ≤ n.toNat, (Fill.after ((c &&& 0xff).setWidth 8) m dst k).dst.toNat = dst.toNat + k :=
    fun k hk => toNat_add_ofNat (by omega)
  unfold memset
  simp only [hstart]
  rw [inWords_spec ⟨hdst, fun k hk => fillByte_after (by omega),
    fun k hk h4 => fillWord_after (by omega) h4⟩ hmax hd hf]
  rfl

/-- **Words are copied and filled as bytes are**: below `0xC0000000` both functions come back, every access to a word
aligned; `memcpy` with the memory of a copy byte by byte, `memset` with the bytes of the region set, and outside of
the region nothing changes. -/
theorem memcpy_memset_bytewise (m : Ram) (dst n : BitVec 32) (fuel : Nat) (hd : dst.toNat + n.toNat ≤ 0xC0000000)
    (hf : n.toNat < fuel) :
    (∀ src : BitVec 32, src.toNat + n.toNat ≤ 0xC0000000 →
      memcpy fuel m dst src n = some (bytewise m dst.toNat src.toNat n.toNat, dst) ∧
      ∀ a, ¬(dst.toNat ≤ a ∧ a < dst.toNat + n.toNat) →
        byteAt (bytewise m dst.toNat src.toNat n.toNat) a = byteAt m a) ∧
    ∀ c : BitVec 32, ∃ m', memset fuel m dst c n = some (m', dst) ∧
      ∀ a, byteAt m' a = if dst.toNat ≤ a ∧ a < dst.toNat + n.toNat then (c &&& 0xff).setWidth 8 else byteAt m a :=
  ⟨fun _ hs => ⟨memcpy_spec (by omega) (by omega) hf, fun _ ha => byteAt_bytewise_outside (by omega)⟩,
    fun _ => ⟨_, memset_spec (by omega) hf, fun _ => byteAt_filled _⟩⟩

theorem memcpy_memset_bytewise_overlap : (∀ src : BitVec 32, src.toNat + (11 : BitVec 32).toNat ≤ 0xC0000000 →
      memcpy 12 (fun i => BitVec.ofNat 32 i) 0x1002 src 11 =
        some (bytewise (fun i => BitVec.ofNat 32 i) (0x1002 : BitVec 32).toNat src.toNat
          (11 : BitVec 32).toNat, 0x1002) ∧
      ∀ a, ¬((0x1002 : BitVec 32).toNat ≤ a ∧ a < (0x1002 : BitVec 32).toNat + (11 : BitVec 32).toNat) →
        byteAt (bytewise (fun i => BitVec.ofNat 32 i) (0x1002 : BitVec 32).toNat src.toNat (11 : BitVec 32).toNat) a =
          byteAt (fun i => BitVec.ofNat 32 i) a) ∧
    ∀ c : BitVec 32, ∃ m', memset 12 (fun i => BitVec.ofNat 32 i) 0x1002 c 11 = some (m', 0x1002) ∧
      ∀ a, byteAt m' a = if (0x1002 : BitVec 32).toNat ≤ a ∧ a < (0x1002 : BitVec 32).toNat +
        (11 : BitVec 32).toNat then
        (c &&& 0xff).setWidth 8 else byteAt (fun i => BitVec.ofNat 32 i) a :=
  memcpy_memset_bytewise _ 0x1002 11 12 (by decide) (by decide)

end Mos.Libc
