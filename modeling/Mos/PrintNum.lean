import Mathlib.Data.Nat.Digits.Lemmas
import Mos.Lib.While
/-!
# PrintNum — numbers as text (`print_num` of `lib/print.c`)

The digits are laid down in reverse, then the sign and the padding, and the buffer, or the number in it, is turned
round. A buffer is what its characters are; an access outside of it is `none`.  What it holds at first is not known.
-/
namespace Mos.Libc

/-- A buffer on the stack. -/
abbrev Buf := Nat → Char

/-- `buf[i]`, in a buffer of `size` characters. -/
def Buf.read (size : Nat) (buf : Buf) (i : Int) : Option Char := if 0 ≤ i ∧ i < size then some (buf i.toNat) else none

/-- `buf[i] = c` -/
def Buf.write (size : Nat) (buf : Buf) (i : Int) (c : Char) : Option Buf :=
  if 0 ≤ i ∧ i < size then some (Function.update buf i.toNat c) else none

/-! ## `print_num` -/

/-- The character of a digit. -/
def digitChar (upcase : Bool) (tmp : Nat) : Char :=
  if tmp ≤ 9 then Char.ofNat ('0'.toNat + tmp)
  else if upcase then Char.ofNat ('A'.toNat + tmp - 10)
  else Char.ofNat ('a'.toNat + tmp - 10)

/-- The number that is left, `p - buf`, and the buffer. -/
structure Digits where
  u : BitVec 32
  p : Int
  buf : Buf

/-- The body of the loop over the digits. -/
def putDigit (size : Nat) (base : BitVec 32) (upcase : Bool) (s : Digits) : Option Digits :=
  if base = 0 then none
  else (s.buf.write size s.p (digitChar upcase (s.u % base).toNat)).map fun buf => ⟨s.u / base, s.p + 1, buf⟩

/-- `for (; i < stop; i++) buf[i] = padc` -/
def padTo (size fuel : Nat) (padc : Char) (stop i : Int) (buf : Buf) : Option Buf :=
  (whileDo (fun s : Int × Buf => decide (s.1 < stop)) (fun s => (s.2.write size s.1 padc).map fun buf =>
    (s.1 + 1, buf)) fuel
    (i, buf)).map (·.2)

/-- `begin`, `end` and the buffer. -/
structure Turning where
  first : Int
  last : Int
  buf : Buf

/-- Two characters change places. -/
def swapEnds (size : Nat) (s : Turning) : Option Turning :=
  (s.buf.read size s.first).bind fun tmp => (s.buf.read size s.last).bind fun c =>
  (s.buf.write size s.first c).bind fun buf₁ => (buf₁.write size s.last tmp).map fun buf₂ =>
  ⟨s.first + 1, s.last - 1, buf₂⟩

/-- `print_num`, each loop with at most `fuel` tests of its condition; `junk` is what the buffer holds at first. -/
def printNum {D : Type} (fuel : Nat) (junk : Buf) (out : D → List Char → Option D) (data : D) (u base : BitVec 32)
    (negFlag : Bool) (length : Nat) (ladjust : Bool) (padc : Char) (upcase : Bool) : Option D :=
  let size := length + 70
  (putDigit size base upcase ⟨u, 0, junk⟩).bind fun s₁ =>
  (whileDo (fun s : Digits => decide (s.u ≠ 0)) (putDigit size base upcase) fuel s₁).bind fun s₂ =>
  (if negFlag then (s₂.buf.write size s₂.p '-').map fun buf => (s₂.p + 1, buf) else some (s₂.p, s₂.buf)).bind
    fun (actualLength, buf₁) =>
  let length : Int := if (length : Int) < actualLength then actualLength else length
  let padc := if ladjust then ' ' else padc
  (if negFlag ∧ ¬ladjust ∧ padc = '0' then
    (padTo size fuel padc (length - 1) (actualLength - 1) buf₁).bind fun buf => buf.write size (length - 1) '-'
  else padTo size fuel padc length actualLength buf₁).bind fun buf₂ =>
  (whileDo (fun s : Turning => decide (s.last > s.first)) (swapEnds size) fuel
    ⟨0, if ladjust then actualLength - 1 else length - 1, buf₂⟩).bind fun s₃ =>
  ((List.range length.toNat).mapM fun j : Nat => s₃.buf.read size j).bind (out data)

/-! ## What it is for -/

/-- The digits of a number, the first one first: none is left out, and none is in front that need not be. -/
def digitsOf (base u : Nat) : List Nat := if u = 0 then [0] else (Nat.digits base u).reverse

/-- The sign of a number. -/
def signOf (neg : Bool) : List Char := if neg then ['-'] else []

/-- The text of a number in a field. -/
def numText (u base : Nat) (neg : Bool) (width : Nat) (ladjust : Bool) (padc : Char) (upcase : Bool) : List Char :=
  let digits := (digitsOf base u).map (digitChar upcase)
  let pad := width - (digits.length + (signOf neg).length)
  if ladjust then signOf neg ++ digits ++ List.replicate pad ' '
  else if padc = '0' then signOf neg ++ List.replicate pad padc ++ digits
  else List.replicate pad padc ++ signOf neg ++ digits

/-- The value of a digit. -/
def digitVal (c : Char) : Nat :=
  if c ≤ '9' then c.toNat - '0'.toNat else if c ≤ 'Z' then c.toNat - 'A'.toNat + 10 else c.toNat - 'a'.toNat + 10

/-- A number is read, the first digit first. -/
def readNum (base : Nat) (cs : List Char) : Nat := cs.foldl (fun n c => n * base + digitVal c) 0

/-! ## Buffers -/

/-- The buffer starts with `l`. -/
def Buf.Starts (buf : Buf) (l : List Char) : Prop := ∀ j (hj : j < l.length), buf j = l[j]

namespace Buf

variable {size : Nat} {buf : Buf} {l r : List Char}

theorem Starts.left (h : buf.Starts (l ++ r)) : buf.Starts l := fun j hj => by
  rw [h j (by rw [List.length_append]; omega), List.getElem_append_left hj]

theorem Starts.write (h : buf.Starts l) (size : Nat) (hs : l.length < size) (c : Char) :
    ∃ buf', buf.write size l.length c = some buf' ∧ buf'.Starts (l ++ [c]) := by
  refine ⟨Function.update buf l.length c, if_pos ⟨by omega, by omega⟩, fun j hj => ?_⟩
  rw [List.length_append, List.length_singleton] at hj
  by_cases hlt : j < l.length
  · rw [Function.update_of_ne (Nat.ne_of_lt hlt), List.getElem_append_left hlt]
    exact h j hlt
  · obtain rfl : j = l.length := by omega
    rw [Function.update_self, List.getElem_concat_length rfl]

theorem read_of_lt {j : Nat} (hj : j < size) : buf.read size j = some (buf j) := if_pos ⟨by omega, by omega⟩

theorem write_of_lt {j : Nat} (hj : j < size) (c : Char) : buf.write size j c = some (Function.update buf j c) :=
  if_pos ⟨by omega, by omega⟩

theorem Starts.readAll (h : buf.Starts l) (size : Nat) (hs : l.length ≤ size) :
    ((List.range l.length).mapM fun j : Nat => buf.read size j) = some l := by
  have hgo : ∀ n ≤ l.length, ((List.range n).mapM fun j : Nat => buf.read size j) = some (l.take n) := by
    intro n
    induction n with
    | zero => exact fun _ => rfl
    | succ n ih =>
      intro hn
      rw [List.range_succ, List.mapM_append, ih (by omega), List.mapM_cons, read_of_lt (by omega),
        h n (by omega), List.take_add_one,
        List.getElem?_eq_getElem (by omega)]
      rfl
  rw [hgo _ (Nat.le_refl _), List.take_length]

end Buf

/-! ## The loops -/

section Loops

variable {buf : Buf}

/-- **The padding.** -/
theorem padTo_spec (size fuel n : Nat) (padc : Char) {l : List Char} (h : buf.Starts l) (hs : l.length + n ≤ size)
    (hf : n < fuel) :
    ∃ buf', padTo size fuel padc (l.length + n : Nat) l.length buf = some buf' ∧
    buf'.Starts (l ++ List.replicate n padc) := by
  obtain ⟨⟨i, buf'⟩, hrun, -, hstarts⟩ := whileDo_rounds (fun s : Int × Buf => decide (s.1 < (l.length + n : Nat)))
    (fun s => (s.2.write size s.1 padc).map fun buf => (s.1 + 1, buf)) (n := n)
    (fun k s => s.1 = (l.length + k : Nat) ∧ s.2.Starts (l ++ List.replicate k padc))
    (fun k hk s hI => by
      obtain ⟨i, b⟩ := s
      obtain ⟨rfl, hb⟩ := hI
      obtain ⟨b', hw, hb'⟩ := hb.write size (by rw [List.length_append, List.length_replicate]; omega) padc
      rw [List.length_append, List.length_replicate] at hw
      refine ⟨decide_eq_true (by omega), _, congrArg (Option.map _) hw, ?_, ?_⟩
      · exact (Int.natCast_succ _).symm
      · rwa [List.append_assoc, ← List.replicate_succ'] at hb')
    (fun s hI => decide_eq_false (by rw [hI.1]; omega)) fuel 0 (l.length, buf) (Nat.zero_le _)
    ⟨rfl, by rwa [List.replicate_zero, List.append_nil]⟩ (by omega)
  exact ⟨buf', by unfold padTo; rw [hrun]; rfl, hstarts⟩

/-- **The characters are turned round**: the first `m` of them, and no others. -/
theorem swapEnds_spec (size fuel m : Nat) (buf : Buf) (hs : m ≤ size) (hf : m < fuel) :
    ∃ s, whileDo (fun s : Turning => decide (s.last > s.first)) (swapEnds size) fuel ⟨0, (m : Int) - 1, buf⟩ = some s ∧
      ∀ j, s.buf j = if j < m then buf (m - 1 - j) else buf j := by
  obtain ⟨s, hrun, -, -, hturned⟩ :=
    whileDo_rounds (fun s : Turning => decide (s.last > s.first)) (swapEnds size) (n := m / 2)
    (fun k s => s.first = (k : Int) ∧ s.last = (m : Int) - 1 - k ∧
      ∀ j, s.buf j = if j < m ∧ (j < k ∨ m - 1 - j < k) then buf (m - 1 - j) else buf j)
    (fun k hk s hI => by
      obtain ⟨first, last, b⟩ := s
      obtain ⟨rfl, rfl, hb⟩ := hI
      replace hb : ∀ j, b j = _ := hb
      have hlast : (m : Int) - 1 - k = (m - 1 - k : Nat) := by omega
      refine ⟨decide_eq_true (show (m : Int) - 1 - k > k by omega), ⟨(k : Int) + 1, (m : Int) - 1 - k - 1,
        Function.update (Function.update b k (b (m - 1 - k))) (m - 1 - k) (b k)⟩, ?_, ?_, ?_, fun j => ?_⟩
      · unfold swapEnds
        simp only [hlast]
        rw [Buf.read_of_lt (by omega), Buf.read_of_lt (by omega), Option.bind_some, Option.bind_some,
          Buf.write_of_lt (by omega),
          Option.bind_some, Buf.write_of_lt (by omega)]
        rfl
      · exact (Int.natCast_succ _).symm
      · show (m : Int) - 1 - k - 1 = _
        omega
      · show Function.update (Function.update b k (b (m - 1 - k))) (m - 1 - k) (b k) j = _
        by_cases hj : j = m - 1 - k
        · rw [hj, Function.update_self, hb, if_neg (by omega), if_pos (by omega)]
          congr 1
          omega
        · rw [Function.update_of_ne hj]
          by_cases hjk : j = k
          · rw [hjk, Function.update_self, hb, if_neg (by omega), if_pos (by omega)]
          · rw [Function.update_of_ne hjk, hb]
            by_cases hin : j < m ∧ (j < k ∨ m - 1 - j < k)
            · rw [if_pos hin, if_pos (by omega)]
            · rw [if_neg hin, if_neg (by omega)])
    (fun s hI => decide_eq_false (by rw [hI.1, hI.2.1]; omega)) fuel 0 ⟨0, (m : Int) - 1, buf⟩ (Nat.zero_le _)
    ⟨rfl, (Int.sub_zero _).symm, fun j => by rw [if_neg (by omega)]⟩ (by omega)
  refine ⟨s, hrun, fun j => ?_⟩
  rw [hturned]
  by_cases hin : j < m
  · rw [if_pos hin]
    split
    · rfl
    · congr 1
      omega
  · rw [if_neg hin, if_neg (by omega)]

theorem starts_turned {buf' : Buf} {l r : List Char} (h : buf.Starts (l ++ r))
    (ht : ∀ j, buf' j = if j < l.length then buf (l.length - 1 - j) else buf j) : buf'.Starts (l.reverse ++ r) := by
  intro j hj
  rw [List.length_append, List.length_reverse] at hj
  rw [ht]
  by_cases hin : j < l.length
  · rw [if_pos hin, h _ (by rw [List.length_append]; omega), List.getElem_append_left (by omega),
      List.getElem_append_left (by rw [List.length_reverse]; exact hin), List.getElem_reverse]
  · rw [if_neg hin, h _ (by rw [List.length_append]; omega), List.getElem_append_right (by omega),
      List.getElem_append_right (by rw [List.length_reverse]; omega)]
    simp only [List.length_reverse]

end Loops

/-! ## The digits -/

section Digits

variable {b u : Nat}

theorem length_digitsOf (b u : Nat) : (digitsOf b u).length = max 1 (Nat.digits b u).length := by
  unfold digitsOf
  split
  · rename_i h
    rw [h, Nat.digits_zero]
    rfl
  · rename_i h
    have hne := List.length_pos_of_ne_nil (Nat.digits_ne_nil_iff_ne_zero (b := b).2 h)
    rw [List.length_reverse]
    omega

/-- **As many digits as the number needs.** -/
theorem length_digitsOf_le (hb : 1 < b) {k : Nat} (hk : 0 < k) : (digitsOf b u).length ≤ k ↔ u < b ^ k := by
  rw [length_digitsOf, ← Nat.digits_length_le_iff hb]
  omega

theorem reverse_digitsOf (hb : 1 < b) :
    (digitsOf b u).reverse = (List.range (digitsOf b u).length).map fun i => u / b ^ i % b := by
  rw [length_digitsOf]
  unfold digitsOf
  split
  · rename_i h
    subst h
    rw [Nat.digits_zero]
    simp
  · rename_i h
    have hpos := List.length_pos_of_ne_nil (Nat.digits_ne_nil_iff_ne_zero (b := b).2 h)
    rw [List.reverse_reverse, show max 1 (Nat.digits b u).length = (Nat.digits b u).length by omega]
    refine List.ext_getElem (by rw [List.length_map, List.length_range]) fun i h₁ h₂ => ?_
    rw [List.getElem_map, List.getElem_range, ← Nat.getD_digits u i hb, List.getD_eq_getElem?_getD,
      List.getElem?_eq_getElem h₁,
      Option.getD_some]

theorem mem_digitsOf (hb : 1 < b) {d : Nat} (hd : d ∈ digitsOf b u) : d < b := by
  unfold digitsOf at hd
  split at hd
  · rw [List.mem_singleton.1 hd]
    omega
  · exact Nat.digits_lt_base hb (List.mem_reverse.1 hd)

theorem digitVal_digitChar (upcase : Bool) : ∀ d < 16, digitVal (digitChar upcase d) = d := by
  cases upcase <;> decide

/-- **The digits are read back.** -/
theorem readNum_digitsOf (hb : 1 < b) (h16 : b ≤ 16) (upcase : Bool) :
    readNum b ((digitsOf b u).map (digitChar upcase)) = u := by
  have hvals : ∀ (ds : List Nat) (n : Nat), (∀ d ∈ ds, d < b) →
      (ds.map (digitChar upcase)).foldl (fun n c => n * b + digitVal c) n = ds.foldl (fun n d => n * b + d) n := by
    intro ds
    induction ds with
    | nil => exact fun _ _ => rfl
    | cons d ds ih =>
      intro n hds
      have hd := hds d List.mem_cons_self
      rw [List.map_cons, List.foldl_cons, List.foldl_cons, digitVal_digitChar upcase d (by omega)]
      exact ih _ fun x hx => hds x (List.mem_cons_of_mem _ hx)
  unfold readNum
  rw [hvals _ _ fun d hd => mem_digitsOf hb hd]
  unfold digitsOf
  split
  · rename_i h
    rw [h]
    simp
  · have hfold := Nat.ofDigits_eq_foldr b (Nat.digits b u)
    rw [Nat.ofDigits_digits] at hfold
    rw [List.foldl_reverse]
    refine Eq.trans ?_ hfold.symm
    congr 1
    funext d n
    rw [Nat.mul_comm, Nat.add_comm]
    rfl

/-- The digits laid down by `k` rounds. -/
def lowDigits (b u : Nat) (upcase : Bool) (k : Nat) : List Char :=
  (List.range k).map fun i => digitChar upcase (u / b ^ i % b)

theorem length_lowDigits (b u : Nat) (upcase : Bool) (k : Nat) : (lowDigits b u upcase k).length = k := by
  unfold lowDigits
  rw [List.length_map, List.length_range]

/-- The state of the loop after `k` rounds. -/
def DigitsAfter (b u : Nat) (upcase : Bool) (k : Nat) (s : Digits) : Prop :=
  s.u.toNat = u / b ^ k ∧ s.p = k ∧ s.buf.Starts (lowDigits b u upcase k)

theorem putDigit_after (size : Nat) {base u : BitVec 32} {upcase : Bool} {k : Nat} {s : Digits} (hb : 1 < base.toNat)
    (hk : k < size) (h : DigitsAfter base.toNat u.toNat upcase k s) :
    ∃ s', putDigit size base upcase s = some s' ∧ DigitsAfter base.toNat u.toNat upcase (k + 1) s' := by
  obtain ⟨v, p, buf⟩ := s
  obtain ⟨hv, hp, hbuf⟩ := h
  replace hv : v.toNat = _ := hv
  replace hp : p = (k : Int) := hp
  have hbase : ¬base = 0 := by
    rintro rfl
    exact absurd hb (by decide)
  obtain ⟨buf', hw, hbuf'⟩ := hbuf.write size (by rw [length_lowDigits]; exact hk) (digitChar upcase (v % base).toNat)
  rw [length_lowDigits, ← hp] at hw
  refine ⟨⟨v / base, p + 1, buf'⟩, ?_, ?_, ?_, ?_⟩
  · unfold putDigit
    rw [if_neg hbase, hw]
    rfl
  · show (v / base).toNat = _
    rw [BitVec.toNat_udiv, hv, Nat.div_div_eq_div_mul, ← Nat.pow_succ]
  · show p + 1 = _
    omega
  · have hlow : lowDigits base.toNat u.toNat upcase (k + 1) =
        lowDigits base.toNat u.toNat upcase k ++ [digitChar upcase (v % base).toNat] := by
      unfold lowDigits
      rw [List.range_succ, List.map_append, List.map_singleton, BitVec.toNat_umod, hv]
    rwa [hlow]

/-- **The digits are laid down**, the last one first. -/
theorem digits_spec (size fuel : Nat) (base u : BitVec 32) (junk : Buf) (upcase : Bool) (hb : 1 < base.toNat)
    (hs : 33 ≤ size) (hf : 33 < fuel) : ∃ s, ((putDigit size base upcase ⟨u, 0, junk⟩).bind
        (whileDo (fun s : Digits => decide (s.u ≠ 0)) (putDigit size base upcase) fuel)) = some s ∧
      s.p = (digitsOf base.toNat u.toNat).length ∧
      s.buf.Starts ((digitsOf base.toNat u.toNat).map (digitChar upcase)).reverse ∧
        (digitsOf base.toNat u.toNat).length ≤ 32 := by
  obtain ⟨n, hn⟩ : ∃ n, (digitsOf base.toNat u.toNat).length = n := ⟨_, rfl⟩
  have hn1 : 1 ≤ n := by
    rw [← hn, length_digitsOf]
    exact Nat.le_max_left _ _
  have hn32 : n ≤ 32 := by
    rw [← hn, length_digitsOf_le hb (by decide)]
    exact Nat.lt_of_lt_of_le u.isLt (Nat.pow_le_pow_left hb 32)
  have hzero : DigitsAfter base.toNat u.toNat upcase 0 ⟨u, 0, junk⟩ :=
    ⟨by rw [Nat.pow_zero, Nat.div_one], rfl, fun j hj => absurd hj (Nat.not_lt_zero _)⟩
  obtain ⟨s₁, h₁, hI₁⟩ := putDigit_after size hb (by omega) hzero
  -- a number of `n` digits is left over until `n` of them are laid down
  have hleft : ∀ k s, 1 ≤ k → DigitsAfter base.toNat u.toNat upcase k s → (s.u ≠ 0 ↔ k < n) := by
    intro k s hk hI
    have hpow : 0 < base.toNat ^ k := Nat.pow_pos (by omega)
    rw [Ne, ← BitVec.toNat_inj, hI.1]
    show ¬_ = 0 ↔ _
    rw [Nat.div_eq_zero_iff, or_iff_right (by omega), ← length_digitsOf_le hb hk, hn]
    omega
  obtain ⟨s, hrun, hI⟩ := whileDo_rounds (fun s : Digits => decide (s.u ≠ 0)) (putDigit size base upcase) (n := n)
    (fun k s => 1 ≤ k ∧ DigitsAfter base.toNat u.toNat upcase k s)
    (fun k hk s hI => by
      obtain ⟨s', hs', hI'⟩ := putDigit_after size hb (by omega) hI.2
      exact ⟨decide_eq_true ((hleft k s hI.1 hI.2).2 hk), s', hs', by omega, hI'⟩)
    (fun s hI => decide_eq_false fun hne => absurd ((hleft n s hI.1 hI.2).1 hne) (Nat.lt_irrefl _)) fuel 1 s₁ hn1
    ⟨Nat.le_refl _, hI₁⟩ (by omega)
  refine ⟨s, by rw [h₁, Option.bind_some, hrun], ?_, ?_, by omega⟩
  · rw [hn]
    exact hI.2.2.1
  · rw [← List.map_reverse, reverse_digitsOf hb, List.map_map, hn]
    exact hI.2.2.2

end Digits

/-! ## The text -/

@[simp] theorem length_signOf (neg : Bool) : (signOf neg).length = neg.toNat := by cases neg <;> rfl

theorem length_numText (u b : Nat) (neg : Bool) (width : Nat) (ladjust : Bool) (padc : Char) (upcase : Bool) :
    (numText u b neg width ladjust padc upcase).length = max width ((digitsOf b u).length + neg.toNat) := by
  unfold numText
  simp only [apply_ite List.length, List.length_append, List.length_replicate, List.length_map, length_signOf]
  split
  · omega
  · split <;> omega

/-- What is in the buffer before it is turned round: `ds` are the digits, the last one first. -/
def padded (ds : List Char) (neg : Bool) (pad : Nat) (ladjust : Bool) (padc : Char) : List Char :=
  if ladjust then ds ++ signOf neg ++ List.replicate pad ' '
  else if padc = '0' then ds ++ List.replicate pad padc ++ signOf neg
  else ds ++ signOf neg ++ List.replicate pad padc

/-- **The text is what comes out** when the part in front is turned round: the number, or all of it. -/
theorem padded_turned (ds : List Char) (neg : Bool) (pad : Nat) (ladjust : Bool) (padc : Char) : ∃ l r,
    padded ds.reverse neg pad ladjust padc = l ++ r ∧
      l.length = (if ladjust then ds.length + neg.toNat else ds.length + neg.toNat + pad) ∧
      l.reverse ++ r = if ladjust then signOf neg ++ ds ++ List.replicate pad ' '
        else if padc = '0' then signOf neg ++ List.replicate pad padc ++ ds
          else List.replicate pad padc ++ signOf neg ++ ds := by
  have hsign : (signOf neg).reverse = signOf neg := by cases neg <;> rfl
  unfold padded
  split
  · refine ⟨ds.reverse ++ signOf neg, List.replicate pad ' ', rfl, ?_, ?_⟩
    · rw [List.length_append, List.length_reverse, length_signOf]
    · rw [List.reverse_append, List.reverse_reverse, hsign]
  · split
    · refine ⟨ds.reverse ++ List.replicate pad padc ++ signOf neg, [], (List.append_nil _).symm, ?_, ?_⟩
      · rw [List.length_append, List.length_append, List.length_reverse, length_signOf, List.length_replicate]
        omega
      · rw [List.reverse_append, List.reverse_append, List.reverse_reverse, hsign,
          List.reverse_replicate, List.append_nil,
          List.append_assoc]
    · refine ⟨ds.reverse ++ signOf neg ++ List.replicate pad padc, [], (List.append_nil _).symm, ?_, ?_⟩
      · rw [List.length_append, List.length_append, List.length_reverse, length_signOf, List.length_replicate]
      · rw [List.reverse_append, List.reverse_append, List.reverse_reverse, hsign,
          List.reverse_replicate, List.append_nil,
          List.append_assoc]

/-- **The sign and the padding.** -/
theorem padding_spec (size fuel pad : Nat) {ds : List Char} {buf : Buf} {negFlag : Bool} (ladjust : Bool) (padc : Char)
    (h : buf.Starts (ds ++ signOf negFlag)) (hs : ds.length + negFlag.toNat + pad ≤ size) (hf : pad < fuel) :
    ∃ buf', (if negFlag ∧ ¬ladjust ∧ (if ladjust then ' ' else padc) = '0' then
        (padTo size fuel (if ladjust then ' ' else padc) (((ds.length + negFlag.toNat + pad : Nat) : Int) - 1)
          (((ds.length + negFlag.toNat : Nat) : Int) - 1) buf).bind
            fun buf => buf.write size (((ds.length + negFlag.toNat + pad : Nat) : Int) - 1) '-'
      else padTo size fuel (if ladjust then ' ' else padc) (ds.length + negFlag.toNat + pad : Nat)
        (ds.length + negFlag.toNat : Nat) buf) = some buf' ∧
      buf'.Starts (padded ds negFlag pad ladjust padc) ∧ (padded ds negFlag pad ladjust padc).length = ds.length +
        negFlag.toNat + pad := by
  have hlen : (ds ++ signOf negFlag).length = ds.length + negFlag.toNat := by rw [List.length_append, length_signOf]
  by_cases hmid : negFlag = true ∧ ¬ladjust = true ∧ (if ladjust then ' ' else padc) = '0'
  · -- the zeros go where the sign is, and the sign behind them
    rw [if_pos hmid]
    obtain ⟨rfl, hl, hpadc⟩ := hmid
    rw [if_neg hl] at hpadc
    obtain ⟨buf₁, hpad, hbuf₁⟩ := padTo_spec size fuel pad '0' h.left
      (by rw [Bool.toNat_true] at hs; omega) hf
    obtain ⟨buf', hw, hbuf'⟩ := hbuf₁.write size
      (by rw [List.length_append, List.length_replicate]; rw [Bool.toNat_true] at hs; omega) '-'
    rw [List.length_append, List.length_replicate] at hw
    have hfirst : ((ds.length + true.toNat : Nat) : Int) - 1 = ds.length := by
      rw [Bool.toNat_true]
      omega
    have hstop : ((ds.length + true.toNat + pad : Nat) : Int) - 1 = (ds.length + pad : Nat) := by
      rw [Bool.toNat_true]
      omega
    have htext : padded ds true pad ladjust padc = ds ++ List.replicate pad '0' ++ ['-'] := by
      unfold padded
      rw [if_neg hl, if_pos hpadc, hpadc]
      rfl
    refine ⟨buf', ?_, by rwa [htext], ?_⟩
    · rw [hfirst, hstop, if_neg hl, hpadc, hpad, Option.bind_some, hw]
    · rw [htext, List.length_append, List.length_append, List.length_replicate, Bool.toNat_true, List.length_singleton]
      omega
  · rw [if_neg hmid]
    obtain ⟨buf', hpad, hbuf'⟩ := padTo_spec size fuel pad (if ladjust then ' ' else padc) h
      (by rw [hlen]; exact hs) hf
    have htext : padded ds negFlag pad ladjust padc =
        ds ++ signOf negFlag ++ List.replicate pad (if ladjust then ' ' else padc) := by
      unfold padded
      by_cases hl : ladjust = true
      · rw [if_pos hl, if_pos hl]
      · rw [if_neg hl, if_neg hl]
        rw [if_neg hl] at hmid
        split
        · rename_i h0
          -- there is no sign
          have hneg : signOf negFlag = [] := if_neg fun hn => hmid ⟨hn, hl, h0⟩
          rw [hneg, List.append_nil, List.append_nil]
        · rfl
    rw [hlen] at hpad
    refine ⟨buf', hpad, by rwa [htext], ?_⟩
    rw [htext, List.length_append, hlen, List.length_replicate]

/-- **`print_num` hands the text to `out`**, all at once, and no access leaves the buffer. -/
theorem printNum_spec {D : Type} {fuel length : Nat} {u base : BitVec 32} (junk : Buf)
    (out : D → List Char → Option D) (data : D) (negFlag ladjust : Bool) (padc : Char) (upcase : Bool)
    (hb : 1 < base.toNat) (hf : length + 34 < fuel) :
    printNum fuel junk out data u base negFlag length ladjust padc upcase =
      out data (numText u.toNat base.toNat negFlag length ladjust padc upcase) := by
  obtain ⟨s, hdigits, hp, hstarts, h32⟩ := digits_spec (length + 70) fuel base u junk upcase hb (by omega) (by omega)
  obtain ⟨ds, hds⟩ : ∃ ds, (digitsOf base.toNat u.toNat).map (digitChar upcase) = ds := ⟨_, rfl⟩
  have hlen : (digitsOf base.toNat u.toNat).length = ds.reverse.length := by
    rw [← hds, List.length_reverse, List.length_map]
  rw [hds] at hstarts
  rw [hlen] at hp h32
  have h1 : negFlag.toNat ≤ 1 := by cases negFlag <;> decide
  have hsign : ∃ buf, (if negFlag then (s.buf.write (length + 70) s.p '-').map fun buf => (s.p + 1, buf)
    else some (s.p, s.buf)) =
      some (((ds.reverse.length + negFlag.toNat : Nat) : Int), buf) ∧ buf.Starts (ds.reverse ++ signOf negFlag) := by
    cases negFlag with
    | false => exact ⟨s.buf, by rw [hp]; rfl, by rwa [show signOf false = [] from rfl, List.append_nil]⟩
    | true =>
      obtain ⟨buf, hw, hbuf⟩ := hstarts.write (length + 70) (by omega) '-'
      exact ⟨buf, by rw [if_pos rfl, hp, hw]; rfl, hbuf⟩
  obtain ⟨buf₁, hbuf₁, hstarts₁⟩ := hsign
  obtain ⟨pad, hpad⟩ : ∃ pad, pad = length - (ds.reverse.length + negFlag.toNat) := ⟨_, rfl⟩
  have hmax : (if (length : Int) < (ds.reverse.length + negFlag.toNat : Nat) then
    ((ds.reverse.length + negFlag.toNat : Nat) : Int) else length) =
      (ds.reverse.length + negFlag.toNat + pad : Nat) := by
    split <;> omega
  obtain ⟨buf₂, hbuf₂, hstarts₂, hlen₂⟩ := padding_spec (length + 70) fuel pad ladjust padc hstarts₁
    (by omega) (by omega)
  -- what is turned round, and what is not
  obtain ⟨l, r, hlr, hl, htext⟩ := padded_turned ds negFlag pad ladjust padc
  have hend : (if ladjust then ((ds.reverse.length + negFlag.toNat : Nat) : Int) - 1
      else ((ds.reverse.length + negFlag.toNat + pad : Nat) : Int) - 1) = (l.length : Int) - 1 := by
    rw [hl, List.length_reverse]
    split <;> rfl
  have hle : l.length ≤ length + 34 := by
    rw [hl]
    rw [List.length_reverse] at h32 hpad
    split <;> omega
  rw [hlr] at hstarts₂ hlen₂
  obtain ⟨t, hturn, hturned⟩ := swapEnds_spec (length + 70) fuel l.length buf₂ (by omega) (by omega)
  have hread := (starts_turned hstarts₂ hturned).readAll (length + 70)
    (by rw [List.length_append] at hlen₂; rw [List.length_append, List.length_reverse]; omega)
  rw [List.length_append, List.length_reverse, ← List.length_append, hlen₂] at hread
  have hnum : numText u.toNat base.toNat negFlag length ladjust padc upcase = l.reverse ++ r := by
    rw [htext, hpad, List.length_reverse, ← length_signOf, ← hds]
    rfl
  unfold printNum
  simp only
  rw [← Option.bind_assoc, hdigits, Option.bind_some, hbuf₁, Option.bind_some]
  simp only [hmax]
  rw [hbuf₂, Option.bind_some, hend, hturn, Option.bind_some, Int.toNat_natCast, hread, Option.bind_some, hnum]

/-- **Numbers are formatted**: in every base up to sixteen `print_num` hands `out` the sign, the digits and the
padding in their order, in every field as wide as asked for or as the number is; the digits are as few as can be, and
read back they give the number. -/
theorem print_num_text {D : Type} (fuel : Nat) (junk : Buf) (out : D → List Char → Option D) (data : D)
    (u base : BitVec 32) (negFlag : Bool) (length : Nat) (ladjust : Bool) (padc : Char) (upcase : Bool)
    (hb : 2 ≤ base.toNat ∧ base.toNat ≤ 16) (hf : length + 34 < fuel) :
    printNum fuel junk out data u base negFlag length ladjust padc upcase =
        out data (numText u.toNat base.toNat negFlag length ladjust padc upcase) ∧
      (numText u.toNat base.toNat negFlag length ladjust padc upcase).length =
        max length ((digitsOf base.toNat u.toNat).length + negFlag.toNat) ∧
      readNum base.toNat ((digitsOf base.toNat u.toNat).map (digitChar upcase)) = u.toNat ∧
      ∀ k, 0 < k → ((digitsOf base.toNat u.toNat).length ≤ k ↔ u.toNat < base.toNat ^ k) :=
  ⟨printNum_spec junk out data negFlag ladjust padc upcase hb.1 hf, length_numText _ _ _ _ _ _ _,
    readNum_digitsOf hb.1 hb.2 upcase,
    fun _ hk => length_digitsOf_le hb.1 hk⟩

theorem print_num_text_hex :
    printNum 64 (fun _ => 'J') (fun (d : List Char) s => some (d ++ s)) [] 0xBEEF 16 true 8 false '0' false =
        some (numText (0xBEEF : BitVec 32).toNat (16 : BitVec 32).toNat true 8 false '0' false) ∧
      (numText (0xBEEF : BitVec 32).toNat (16 : BitVec 32).toNat true 8 false '0' false).length =
        max 8 ((digitsOf (16 : BitVec 32).toNat (0xBEEF : BitVec 32).toNat).length + true.toNat) ∧
      readNum (16 : BitVec 32).toNat
        ((digitsOf (16 : BitVec 32).toNat (0xBEEF : BitVec 32).toNat).map (digitChar false)) =
        (0xBEEF : BitVec 32).toNat ∧
      ∀ k, 0 < k → ((digitsOf (16 : BitVec 32).toNat (0xBEEF : BitVec 32).toNat).length ≤ k ↔
        (0xBEEF : BitVec 32).toNat < (16 : BitVec 32).toNat ^ k) :=
  print_num_text 64 (fun _ => 'J') (fun d s => some (d ++ s)) [] 0xBEEF 16 true 8 false '0' false
    (by decide) (by decide)

end Mos.Libc
