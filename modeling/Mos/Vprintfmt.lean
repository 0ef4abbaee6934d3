import Mathlib.Data.List.TakeWhile
import Mos.PrintNum
/-!
# Vprintfmt — formatted output (`vprintfmt` of `lib/print.c`)

The format is a string with a zero behind it, and a character behind the zero is not there.  An argument is a word or a
string; `long` is as wide as `int`.  What is printed goes to `out`, piece by piece, with whatever state it keeps.
-/
namespace Mos.Libc

/-- The character that ends a string. -/
def nul : Char := Char.ofNat 0

/-- An argument. -/
inductive Arg where
  /-- An `int` or a `long`. -/
  | word (w : BitVec 32)
  /-- A pointer to the characters, with a zero behind them. -/
  | str (s : List Char)
deriving DecidableEq

/-- What a letter asks for. -/
inductive Conv where
  | num (base : BitVec 32) (signed upcase : Bool)
  | char
  | str

/-- The letters of the conversions. -/
def convOf : Char → Option Conv
  | 'b' => some (.num 2 false false)
  | 'd' => some (.num 10 true false)
  | 'D' => some (.num 10 true false)
  | 'o' => some (.num 8 false false)
  | 'O' => some (.num 8 false false)
  | 'u' => some (.num 10 false false)
  | 'U' => some (.num 10 false false)
  | 'x' => some (.num 16 false false)
  | 'X' => some (.num 16 false true)
  | 'c' => some .char
  | 's' => some .str
  | _ => none

/-! ## `print_char`, `print_str` -/

section Printing

variable {D : Type}

/-- `n` times `out(data, &space, 1)` -/
def spaces (out : D → List Char → Option D) (n : Nat) (data : D) : Option D :=
  (List.replicate n ' ').foldlM (fun data c => out data [c]) data

def printChar (out : D → List Char → Option D) (data : D) (c : Char) (length : Nat) (ladjust : Bool) : Option D :=
  let length := if length < 1 then 1 else length
  if ladjust then (out data [c]).bind fun data => spaces out (length - 1) data
  else (spaces out (length - 1) data).bind fun data => out data [c]

/-- The characters before the zero. -/
def cstr (s : List Char) : List Char := s.takeWhile (· != nul)

def printStr (out : D → List Char → Option D) (data : D) (s : List Char) (length : Nat) (ladjust : Bool) : Option D :=
  let len := (cstr s).length
  let length := if length < len then len else length
  if ladjust then (out data (cstr s)).bind fun data => spaces out (length - len) data
  else (spaces out (length - len) data).bind fun data => out data (cstr s)

/-! ## `vprintfmt` -/

/-- `va_arg(ap, int)`, `va_arg(ap, long int)` -/
def vaWord : List Arg → Option (BitVec 32 × List Arg)
  | .word w :: ap => some (w, ap)
  | _ => none

/-- `va_arg(ap, char *)` -/
def vaStr : List Arg → Option (List Char × List Arg)
  | .str s :: ap => some (s, ap)
  | _ => none

/-- `*fmt` -/
def charAt (s : List Char) (p : Nat) : Option Char := (s ++ [nul])[p]?

/-- `while (*tmp != '%' && *tmp != '\0') ++tmp;` -/
def scan (s : List Char) : Nat → Nat → Option Nat
  | 0, _ => none
  | fuel + 1, tmp => (charAt s tmp).bind fun c => if c ≠ '%' ∧ c ≠ nul then scan s fuel (tmp + 1) else some tmp

/-- `if (*fmt == c) ++fmt;`, and whether it did. -/
def skip (s : List Char) (c : Char) (p : Nat) : Option (Bool × Nat) :=
  (charAt s p).map fun d => if d = c then (true, p + 1) else (false, p)

/-- A decimal digit. -/
def isDigit (c : Char) : Bool := decide ('0' ≤ c) && decide (c ≤ '9')

/-- The loop that reads the width; the sum is right as long as it fits in an `int`. -/
def getWidth (s : List Char) : Nat → Nat → Nat → Option (Nat × Nat)
  | 0, _, _ => none
  | fuel + 1, p, width => (charAt s p).bind fun c =>
    if isDigit c then
      let width := width * 10 + (c.toNat - '0'.toNat)
      if width < 2 ^ 31 then getWidth s fuel (p + 1) width else none
    else some (width, p)

/-- The `switch`, but for the zero. -/
def convert (fuel : Nat) (junk : Buf) (out : D → List Char → Option D) (data : D) (letter : Char) (width : Nat)
    (ladjust : Bool) (padc : Char) (ap : List Arg) : Option (D × List Arg) :=
  match convOf letter with
  | some (.num base signed upcase) => (vaWord ap).bind fun (num, ap) =>
    if signed ∧ num.toInt < 0 then (printNum fuel junk out data (-num) base true width ladjust padc upcase).map (·, ap)
    else (printNum fuel junk out data num base false width ladjust padc upcase).map (·, ap)
  | some .char =>
    (vaWord ap).bind fun (c, ap) => (printChar out data (Char.ofNat (c.toNat % 256)) width ladjust).map (·, ap)
  | some .str => (vaStr ap).bind fun (s, ap) => (printStr out data s width ladjust).map (·, ap)
  | none => (out data [letter]).map (·, ap)

/-- The loop of `vprintfmt`, from `fmt + p` on. -/
def vprintfmtFrom (fuel : Nat) (junk : Buf) (out : D → List Char → Option D) (fmt : List Char) :
    Nat → D → Nat → List Arg →
    Option (D × List Arg)
  | 0, _, _, _ => none
  | n + 1, data, p, ap =>
    (scan fmt fuel p).bind fun tmp =>
    (out data ((fmt.drop p).take (tmp - p))).bind fun data =>
    (charAt fmt tmp).bind fun c =>
    if c = nul then some (data, ap)
    else
      (skip fmt '-' (tmp + 1)).bind fun (ladjust, p) =>
      (skip fmt '0' p).bind fun (zero, p) =>
      (getWidth fmt fuel p 0).bind fun (width, p) =>
      (skip fmt 'l' p).bind fun (_, p) =>
      (charAt fmt p).bind fun letter =>
      if letter = nul then vprintfmtFrom fuel junk out fmt n data (p - 1 + 1) ap
      else (convert fuel junk out data letter width ladjust (if zero then '0' else ' ') ap).bind fun (data, ap) =>
        vprintfmtFrom fuel junk out fmt n data (p + 1) ap

/-- `vprintfmt`, every loop with at most `fuel` tests of its condition; the result is what `out` made of `data`, and the
arguments that are left. -/
def vprintfmt (fuel : Nat) (junk : Buf) (out : D → List Char → Option D) (data : D) (fmt : List Char) (ap : List Arg) :
    Option (D × List Arg) := vprintfmtFrom fuel junk out fmt fuel data 0 ap

end Printing

/-! ## What it is for -/

/-- A text in a field. -/
def field (cs : List Char) (width : Nat) (ladjust : Bool) : List Char :=
  if ladjust then cs ++ List.replicate (width - cs.length) ' ' else List.replicate (width - cs.length) ' ' ++ cs

/-- What follows a `'%'`: the flags, the width, and the rest from the letter on. -/
structure Directive where
  ladjust : Bool
  padc : Char
  width : Nat
  rest : List Char

/-- An optional character. -/
def optional (c : Char) : List Char → Bool × List Char
  | [] => (false, [])
  | d :: s => if d = c then (true, s) else (false, d :: s)

/-- The value of some decimal digits behind others. -/
def decimal (n : Nat) (ds : List Char) : Nat := ds.foldl (fun n c => n * 10 + (c.toNat - '0'.toNat)) n

/-- An optional `'-'`, an optional `'0'`, digits, an optional `'l'`. -/
def parseDirective (s : List Char) : Directive :=
  let minus := optional '-' s
  let zero := optional '0' minus.2
  ⟨minus.1, if zero.1 then '0' else ' ', decimal 0 (zero.2.takeWhile isDigit),
    (optional 'l' (zero.2.dropWhile isDigit)).2⟩

/-- The text of one conversion, and the arguments that it leaves. -/
def convText (d : Directive) (letter : Char) (args : List Arg) : Option (List Char × List Arg) :=
  match convOf letter, args with
  | some (.num base signed upcase), .word w :: args =>
    let neg := signed && decide (w.toInt < 0)
    some (numText (if neg then (-w.toInt).toNat else w.toNat) base.toNat neg d.width d.ladjust d.padc upcase, args)
  | some .char, .word w :: args => some (field [Char.ofNat (w.toNat % 256)] d.width d.ladjust, args)
  | some .str, .str s :: args => some (field (cstr s) d.width d.ladjust, args)
  | none, args => some ([letter], args)
  | _, _ => none

theorem optional_suffix (c : Char) : ∀ s, (optional c s).2 <:+ s
  | [] => List.suffix_refl _
  | d :: s => by
    rw [optional]
    split
    · exact List.suffix_cons d s
    · exact List.suffix_refl _

theorem rest_suffix (s : List Char) : (parseDirective s).rest <:+ s :=
  (optional_suffix _ _).trans ((List.dropWhile_suffix _).trans ((optional_suffix _ _).trans (optional_suffix _ _)))

/-- **The formatted text**, and the arguments that are left: the literal characters and the texts of the directives in
their order; a directive that the format ends in has none.  A width that does not fit in an `int` and an argument that
is not there have no text. -/
def formatText : List Char → List Arg → Option (List Char × List Arg)
  | [], args => some ([], args)
  | c :: s, args =>
    if c = '%' then
      if (parseDirective s).width < 2 ^ 31 then
        match _h : (parseDirective s).rest with
        | [] => some ([], args)
        | letter :: rest => (convText (parseDirective s) letter args).bind fun (text, args) =>
          (formatText rest args).map fun (texts, args) => (text ++ texts, args)
      else none
    else (formatText s args).map fun (texts, args) => (c :: texts, args)
termination_by s => s.length
decreasing_by
  · have hle := (rest_suffix s).length_le
    rw [_h, List.length_cons] at hle
    rw [List.length_cons]
    omega
  · exact Nat.lt_succ_self _

/-! ## Reading the format -/

/-- `t` is what is read from `s + p` on, up to the zero. -/
structure At (s : List Char) (p : Nat) (t : List Char) : Prop where
  le : p ≤ s.length
  drop : s.drop p = t

namespace At

variable {s t l : List Char} {p : Nat} {c : Char}

theorem head (h : At s p t) : charAt s p = some (t.headD nul) := by
  obtain ⟨hle, rfl⟩ := h
  unfold charAt
  rcases Nat.eq_or_lt_of_le hle with rfl | hlt
  · rw [List.getElem?_append_right (Nat.le_refl _), Nat.sub_self, List.drop_length]
    rfl
  · rw [List.getElem?_append_left hlt, List.drop_eq_getElem_cons hlt, List.getElem?_eq_getElem hlt]
    rfl

theorem split (h : At s p (l ++ t)) : At s (p + l.length) t := by
  have hlen := congrArg List.length h.drop
  rw [List.length_drop, List.length_append] at hlen
  refine ⟨by have := h.le; omega, ?_⟩
  rw [← List.drop_drop, h.drop, List.drop_left]

theorem tail (h : At s p (c :: t)) : At s (p + 1) t := split (l := [c]) h

theorem stop (h : At s p []) : p = s.length := by
  have hlen := congrArg List.length h.drop
  have hle := h.le
  rw [List.length_drop, List.length_nil] at hlen
  omega

end At

section Reading

variable {s t : List Char} {p : Nat}

/-- **The scan stops** at the next `'%'`, or at the zero. -/
theorem scan_at (ht : t.headD nul = '%' ∨ t = []) :
    ∀ {lit : List Char} {p fuel : Nat}, At s p (lit ++ t) → '%' ∉ lit → nul ∉ lit →
    lit.length < fuel → scan s fuel p = some (p + lit.length)
  | _, _, 0, _, _, _, hf => absurd hf (Nat.not_lt_zero _)
  | [], p, fuel + 1, h, _, _, _ => by
    rw [scan, h.head, Option.bind_some, if_neg]
    · rfl
    · rintro ⟨h₁, h₂⟩
      rcases ht with ht | rfl
      · exact h₁ ht
      · exact h₂ rfl
  | c :: lit, p, fuel + 1, h, hp, hn, hf => by
    rw [List.mem_cons, not_or] at hp hn
    rw [scan, h.head, Option.bind_some, if_pos ⟨Ne.symm hp.1, Ne.symm hn.1⟩,
      scan_at ht h.tail hp.2 hn.2 (Nat.lt_of_succ_lt_succ hf),
      List.length_cons, Nat.add_assoc, Nat.add_comm 1]

theorem skip_at {c : Char} (h : At s p t) (hc : c ≠ nul) :
    ∃ q, skip s c p = some ((optional c t).1, q) ∧ At s q (optional c t).2 := by
  unfold skip
  rw [h.head, Option.map_some]
  cases t with
  | nil => exact ⟨p, congrArg some (if_neg (Ne.symm hc)), h⟩
  | cons d t =>
    show ∃ q, some (if d = c then (true, p + 1) else (false, p)) = _ ∧ _
    rw [optional]
    split
    · exact ⟨p + 1, rfl, h.tail⟩
    · exact ⟨p, rfl, h⟩

theorem le_decimal : ∀ (ds : List Char) (n : Nat), n ≤ decimal n ds
  | [], n => Nat.le_refl n
  | c :: ds, n => Nat.le_trans (by omega) (le_decimal ds (n * 10 + (c.toNat - '0'.toNat)))

/-- **The width is read.** -/
theorem getWidth_at :
    ∀ {t : List Char} {p n fuel : Nat}, At s p t → decimal n (t.takeWhile isDigit) < 2 ^ 31 → t.length < fuel →
    ∃ q, getWidth s fuel p n = some (decimal n (t.takeWhile isDigit), q) ∧ At s q (t.dropWhile isDigit)
  | _, _, _, 0, _, _, hf => absurd hf (Nat.not_lt_zero _)
  | [], p, n, fuel + 1, h, _, _ => by
    refine ⟨p, ?_, h⟩
    rw [getWidth, h.head]
    rfl
  | c :: t, p, n, fuel + 1, h, hfit, hf => by
    rw [getWidth, h.head, Option.bind_some]
    by_cases hc : isDigit c = true
    · rw [List.takeWhile_cons_of_pos hc] at hfit ⊢
      rw [List.dropWhile_cons_of_pos hc]
      have hnext : n * 10 + (c.toNat - '0'.toNat) < 2 ^ 31 := Nat.lt_of_le_of_lt (le_decimal _ _) hfit
      obtain ⟨q, hq, hat⟩ := getWidth_at h.tail hfit (Nat.lt_of_succ_lt_succ hf)
      exact ⟨q, (if_pos hc).trans ((if_pos hnext).trans hq), hat⟩
    · rw [List.takeWhile_cons_of_neg hc, List.dropWhile_cons_of_neg hc]
      exact ⟨p, if_neg hc, h⟩

end Reading

/-! ## What is printed -/

section Calls

theorem spaces_calls {D : Type} (out : D → List Char → Option D) (n : Nat) (data : D) :
    spaces out n data = (List.replicate n [' ']).foldlM out data := by
  unfold spaces
  rw [← List.map_replicate (f := fun c => [c]), List.foldlM_map]

theorem flatten_spaces (n : Nat) : (List.replicate n [' ']).flatten = List.replicate n ' ' := by
  induction n with
  | zero => rfl
  | succ n ih =>
    rw [List.replicate_succ, List.flatten_cons, ih]
    rfl

theorem field_calls (cs : List Char) (width : Nat) (ladjust : Bool) :
    ∃ calls : List (List Char), calls.flatten = field cs width ladjust ∧
    ∀ (D : Type) (out : D → List Char → Option D) (data : D),
      (if ladjust then (out data cs).bind fun data => spaces out (width - cs.length) data
        else (spaces out (width - cs.length) data).bind fun data => out data cs) = calls.foldlM out data := by
  cases ladjust with
  | true =>
    refine ⟨cs :: List.replicate (width - cs.length) [' '], ?_, fun D out data => ?_⟩
    · rw [List.flatten_cons, flatten_spaces]
      rfl
    · rw [List.foldlM_cons, if_pos rfl]
      congr 1
      funext data
      exact spaces_calls out _ data
  | false =>
    refine ⟨List.replicate (width - cs.length) [' '] ++ [cs], ?_, fun D out data => ?_⟩
    · rw [List.flatten_append, flatten_spaces, List.flatten_cons, List.flatten_nil, List.append_nil]
      rfl
    · rw [List.foldlM_append, ← spaces_calls, if_neg Bool.false_ne_true]
      congr 1
      funext data
      rw [List.foldlM_cons]
      cases out data cs <;> rfl

theorem printChar_eq {D : Type} (out : D → List Char → Option D) (data : D) (c : Char) (length : Nat) (ladjust : Bool) :
    printChar out data c length ladjust = if ladjust then (out data [c]).bind fun data =>
    spaces out (length - [c].length) data
      else (spaces out (length - [c].length) data).bind fun data => out data [c] := by
  have hlen : (if length < 1 then 1 else length) - 1 = length - [c].length := by
    rw [List.length_singleton]
    split <;> omega
  unfold printChar
  simp only [hlen]

theorem printStr_eq {D : Type} (out : D → List Char → Option D) (data : D) (s : List Char) (length : Nat)
    (ladjust : Bool) :
    printStr out data s length ladjust = if ladjust then (out data (cstr s)).bind fun data =>
    spaces out (length - (cstr s).length) data
      else (spaces out (length - (cstr s).length) data).bind fun data => out data (cstr s) := by
  have hlen : (if length < (cstr s).length then (cstr s).length else length) - (cstr s).length =
      length - (cstr s).length := by
    split <;> omega
  unfold printStr
  simp only [hlen]

theorem toNat_neg_of_neg {w : BitVec 32} (h : w.toInt < 0) : (-w).toNat = (-w.toInt).toNat := by
  have hlt := w.isLt
  rw [BitVec.toInt_eq_toNat_cond] at h ⊢
  rw [BitVec.toNat_neg]
  split at h
  · omega
  · rename_i hge
    rw [if_neg hge]
    omega

theorem base_of_conv {c : Char} {base : BitVec 32} {signed upcase : Bool}
    (h : convOf c = some (.num base signed upcase)) :
    1 < base.toNat := by
  unfold convOf at h
  split at h <;> cases h <;> decide

/-- **A conversion prints its text**, and takes its argument. -/
theorem convert_calls {fuel : Nat} (junk : Buf) {d : Directive} {letter : Char} {args args' : List Arg}
    {text : List Char} (h : convText d letter args = some (text, args')) (hf : d.width + 34 < fuel) :
    ∃ calls : List (List Char), calls.flatten = text ∧ ∀ (D : Type) (out : D → List Char → Option D) (data : D),
      convert fuel junk out data letter d.width d.ladjust d.padc args = (calls.foldlM out data).map (·, args') := by
  have hone : ∀ (D : Type) (out : D → List Char → Option D) (data : D) (t : List Char),
      [t].foldlM out data = out data t := by
    intro D out data t
    rw [List.foldlM_cons]
    cases out data t <;> rfl
  unfold convText at h
  unfold convert
  split at h
  · rename_i base signed upcase w args hconv
    cases h
    have hb := base_of_conv hconv
    refine ⟨[_], List.append_nil _, fun D out data => ?_⟩
    simp only [hconv, vaWord, Option.bind_some]
    rw [hone]
    by_cases hneg : signed = true ∧ w.toInt < 0
    · have hd : (signed && decide (w.toInt < 0)) = true := by rw [Bool.and_eq_true, decide_eq_true_eq]; exact hneg
      rw [if_pos hneg, printNum_spec junk out data true d.ladjust d.padc upcase hb hf, hd, if_pos rfl,
        toNat_neg_of_neg hneg.2]
    · have hd : (signed && decide (w.toInt < 0)) = false := by
        rw [Bool.eq_false_iff, Ne, Bool.and_eq_true, decide_eq_true_eq]
        exact hneg
      rw [if_neg hneg, printNum_spec junk out data false d.ladjust d.padc upcase hb hf, hd, if_neg Bool.false_ne_true]
  · rename_i w args hconv
    cases h
    obtain ⟨calls, hcalls, hrun⟩ := field_calls [Char.ofNat (w.toNat % 256)] d.width d.ladjust
    refine ⟨calls, hcalls, fun D out data => ?_⟩
    simp only [hconv, vaWord, Option.bind_some]
    rw [printChar_eq, hrun]
  · rename_i s args hconv
    cases h
    obtain ⟨calls, hcalls, hrun⟩ := field_calls (cstr s) d.width d.ladjust
    refine ⟨calls, hcalls, fun D out data => ?_⟩
    simp only [hconv, vaStr, Option.bind_some]
    rw [printStr_eq, hrun]
  · rename_i args hconv
    cases h
    refine ⟨[[letter]], rfl, fun D out data => ?_⟩
    simp only [hconv]
    rw [hone]
  · cases h

end Calls

/-! ## The loop -/

theorem formatText_lit {s : List Char} {args : List Arg} : ∀ {lit : List Char}, '%' ∉ lit →
    formatText (lit ++ s) args = (formatText s args).map fun (text, args) => (lit ++ text, args)
  | [], _ => by
    rw [List.nil_append]
    cases formatText s args <;> rfl
  | c :: lit, h => by
    rw [List.mem_cons, not_or] at h
    rw [List.cons_append, formatText, if_neg (Ne.symm h.1), formatText_lit h.2, Option.map_map]
    rfl

theorem formatText_directive {s text : List Char} {args args' : List Arg}
    (h : formatText ('%' :: s) args = some (text, args')) :
    (parseDirective s).width < 2 ^ 31 ∧ (((parseDirective s).rest = [] ∧ text = [] ∧ args' = args) ∨
      ∃ letter rest text₁ args₁ text₂, (parseDirective s).rest = letter :: rest ∧
        convText (parseDirective s) letter args = some (text₁, args₁) ∧ formatText rest args₁ = some (text₂, args') ∧
        text = text₁ ++ text₂) := by
  rw [formatText, if_pos rfl] at h
  split at h
  · rename_i hwidth
    refine ⟨hwidth, ?_⟩
    split at h
    · rename_i hrest
      cases h
      exact .inl ⟨hrest, rfl, rfl⟩
    · rename_i letter rest hrest
      obtain ⟨⟨text₁, args₁⟩, hconv, h⟩ := Option.bind_eq_some_iff.1 h
      obtain ⟨⟨text₂, args₂⟩, htail, h⟩ := Option.map_eq_some_iff.1 h
      cases h
      exact .inr ⟨letter, rest, text₁, args₁, text₂, hrest, hconv, htail, rfl⟩
  · cases h

/-- **A directive is read** as it is parsed. -/
theorem directive_at {fmt s : List Char} {p fuel : Nat} (h : At fmt p s) (hwidth : (parseDirective s).width < 2 ^ 31)
    (hf : fmt.length < fuel) : ∃ p₁ p₂ p₃ p₄ zero long, skip fmt '-' p = some ((parseDirective s).ladjust, p₁) ∧
      skip fmt '0' p₁ = some (zero, p₂) ∧ (if zero then '0' else ' ') = (parseDirective s).padc ∧
      getWidth fmt fuel p₂ 0 = some ((parseDirective s).width, p₃) ∧ skip fmt 'l' p₃ = some (long, p₄) ∧
      At fmt p₄ (parseDirective s).rest := by
  obtain ⟨p₁, h₁, hat₁⟩ := skip_at (c := '-') h (by decide)
  obtain ⟨p₂, h₂, hat₂⟩ := skip_at (c := '0') hat₁ (by decide)
  have hshort : (optional '0' (optional '-' s).2).2.length < fuel := by
    have hlen := congrArg List.length hat₂.drop
    rw [List.length_drop] at hlen
    omega
  obtain ⟨p₃, h₃, hat₃⟩ := getWidth_at hat₂ hwidth hshort
  obtain ⟨p₄, h₄, hat₄⟩ := skip_at (c := 'l') hat₃ (by decide)
  exact ⟨p₁, p₂, p₃, p₄, _, _, h₁, h₂, rfl, h₃, h₄, hat₄⟩

/-- **The loop prints the text** of what is left of the format. -/
theorem vprintfmtFrom_calls {fmt : List Char} {fuel : Nat} (junk : Buf) (hf : fmt.length < fuel)
    (hw : 2 ^ 31 + 34 ≤ fuel) :
    ∀ {n p : Nat} {s text : List Char} {args args' : List Arg}, At fmt p s → nul ∉ s →
    formatText s args = some (text, args') →
      s.length < n → ∃ calls : List (List Char), calls.flatten = text ∧
        ∀ (D : Type) (out : D → List Char → Option D) (data : D),
          vprintfmtFrom fuel junk out fmt n data p args = (calls.foldlM out data).map (·, args')
  | 0, _, _, _, _, _, _, _, _, hn => absurd hn (Nat.not_lt_zero _)
  | n + 1, p, s, text, args, args', hat, hnul, htext, hn => by
    obtain ⟨lit, rest, rfl, hlit, hrest⟩ : ∃ lit rest, s = lit ++ rest ∧ '%' ∉ lit ∧
        (rest.headD nul = '%' ∨ rest = []) := by
      refine ⟨s.takeWhile (· != '%'), s.dropWhile (· != '%'), (List.takeWhile_append_dropWhile).symm, fun hm => ?_, ?_⟩
      · have := List.mem_takeWhile_imp hm
        rw [bne_self_eq_false] at this
        cases this
      · cases hd : s.dropWhile (· != '%') with
        | nil => exact .inr rfl
        | cons c t =>
          have hc := List.head?_dropWhile_not (· != '%') s
          rw [hd] at hc
          exact .inl (by simpa using hc)
    rw [List.mem_append, not_or] at hnul
    rw [List.length_append] at hn
    have hlen := congrArg List.length hat.drop
    rw [List.length_drop, List.length_append] at hlen
    rw [formatText_lit hlit] at htext
    obtain ⟨⟨text₀, args₀⟩, htext, heq⟩ := Option.map_eq_some_iff.1 htext
    cases heq
    have hscan := scan_at hrest hat hlit hnul.1 (show lit.length < fuel by omega)
    have hflush : (fmt.drop p).take (p + lit.length - p) = lit := by
      rw [hat.drop, Nat.add_sub_cancel_left, List.take_left]
    rcases hrest with hpercent | rfl
    · obtain ⟨u, rfl⟩ : ∃ u, rest = '%' :: u := by
        cases rest with
        | nil => exact absurd hpercent (by decide)
        | cons c u => exact ⟨u, by rw [show c = '%' from hpercent]⟩
      have hstart := hat.split
      obtain ⟨hwidth, hcases⟩ := formatText_directive htext
      obtain ⟨p₁, p₂, p₃, p₄, zero, long, h₁, h₂, hpadc, h₃, h₄, hat₄⟩ := directive_at hstart.tail hwidth hf
      have hnot : '%' ≠ nul := by decide
      rcases hcases with ⟨hnil, rfl, rfl⟩ | ⟨letter, rest, text₁, args₁, text₂, hrest, hconv, htail, rfl⟩
      · -- the format ends in the directive: back to the zero, once more
        rw [hnil] at hat₄
        have hback : p₄ - 1 + 1 = p₄ := by
          have hend := hat₄.stop
          have hle := hstart.tail.le
          omega
        have hempty : formatText [] args' = some ([], args') := by rw [formatText]
        obtain ⟨calls, hcalls, hrun⟩ := vprintfmtFrom_calls junk hf hw (n := n) hat₄ List.not_mem_nil hempty
          (by rw [List.length_cons] at hn; rw [List.length_nil]; omega)
        refine ⟨lit :: calls, by rw [List.flatten_cons, hcalls], fun D out data => ?_⟩
        rw [vprintfmtFrom, hscan, Option.bind_some, hflush, List.foldlM_cons]
        cases hout : out data lit with
        | none => rfl
        | some data₁ =>
          simp only [hstart.head, h₁, h₂, h₃, h₄, hat₄.head, Option.bind_some, List.headD_cons, List.headD_nil,
            if_neg hnot, if_true, hback]
          exact hrun D out data₁
      · rw [hrest] at hat₄
        have hsuffix := rest_suffix u
        rw [hrest] at hsuffix
        have hle := hsuffix.length_le
        rw [List.length_cons] at hn hlen hle
        have hnul' : nul ∉ letter :: rest := fun hm => hnul.2 (List.mem_cons_of_mem _ (hsuffix.subset hm))
        rw [List.mem_cons, not_or] at hnul'
        obtain ⟨calls₁, hcalls₁, hrun₁⟩ := convert_calls junk hconv (show (parseDirective u).width + 34 < fuel by omega)
        obtain ⟨calls, hcalls, hrun⟩ := vprintfmtFrom_calls junk hf hw (n := n) hat₄.tail hnul'.2 htail (by omega)
        refine ⟨lit :: (calls₁ ++ calls), by rw [List.flatten_cons, List.flatten_append, hcalls₁, hcalls],
          fun D out data => ?_⟩
        rw [vprintfmtFrom, hscan, Option.bind_some, hflush, List.foldlM_cons]
        cases hout : out data lit with
        | none => rfl
        | some data₁ =>
          simp only [hstart.head, h₁, h₂, h₃, h₄, hat₄.head, Option.bind_some, List.headD_cons, if_neg hnot]
          rw [if_neg (Ne.symm hnul'.1), hpadc, hrun₁]
          show _ = Option.map _ ((calls₁ ++ calls).foldlM out data₁)
          rw [List.foldlM_append]
          cases hcall : calls₁.foldlM out data₁ with
          | none => rfl
          | some data₂ => exact hrun D out data₂
    · have hend := hat.split
      rw [formatText] at htext
      cases htext
      refine ⟨[lit], by rw [List.flatten_cons, List.flatten_nil], fun D out data => ?_⟩
      rw [vprintfmtFrom, hscan, Option.bind_some, hflush, List.foldlM_cons]
      cases hout : out data lit with
      | none => rfl
      | some data₁ =>
        rw [Option.bind_some, hend.head, Option.bind_some]
        exact if_pos rfl

/-- **The text is printed**, whatever `out` does with it. -/
theorem vprintfmt_calls {fuel : Nat} (junk : Buf) {fmt text : List Char} {args args' : List Arg} (hnul : nul ∉ fmt)
    (htext : formatText fmt args = some (text, args')) (hf : fmt.length < fuel) (hw : 2 ^ 31 + 34 ≤ fuel) :
    ∃ calls : List (List Char), calls.flatten = text ∧ ∀ (D : Type) (out : D → List Char → Option D) (data : D),
      vprintfmt fuel junk out data fmt args = (calls.foldlM out data).map (·, args') :=
  vprintfmtFrom_calls junk hf hw ⟨Nat.zero_le _, List.drop_zero⟩ hnul htext hf

/-- **Formatted output**: whatever `out` does with it, what it is handed is, piece by piece, the text of the format; the
arguments of the conversions are taken, and no others, nothing is read behind the zero, and the loop ends. -/
theorem vprintfmt_text (fuel : Nat) (junk : Buf) (fmt text : List Char) (args args' : List Arg) (hnul : nul ∉ fmt)
    (htext : formatText fmt args = some (text, args')) (hf : fmt.length < fuel) (hw : 2 ^ 31 + 34 ≤ fuel) :
    ∃ calls : List (List Char), calls.flatten = text ∧ ∀ (D : Type) (out : D → List Char → Option D) (data : D),
      vprintfmt fuel junk out data fmt args = (calls.foldlM out data).map (·, args') :=
  vprintfmt_calls junk hnul htext hf hw

/-- The most negative number, and a directive that the format ends in. -/
theorem vprintfmt_text_least : ∃ calls : List (List Char), calls.flatten = "n=-2147483648".toList ∧
    ∀ (D : Type) (out : D → List Char → Option D) (data : D),
      vprintfmt (2 ^ 31 + 34) (fun _ => 'J') out data "n=%5d%0".toList [.word 0x80000000, .word 1] =
        (calls.foldlM out data).map (·, [.word 1]) :=
  vprintfmt_text (2 ^ 31 + 34) (fun _ => 'J') "n=%5d%0".toList "n=-2147483648".toList
    [.word 0x80000000, .word 1] [.word 1]
    (by decide) (by decide +kernel) (by decide) (by decide)

end Mos.Libc
