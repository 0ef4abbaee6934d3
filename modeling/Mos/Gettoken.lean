import Mathlib.Data.List.Basic
/-!
# Gettoken — the tokens of a command line (`user/sh.c`)

A `char *` into the line is the offset it stands at together with the characters from there to the end of the line.
`_gettoken` writes zeros only before `*p2`, so what is still to be read is as it was typed, and a word ends where the
character after it was zeroed.  The rest of the buffer behind the line is zero.
-/
namespace Mos.Sh

/-- `WHITESPACE` -/
def isSpace (c : Char) : Bool := c ∈ [' ', '\t', '\r', '\n']

/-- `SYMBOLS` -/
def isSymbol (c : Char) : Bool := c ∈ ['<', '|', '>', '&', ';', '(', ')']

/-- What `_gettoken` returns. -/
inductive Tok where
  | eof
  | word
  | append
  | or
  | and
  | less
  | bar
  | greater
  | amp
  | semi
  | lparen
  | rparen
deriving DecidableEq, Repr

/-- Where a string stands. -/
inductive Place where
  | line (pos : Nat)
  | outbuf
deriving DecidableEq, Repr

/-- A `char *` and the string it points to. -/
structure Word where
  place : Place
  text : List Char
deriving DecidableEq, Repr

/-- The static variables of `gettoken`: the token ahead `nc`, its start `np1`, and the offset `np2` of what follows
it. -/
structure Scan where
  nc : Tok
  np1 : Word
  np2 : Nat
  rest : List Char
deriving DecidableEq, Repr

/-- `return t`, for a token that starts at `pos` and is `n` characters long. -/
def symbol (t : Tok) (pos n : Nat) (rest : List Char) : Scan := ⟨t, ⟨.line pos, []⟩, pos + n, rest⟩

/-- A token from one quote to the next, the first one included; the second one is zeroed. -/
def quoted (q : Char) (pos : Nat) (s : List Char) : Scan :=
  ⟨.word, ⟨.line pos, q :: s.takeWhile (· != q)⟩, pos + (s.takeWhile (· != q)).length + 2,
    (s.dropWhile (· != q)).drop 1⟩

/-- The symbol of one character. -/
def symbolTok (c : Char) : Tok :=
  if c = '<' then .less
  else if c = '|' then .bar
  else if c = '>' then .greater
  else if c = '&' then .amp
  else if c = ';' then .semi
  else if c = '(' then .lparen
  else .rparen

/-- A character of a word after its first. -/
def inWord (c : Char) : Bool := !isSpace c && !isSymbol c

def _gettoken (pos : Nat) : List Char → Scan
  | [] => symbol .eof pos 0 []
  | c :: s =>
    if isSpace c then _gettoken (pos + 1) s
    else if c = '"' then quoted '"' pos s
    else if c = '`' then quoted '`' pos s
    else if c = '>' ∧ s.head? = some '>' then symbol .append pos 2 (s.drop 1)
    else if c = '|' ∧ s.head? = some '|' then symbol .or pos 2 (s.drop 1)
    else if c = '&' ∧ s.head? = some '&' then symbol .and pos 2 (s.drop 1)
    else if isSymbol c then symbol (symbolTok c) pos 1 s
    else ⟨.word, ⟨.line pos, c :: s.takeWhile inWord⟩, pos + 1 + (s.takeWhile inWord).length, s.dropWhile inWord⟩

/-- `gettoken(s, 0)` -/
def scanLine (line : List Char) : Scan := _gettoken 0 line

/-- `gettoken(0, &t)`: the token ahead is read and the next one looked up. -/
def Scan.next (sc : Scan) : Scan := _gettoken sc.np2 sc.rest

/-! ## The tokens still to be read -/

/-- A token as `parsecmd` sees it. -/
inductive Token where
  | word (w : Word)
  | sym (t : Tok)
deriving DecidableEq, Repr

def Scan.token (sc : Scan) : Token := if sc.nc = .word then .word sc.np1 else .sym sc.nc

/-- `gettoken` will return these tokens and then 0. -/
def Reads : Scan → List Token → Prop
  | sc, [] => sc.nc = .eof
  | sc, t :: ts => sc.nc ≠ .eof ∧ sc.token = t ∧ Reads sc.next ts

instance decidableReads : ∀ (sc : Scan) (ts : List Token), Decidable (Reads sc ts)
  | sc, [] => inferInstanceAs (Decidable (sc.nc = .eof))
  | sc, t :: ts =>
    have := decidableReads sc.next ts
    inferInstanceAs (Decidable (sc.nc ≠ .eof ∧ sc.token = t ∧ Reads sc.next ts))

theorem Reads.word {sc : Scan} {w : Word} {ts : List Token} (h : Reads sc (.word w :: ts)) :
    sc.nc = .word ∧ sc.np1 = w ∧ Reads sc.next ts := by
  obtain ⟨-, ht, hr⟩ := h
  unfold Scan.token at ht
  split at ht
  · rename_i hw
    exact ⟨hw, by simpa using ht, hr⟩
  · cases ht

theorem Reads.sym {sc : Scan} {t : Tok} {ts : List Token} (h : Reads sc (.sym t :: ts)) :
    sc.nc = t ∧ Reads sc.next ts := by
  obtain ⟨-, ht, hr⟩ := h
  unfold Scan.token at ht
  split at ht
  · cases ht
  · exact ⟨by simpa using ht, hr⟩

/-! ## Words stand in the order of the line -/

theorem le_gettoken (pos : Nat) (s : List Char) :
    ∃ start, (_gettoken pos s).np1.place = .line start ∧ pos ≤ start ∧
      ((_gettoken pos s).nc ≠ .eof → start < (_gettoken pos s).np2) := by
  induction s generalizing pos with
  | nil => exact ⟨pos, rfl, Nat.le_refl _, fun h => absurd rfl h⟩
  | cons c s ih =>
    unfold _gettoken
    split
    · obtain ⟨start, h1, h2, h3⟩ := ih (pos + 1)
      exact ⟨start, h1, by omega, h3⟩
    · refine ⟨pos, ?_, Nat.le_refl _, fun _ => ?_⟩ <;> (repeat' split) <;> simp [quoted, symbol] <;> omega

/-- The words that are still to be read. -/
def wordsOf : List Token → List Word
  | [] => []
  | .word w :: ts => w :: wordsOf ts
  | .sym _ :: ts => wordsOf ts

@[simp] theorem wordsOf_append (ts us : List Token) : wordsOf (ts ++ us) = wordsOf ts ++ wordsOf us := by
  induction ts with
  | nil => rfl
  | cons t ts ih => cases t <;> simp [wordsOf, ih]

@[simp] theorem wordsOf_words (ws : List Word) : wordsOf (ws.map .word) = ws := by
  induction ws with
  | nil => rfl
  | cons w ws ih => simp [wordsOf, ih]

theorem Reads.places_ge {sc : Scan} {pos : Nat} {s : List Char} {ts : List Token} (hsc : sc = _gettoken pos s)
    (h : Reads sc ts) : ∀ w ∈ wordsOf ts, ∃ i, w.place = .line i ∧ pos ≤ i := by
  induction ts generalizing sc pos s with
  | nil => intro w hw; cases hw
  | cons t ts ih =>
    obtain ⟨start, h1, h2, h3⟩ := le_gettoken pos s
    rw [← hsc] at h1 h3
    have htail : ∀ w ∈ wordsOf ts, ∃ i, w.place = .line i ∧ pos ≤ i := by
      intro w hw
      obtain ⟨i, hi, hle⟩ := ih rfl h.2.2 w hw
      exact ⟨i, hi, by have := h3 h.1; omega⟩
    cases t with
    | sym t => exact htail
    | word v =>
      intro w hw
      rcases List.mem_cons.1 hw with rfl | hw
      · exact ⟨start, by rw [← h.word.2.1]; exact h1, h2⟩
      · exact htail w hw

/-- **No two words of a line start at the same place.** -/
theorem Reads.places_nodup {sc : Scan} {pos : Nat} {s : List Char} {ts : List Token} (hsc : sc = _gettoken pos s)
    (h : Reads sc ts) : ((wordsOf ts).map Word.place).Nodup := by
  induction ts generalizing sc pos s with
  | nil => exact List.nodup_nil
  | cons t ts ih =>
    cases t with
    | sym t => exact ih rfl h.2.2
    | word v =>
      refine List.nodup_cons.2 ⟨?_, ih rfl h.2.2⟩
      intro hv
      obtain ⟨w, hw, hp⟩ := List.mem_map.1 hv
      obtain ⟨i, hi, hle⟩ := h.2.2.places_ge rfl w hw
      obtain ⟨start, h1, -, h3⟩ := le_gettoken pos s
      rw [← hsc] at h1 h3
      rw [hi, ← h.word.2.1, h1] at hp
      have := h3 h.1
      cases hp
      omega

end Mos.Sh
