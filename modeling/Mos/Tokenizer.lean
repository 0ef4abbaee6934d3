import Mos.Gettoken
import Mos.History
/-!
# Tokenizer — `gettoken` on the buffer that it writes to (`user/sh.c`)

The buffer is a list of characters, with the line, its `NUL` and whatever is behind; running off its end is `none`.  The
tokens are ended by zeros that a later call writes, so what a caller reads depends on the calls before and after.

A line has lexemes by itself: that is what the calls are compared with.
-/
namespace Mos.Sh

def isQuote (c : Char) : Bool := c == '"' || c == '`'

/-- The symbols that may stand twice. -/
def isDouble (c : Char) : Bool := c ∈ ['>', '|', '&']

/-- The symbol of two such characters. -/
def doubleTok (c : Char) : Tok := if c = '>' then .append else if c = '|' then .or else .and

namespace Buffer

/-! ## `_gettoken` -/

/-- What `_gettoken` returns, with `*p1` and `*p2`; the characters from `s` on, and the end of what it has touched. -/
structure Result where
  tok : Tok
  p1 : Option Nat
  p2 : Option Nat
  chars : List Char
  far : Nat
deriving DecidableEq

/-- `while (go(*s)) s++`: how far it goes. -/
def scan (go : Char → Bool) : List Char → Option Nat
  | [] => none
  | c :: s => if go c then (scan go s).map (· + 1) else some 0

/-- `_gettoken`, of the characters from `s` on; the first one stands at `pos`. -/
def _gettoken (pos : Nat) : List Char → Option Result
  | [] => none
  | c :: s =>
    if isSpace c then (_gettoken (pos + 1) s).map fun r => { r with chars := nul :: r.chars }
    else if c = nul then some ⟨.eof, none, none, c :: s, pos + 1⟩
    else if isQuote c then
      -- the character that the loop has stopped at is zeroed and passed, be it the quote or the end
      (scan (fun d => d != nul && d != c) s).map fun n =>
      ⟨.word, some pos, some (pos + n + 2), c :: s.set n nul, pos + n + 2⟩
    else if isDouble c then
      match s with
      | [] => none
      | d :: s' =>
        if d = c then some ⟨doubleTok c, some pos, some (pos + 2), nul :: nul :: s', pos + 2⟩
        else some ⟨symbolTok c, some pos, some (pos + 1), nul :: s, pos + 2⟩
    else if isSymbol c then some ⟨symbolTok c, some pos, some (pos + 1), nul :: s, pos + 1⟩
    else (scan (fun d => d != nul && inWord d) s).map fun n =>
      ⟨.word, some pos, some (pos + n + 1), c :: s, pos + n + 2⟩

/-! ## `gettoken` -/

/-- The static variables of `gettoken`, the buffer, and the end of what has been touched. -/
structure State where
  nc : Tok
  np1 : Option Nat
  np2 : Option Nat
  buf : List Char
  far : Nat
deriving DecidableEq

/-- `nc = _gettoken(p, &np1, &np2)`; a null pointer is the end. -/
def lookAhead (p : Option Nat) (buf : List Char) (far : Nat) : Option State :=
  match p with
  | none => some ⟨.eof, none, none, buf, far⟩
  | some p => (_gettoken p (buf.drop p)).map fun r => ⟨r.tok, r.p1, r.p2, buf.take p ++ r.chars, max far r.far⟩

/-- `gettoken(0, &t)` returns `nc`, with `np1` in `t`. -/
def State.next (g : State) : Option State := lookAhead g.np2 g.buf g.far

def State.nexts : Nat → State → Option State
  | 0, g => some g
  | n + 1, g => g.next.bind (nexts n)

/-- `gettoken(buf, 0)`, and then `n` calls. -/
def calls (n : Nat) (buf : List Char) : Option State := (lookAhead (some 0) buf 0).bind (State.nexts n)

/-- The string at `p`. -/
def StringAt (buf : List Char) (p : Nat) (text : List Char) : Prop := ∃ rest, buf.drop p = text ++ nul :: rest

end Buffer

/-! ## Lexemes -/

/-- A token as the line has it: where it starts, and its text. -/
structure Lexeme where
  tok : Tok
  start : Nat
  text : List Char
deriving DecidableEq

/-- The characters `text` are one token in front of `rest`: two symbols before one, and words as long as they get. -/
inductive Munch : Tok → List Char → List Char → List Char → Prop where
  | quoted (q : Char) (body rest : List Char) : isQuote q = true → q ∉ body →
      Munch .word (q :: (body ++ [q])) (q :: body) rest
  | double (c : Char) (rest : List Char) : isDouble c = true → Munch (doubleTok c) [c, c] [c, c] rest
  | single (c : Char) (rest : List Char) : isSymbol c = true → ¬(isDouble c = true ∧ rest.head? = some c) →
      Munch (symbolTok c) [c] [c] rest
  | word (c : Char) (w rest : List Char) : inWord c = true → isQuote c = false → (∀ d ∈ w, inWord d = true) →
      (∀ d, rest.head? = some d → inWord d = false) → Munch .word (c :: w) (c :: w) rest

/-- **The lexemes of a line**, and whether it ends outside of quotes. -/
inductive Lexemes : Nat → List Char → List Lexeme → Bool → Prop where
  | done (pos : Nat) (w : List Char) : (∀ c ∈ w, isSpace c = true) → Lexemes pos w [] true
  | unclosed (pos : Nat) (w : List Char) (q : Char) (body : List Char) :
      (∀ c ∈ w, isSpace c = true) → isQuote q = true →
      q ∉ body → Lexemes pos (w ++ q :: body) [⟨.word, pos + w.length, q :: body⟩] false
  | token (pos : Nat) (w : List Char) (tok : Tok) (text shown rest : List Char) (ts : List Lexeme) (closed : Bool) :
      (∀ c ∈ w, isSpace c = true) → Munch tok text shown rest → Lexemes (pos + w.length + text.length) rest ts closed →
      Lexemes pos (w ++ (text ++ rest)) (⟨tok, pos + w.length, shown⟩ :: ts) closed

/-- Every quote at the start of a token is closed. -/
def Closed (line : List Char) : Prop := ∃ ts, Lexemes 0 line ts true

namespace Buffer

/-- The calls return these lexemes and then 0; the string of a word is its text when it is returned, and stays. -/
def Yields : State → List Lexeme → Prop
  | g, [] => g.nc = .eof
  | g, t :: ts => g.nc = t.tok ∧ g.np1 = some t.start ∧ ∃ g', g.next = some g' ∧
      (t.tok = .word → ∀ n g'', g'.nexts n = some g'' → StringAt g''.buf t.start t.text) ∧ Yields g' ts

/-- The same state with more characters at the end of the buffer. -/
def State.behind (g : State) (tail : List Char) : State := { g with buf := g.buf ++ tail }

/-- **What is behind the line does not matter**: it is not touched, and whatever it is, the calls leave the same. -/
def SelfContained (line : List Char) : Prop :=
  ∀ n, ∃ g : State, g.far ≤ line.length + 1 ∧ ∀ tail, calls n (line ++ nul :: tail) = some (g.behind tail)

end Buffer

/-! ## Every line has lexemes -/

theorem span_inWord (s : List Char) : ∃ w rest, s = w ++ rest ∧ (∀ d ∈ w, inWord d = true) ∧
    ∀ d, rest.head? = some d → inWord d = false := by
  refine ⟨s.takeWhile inWord, s.dropWhile inWord, List.takeWhile_append_dropWhile.symm,
    fun d hd => List.mem_takeWhile_imp hd, fun d hd => ?_⟩
  have h := List.head?_dropWhile_not inWord s
  rw [hd] at h
  simpa using h

theorem isSymbol_of_isDouble {c : Char} (h : isDouble c = true) : isSymbol c = true := by
  unfold isDouble at h
  unfold isSymbol
  simp only [List.mem_cons, List.not_mem_nil, or_false, decide_eq_true_eq] at h ⊢
  rcases h with rfl | rfl | rfl <;> decide

/-- **A line has lexemes**, be it closed or not. -/
theorem lexemes_total : ∀ (n : Nat) (s : List Char), s.length ≤ n → ∀ pos, ∃ ts closed, Lexemes pos s ts closed := by
  intro n
  induction n with
  | zero =>
    intro s hs pos
    obtain rfl := List.length_eq_zero_iff.1 (Nat.le_zero.1 hs)
    exact ⟨[], true, .done pos [] fun c hc => absurd hc List.not_mem_nil⟩
  | succ n ih =>
    intro s hs pos
    -- a lexeme behind the blanks, and the rest of the line
    obtain ⟨w, rest, rfl, hw, hrest⟩ : ∃ w rest, s = w ++ rest ∧ (∀ c ∈ w, isSpace c = true) ∧
        ∀ d, rest.head? = some d → isSpace d = false := by
      refine ⟨s.takeWhile isSpace, s.dropWhile isSpace, List.takeWhile_append_dropWhile.symm,
        fun d hd => List.mem_takeWhile_imp hd,
        fun d hd => ?_⟩
      have h := List.head?_dropWhile_not isSpace s
      rw [hd] at h
      simpa using h
    have hgo : ∀ {tok : Tok} {text shown rest : List Char}, Munch tok text shown rest → rest.length ≤ n →
        ∃ ts closed, Lexemes pos (w ++ (text ++ rest)) ts closed := by
      intro tok text shown rest hm hlen
      obtain ⟨ts, closed, hts⟩ := ih rest hlen (pos + w.length + text.length)
      exact ⟨_, closed, .token pos w tok text shown rest ts closed hw hm hts⟩
    rw [List.length_append] at hs
    cases rest with
    | nil => exact ⟨[], true, by rw [List.append_nil]; exact .done pos w hw⟩
    | cons c s =>
      rw [List.length_cons] at hs
      have hc : isSpace c = false := hrest c rfl
      by_cases hq : isQuote c = true
      · by_cases hclosed : c ∈ s
        · obtain ⟨body, rest, rfl, hbody⟩ := List.eq_append_cons_of_mem hclosed
          rw [List.length_append, List.length_cons] at hs
          have h := hgo (.quoted c body rest hq hbody) (by omega)
          rwa [List.cons_append, List.append_assoc, List.singleton_append] at h
        · exact ⟨_, false, .unclosed pos w c s hw hq hclosed⟩
      · by_cases hsym : isSymbol c = true
        · by_cases hd : isDouble c = true ∧ s.head? = some c
          · obtain ⟨s', rfl⟩ : ∃ s', s = c :: s' := by
              cases s with
              | nil => exact absurd hd.2 (by simp)
              | cons d s' => exact ⟨s', by rw [Option.some.inj hd.2]⟩
            rw [List.length_cons] at hs
            exact hgo (.double c s' hd.1) (by omega)
          · exact hgo (.single c s hsym hd) (by omega)
        · obtain ⟨word, rest, rfl, hword, hstop⟩ := span_inWord s
          rw [List.length_append] at hs
          have hin : inWord c = true := by
            unfold inWord
            rw [hc, Bool.eq_false_iff.2 hsym]
            rfl
          exact hgo (.word c word rest hin (by simpa using hq) hword hstop) (by omega)

/-! ## One call -/

namespace Buffer

theorem scan_append {go : Char → Bool} {d : Char} {v : List Char} (hd : go d = false) :
    ∀ {u : List Char}, (∀ c ∈ u, go c = true) →
    scan go (u ++ d :: v) = some u.length
  | [], _ => by
    show (if go d = true then _ else some 0) = _
    rw [hd]
    rfl
  | c :: u, hu => by
    show (if go c = true then (scan go (u ++ d :: v)).map (· + 1) else some 0) = _
    rw [if_pos (hu c List.mem_cons_self), scan_append hd fun x hx => hu x (List.mem_cons_of_mem _ hx)]
    rfl

theorem gettoken_blanks {s : List Char} : ∀ {w : List Char} {pos : Nat}, (∀ c ∈ w, isSpace c = true) →
    _gettoken pos (w ++ s) = (_gettoken (pos + w.length) s).map fun r =>
    { r with chars := List.replicate w.length nul ++ r.chars }
  | [], pos, _ => by
    show _gettoken pos s = (_gettoken pos s).map fun r => r
    exact Option.map_id'.symm
  | c :: w, pos, hw => by
    have hlen : pos + (c :: w).length = pos + 1 + w.length := by
      rw [List.length_cons]
      omega
    show (if isSpace c = true then (_gettoken (pos + 1) (w ++ s)).map _ else _) = _
    rw [if_pos (hw c List.mem_cons_self), gettoken_blanks fun x hx => hw x (List.mem_cons_of_mem _ hx),
      hlen, Option.map_map]
    rfl

/-- What a call makes of the characters of a token. -/
structure Munched (tok : Tok) (text shown rest left : List Char) : Prop where
  length : left.length = text.length
  word : tok = .word → left = shown ++ [nul] ∨ left = shown ∧ ∀ d, rest.head? = some d → inWord d = false
  -- a blank or a symbol ends the word before it
  head : ∀ d, text.head? = some d → inWord d = false → left.head? = some nul

theorem isQuote_cases {q : Char} (h : isQuote q = true) : q = '"' ∨ q = '`' := by
  unfold isQuote at h
  simpa using h

theorem isDouble_cases {c : Char} (h : isDouble c = true) : c = '>' ∨ c = '|' ∨ c = '&' := by
  unfold isDouble at h
  simpa using h

theorem isSymbol_plain {c : Char} (h : isSymbol c = true) :
    isSpace c = false ∧ c ≠ nul ∧ isQuote c = false ∧ symbolTok c ≠ .word := by
  unfold isSymbol at h
  simp only [List.mem_cons, List.not_mem_nil, or_false, decide_eq_true_eq] at h
  rcases h with rfl | rfl | rfl | rfl | rfl | rfl | rfl <;> decide

theorem inWord_plain {c : Char} (h : inWord c = true) : isSpace c = false ∧ isSymbol c = false := by
  unfold inWord at h
  simpa using h

/-- **One token.** -/
theorem gettoken_munch {tok : Tok} {text shown rest : List Char} (pos : Nat) (h : Munch tok text shown rest)
    (hn : nul ∉ text ++ rest) :
    ∃ left far, Munched tok text shown rest left ∧ far ≤ pos + text.length + 1 ∧ ∀ tail,
      _gettoken pos (text ++ (rest ++ nul :: tail)) =
        some ⟨tok, some pos, some (pos + text.length), left ++ (rest ++ nul :: tail), far⟩ := by
  cases h with
  | quoted q body rest hq hbody =>
    have hplain : isSpace q = false ∧ q ≠ nul ∧ inWord q = true := by
      rcases isQuote_cases hq with rfl | rfl <;> decide
    have hlen : (q :: (body ++ [q])).length = body.length + 2 := by simp
    refine ⟨q :: (body ++ [nul]), pos + body.length + 2,
      ⟨by simp, fun _ => .inl rfl, fun d hd hin => ?_⟩, by rw [hlen]; omega, fun tail => ?_⟩
    · obtain rfl : q = d := by simpa using hd
      rw [hplain.2.2] at hin
      cases hin
    · have hscan : scan (fun d => d != nul && d != q) (body ++ q :: (rest ++ nul :: tail)) = some body.length := by
        refine scan_append (by simp) fun c hc => ?_
        have hcn : c ≠ nul := fun h => hn (by rw [← h]; simp [hc])
        have hcq : c ≠ q := fun h => hbody (h ▸ hc)
        simp [hcn, hcq]
      have hset : (body ++ q :: (rest ++ nul :: tail)).set body.length nul = body ++ nul :: (rest ++ nul :: tail) := by
        rw [List.set_append_right _ _ (Nat.le_refl _), Nat.sub_self, List.set_cons_zero]
      rw [hlen, List.cons_append, List.append_assoc, List.singleton_append]
      show (if isSpace q = true then _ else if q = nul then _ else if isQuote q = true then _ else _) = _
      rw [if_neg (by rw [hplain.1]; exact Bool.false_ne_true), if_neg hplain.2.1, if_pos hq, hscan,
        Option.map_some, hset,
        List.cons_append, List.append_assoc, List.singleton_append]
      rfl
  | double c rest hd =>
    have hplain := isSymbol_plain (isSymbol_of_isDouble hd)
    refine ⟨[nul, nul], pos + 2, ⟨rfl, fun hw => ?_, fun _ _ _ => rfl⟩, Nat.le_succ _, fun tail => ?_⟩
    · rcases isDouble_cases hd with rfl | rfl | rfl <;> cases hw
    · show (if isSpace c = true then _ else if c = nul then _ else if isQuote c = true then _
        else if isDouble c = true then _ else _) = _
      rw [if_neg (by rw [hplain.1]; exact Bool.false_ne_true), if_neg hplain.2.1,
        if_neg (by rw [hplain.2.2.1]; exact Bool.false_ne_true),
        if_pos hd]
      exact if_pos rfl
  | single c rest hs hd =>
    have hplain := isSymbol_plain hs
    refine ⟨[nul], if isDouble c = true then pos + 2
      else pos + 1, ⟨rfl, fun hw => absurd hw hplain.2.2.2, fun _ _ _ => rfl⟩, ?_, fun tail => ?_⟩
    · show _ ≤ pos + 1 + 1
      split <;> omega
    · show (if isSpace c = true then _ else if c = nul then _ else if isQuote c = true then _
        else if isDouble c = true then _ else _) = _
      rw [if_neg (by rw [hplain.1]; exact Bool.false_ne_true), if_neg hplain.2.1,
        if_neg (by rw [hplain.2.2.1]; exact Bool.false_ne_true)]
      by_cases hdc : isDouble c = true
      · rw [if_pos hdc, if_pos hdc]
        cases rest with
        | nil =>
          have hne : ¬nul = c := Ne.symm hplain.2.1
          exact if_neg hne
        | cons d rest =>
          have hne : ¬d = c := fun hc => hd ⟨hdc, by rw [hc]; rfl⟩
          exact if_neg hne
      · rw [if_neg hdc, if_neg hdc, if_pos hs]
        rfl
  | word c w rest hc hq hw hstop =>
    obtain ⟨hspace, hsym⟩ := inWord_plain hc
    have hcn : c ≠ nul := fun h => hn (by rw [← h]; simp)
    have hdbl : isDouble c = false := by
      rw [Bool.eq_false_iff]
      intro hd
      rw [isSymbol_of_isDouble hd] at hsym
      cases hsym
    refine ⟨c :: w, pos + w.length + 2,
      ⟨rfl, fun _ => .inr ⟨rfl, hstop⟩, fun d hd hin => ?_⟩, by rw [List.length_cons]; omega, fun tail => ?_⟩
    · obtain rfl : c = d := by simpa using hd
      rw [hc] at hin
      cases hin
    · have hgo : ∀ d ∈ w, (d != nul && inWord d) = true := by
        intro d hd
        have hdn : d ≠ nul := fun h => hn (by rw [← h]; simp [hd])
        simp [hdn, hw d hd]
      have hscan : scan (fun d => d != nul && inWord d) (w ++ (rest ++ nul :: tail)) = some w.length := by
        cases rest with
        | nil => exact scan_append (by simp) hgo
        | cons d rest => exact scan_append (by rw [hstop d rfl, Bool.and_false]) hgo
      rw [List.cons_append]
      show (if isSpace c = true then _ else if c = nul then _ else if isQuote c = true then _
        else if isDouble c = true then _ else
        if isSymbol c = true then _ else _) = _
      rw [if_neg (by rw [hspace]; exact Bool.false_ne_true), if_neg hcn, if_neg (by rw [hq]; exact Bool.false_ne_true),
        if_neg (by rw [hdbl]; exact Bool.false_ne_true), if_neg (by rw [hsym]; exact Bool.false_ne_true), hscan]
      rfl

/-! ## The calls one after the other -/

/-- The text of a word is in `front`, up to its end: there, or it is the next character that is zeroed. -/
def Ends (front rest : List Char) (t : Lexeme) : Prop :=
  (∃ u, front = u ++ (t.text ++ [nul]) ∧ u.length = t.start) ∨
    ∃ u, front = u ++ t.text ∧ u.length = t.start ∧ ∀ d, rest.head? = some d → inWord d = false

/-- **The calls to come return these lexemes**; the buffer is shown up to the end of a line of `n` characters. -/
inductive Ready (n : Nat) : State → List Lexeme → Bool → Prop where
  | eof (buf : List Char) (far : Nat) : far ≤ n + 1 → Ready n ⟨.eof, none, none, buf, far⟩ [] true
  /-- The lookahead has passed the end of the line. -/
  | cut (t : Lexeme) (buf : List Char) (far : Nat) : t.tok = .word → buf.length = n + 1 → far ≤ n + 1 →
      Ready n ⟨t.tok, some t.start, some (n + 1), buf, far⟩ [t] false
  | token (front rest : List Char) (t : Lexeme) (ts : List Lexeme) (closed : Bool) (far : Nat) : nul ∉ rest →
      front.length + rest.length = n → Lexemes front.length rest ts closed → far ≤ n + 1 →
        (t.tok = .word → Ends front rest t) →
      t.tok ≠ .eof → Ready n ⟨t.tok, some t.start, some front.length, front ++ (rest ++ [nul]), far⟩ (t :: ts) closed

theorem symbolTok_ne_eof (c : Char) : symbolTok c ≠ .eof := by
  unfold symbolTok
  repeat' split
  all_goals exact Tok.noConfusion

theorem munch_ne_eof {tok : Tok} {text shown rest : List Char} (h : Munch tok text shown rest) :
    tok ≠ .eof ∧ text ≠ [] := by
  cases h with
  | double c rest hd =>
    refine ⟨?_, List.cons_ne_nil _ _⟩
    rcases isDouble_cases hd with rfl | rfl | rfl <;> decide
  | single c rest hs hd => exact ⟨symbolTok_ne_eof c, List.cons_ne_nil _ _⟩
  | _ => exact ⟨Tok.noConfusion, List.cons_ne_nil _ _⟩

/-- What a lookahead from `pos` on leaves. -/
structure Looked (n pos : Nat) (front s : List Char) (far : Nat) (ts : List Lexeme)
    (closed : Bool) (g : State) : Prop where
  ready : Ready n g ts closed
  runs : ∀ tail, lookAhead (some pos) (front ++ (s ++ nul :: tail)) far = some (g.behind tail)
  before : ∃ v, g.buf = front ++ v ∧ ((∀ d, s.head? = some d → inWord d = false) → v.head? = some nul)
  after : ∀ p, g.np2 = some p → pos < p

theorem lookAhead_append (front s : List Char) (far : Nat) : lookAhead (some front.length) (front ++ s) far =
    (_gettoken front.length s).map fun r => ⟨r.tok, r.p1, r.p2, front ++ r.chars, max far r.far⟩ := by
  unfold lookAhead
  simp only [List.drop_left, List.take_left]

theorem replicate_head {k : Nat} {v : List Char} (h : k = 0 → v.head? = some nul) :
    (List.replicate k nul ++ v).head? = some nul := by
  cases k with
  | zero => exact h rfl
  | succ k => rfl

/-- **The next lexeme is looked up.** -/
theorem lookAhead_ready {n far : Nat} {front s : List Char} {ts : List Lexeme} {closed : Bool}
    (h : Lexemes front.length s ts closed) (hn : nul ∉ s) (hlen : front.length + s.length = n) (hfar : far ≤ n + 1) :
    ∃ g, Looked n front.length front s far ts closed g := by
  generalize hpos : front.length = pos at h hlen
  cases h with
  | done _ w hw =>
    refine ⟨⟨.eof, none, none, front ++ (List.replicate s.length nul ++ [nul]), max far (pos + s.length + 1)⟩,
      .eof _ _ (by omega), fun tail => ?_,
      ⟨_, rfl, fun _ => replicate_head fun _ => rfl⟩, fun p hp => by cases hp⟩
    have hend : _gettoken (pos + s.length) (nul :: tail) = some ⟨.eof, none, none, nul :: tail, pos + s.length + 1⟩ :=
      rfl
    rw [← hpos, lookAhead_append, hpos, gettoken_blanks hw, hend]
    unfold State.behind
    simp
  | unclosed _ w q body hw hq hbody =>
    obtain ⟨hqs, hqn⟩ : isSpace q = false ∧ q ≠ nul := by
      rcases isQuote_cases hq with rfl | rfl <;> decide
    have hend : pos + w.length + body.length + 2 = n + 1 := by
      rw [List.length_append, List.length_cons] at hlen
      omega
    refine ⟨⟨.word, some (pos + w.length), some (n + 1), front ++
      (List.replicate w.length nul ++ (q :: (body ++ [nul]))),
      max far (n + 1)⟩, .cut ⟨.word, pos + w.length, q :: body⟩ _ _ rfl ?_ (by omega), fun tail => ?_, ⟨_,
        rfl, fun hh => ?_⟩,
      fun p hp => by cases hp; omega⟩
    · simp only [List.length_append, List.length_replicate, List.length_cons, List.length_nil]
      omega
    · have hscan : scan (fun d => d != nul && d != q) (body ++ nul :: tail) = some body.length := by
        refine scan_append (by simp) fun c hc => ?_
        have hcn : c ≠ nul := fun h => hn (by rw [← h]; simp [hc])
        have hcq : c ≠ q := fun h => hbody (h ▸ hc)
        simp [hcn, hcq]
      have hset : (body ++ nul :: tail).set body.length nul = body ++ nul :: tail := by
        rw [List.set_append_right _ _ (Nat.le_refl _), Nat.sub_self, List.set_cons_zero]
      have hone : _gettoken (pos + w.length) (q :: (body ++ nul :: tail)) =
          some ⟨.word, some (pos + w.length), some (n + 1), q :: (body ++ nul :: tail), n + 1⟩ := by
        show (if isSpace q = true then _ else if q = nul then _ else if isQuote q = true then _ else _) = _
        rw [if_neg (by rw [hqs]; exact Bool.false_ne_true), if_neg hqn, if_pos hq, hscan, Option.map_some, hset, hend]
      rw [← hpos, lookAhead_append, hpos, List.append_assoc, List.cons_append, gettoken_blanks hw, hone]
      unfold State.behind
      simp
    · refine replicate_head fun hw0 => ?_
      have hw0 : w = [] := List.length_eq_zero_iff.1 hw0
      have hin := hh q (by rw [hw0]; rfl)
      rcases isQuote_cases hq with rfl | rfl <;> exact absurd hin (by decide)
  | token _ w tok text shown rest ts _ hw hm hts =>
    have hntext : nul ∉ text ++ rest := fun hc => hn (List.mem_append_right _ hc)
    have hnrest : nul ∉ rest := fun hc => hntext (List.mem_append_right _ hc)
    obtain ⟨left, far', hleft, hfar', hone⟩ := gettoken_munch (pos + w.length) hm hntext
    obtain ⟨hne, hnil⟩ := munch_ne_eof hm
    have htext : 0 < text.length := List.length_pos_iff.2 hnil
    rw [List.length_append, List.length_append] at hlen
    let front' := front ++ (List.replicate w.length nul ++ left)
    have hfront : front'.length = pos + w.length + text.length := by
      show (front ++ (List.replicate w.length nul ++ left)).length = _
      rw [List.length_append, List.length_append, List.length_replicate, hleft.length, hpos, Nat.add_assoc]
    refine ⟨⟨tok, some (pos + w.length), some front'.length, front' ++ (rest ++ [nul]), max far far'⟩,
      .token front' rest ⟨tok, pos + w.length, shown⟩ ts closed (max far far') hnrest (by omega)
        (by rw [hfront]; exact hts) (by omega)
        (fun hword => ?_) hne, fun tail => ?_,
        ⟨List.replicate w.length nul ++ left ++ (rest ++ [nul]), ?_, fun hh => ?_⟩,
      fun p hp => by cases hp; omega⟩
    · have hu : (front ++ List.replicate w.length nul).length = pos + w.length := by
        rw [List.length_append, List.length_replicate, hpos]
      rcases hleft.word hword with hl | ⟨hl, hstop⟩
      · exact .inl ⟨_, by rw [← hl]; exact (List.append_assoc _ _ _).symm, hu⟩
      · exact .inr ⟨_, by rw [← hl]; exact (List.append_assoc _ _ _).symm, hu, hstop⟩
    · rw [← hpos, lookAhead_append, hpos, List.append_assoc w, List.append_assoc text, gettoken_blanks hw, hone, hfront]
      unfold State.behind
      simp [front']
    · simp [front']
    · rw [List.append_assoc]
      refine replicate_head fun hw0 => ?_
      have hw0 : w = [] := List.length_eq_zero_iff.1 hw0
      obtain ⟨d, text', rfl⟩ := List.exists_cons_of_ne_nil hnil
      have hl := hleft.head d rfl (hh d (by rw [hw0]; rfl))
      rw [List.head?_append, hl]
      rfl

/-- `g'` follows `g`, and what is before the token to come stays as it is. -/
structure Follows (g g' : State) : Prop where
  runs : ∀ tail, (g.behind tail).next = some (g'.behind tail)
  keeps : ∀ k, (∀ p, g.np2 = some p → k ≤ p) → g'.buf.take k = g.buf.take k ∧ ∀ p, g'.np2 = some p → k ≤ p

/-- The word is in the buffer with its end, and the token to come is behind it. -/
def Settled (g : State) (t : Lexeme) : Prop :=
  ∃ u v, g.buf = u ++ (t.text ++ nul :: v) ∧ u.length = t.start ∧ ∀ p, g.np2 = some p → t.start + t.text.length + 1 ≤ p

variable {n : Nat} {g : State} {t : Lexeme} {ts : List Lexeme} {closed : Bool}

theorem Ready.far_le (h : Ready n g ts closed) : g.far ≤ n + 1 := by
  cases h <;> assumption

/-- **One call**, unless the lookahead has passed the end of the line. -/
theorem Ready.next (h : Ready n g (t :: ts) closed) :
    (∃ g', Ready n g' ts closed ∧ Follows g g' ∧ (t.tok = .word → Settled g' t)) ∨
      closed = false ∧ g.np2 = some (n + 1) ∧ g.buf.length = n + 1 := by
  cases h with
  | cut t buf far ht hbuf hfar => exact .inr ⟨rfl, rfl, hbuf⟩
  | token front rest t ts closed far hn hlen hts hfar hends hne =>
    obtain ⟨g', hready, hruns, ⟨v, hbuf, hhead⟩, hafter⟩ := lookAhead_ready hts hn hlen hfar
    refine .inl ⟨g', hready, ⟨fun tail => ?_, fun k hk => ⟨?_, fun p hp => ?_⟩⟩, fun hword => ?_⟩
    · rw [← hruns tail]
      unfold State.next State.behind
      simp
    · have hle : k ≤ front.length := hk _ rfl
      show g'.buf.take k = (front ++ (rest ++ [nul])).take k
      rw [hbuf, List.take_append_of_le_length hle, List.take_append_of_le_length hle]
    · exact Nat.le_of_lt (Nat.lt_of_le_of_lt (hk _ rfl) (hafter p hp))
    · rcases hends hword with ⟨u, hu, hstart⟩ | ⟨u, hu, hstart, hstop⟩
      · refine ⟨u, v, by rw [hbuf, hu]; simp, hstart, fun p hp => ?_⟩
        have h := hafter p hp
        rw [hu, List.length_append, List.length_append, List.length_singleton] at h
        omega
      · obtain ⟨v', rfl⟩ : ∃ v', v = nul :: v' := by
          cases v with
          | nil => cases hhead hstop
          | cons c v' => exact ⟨v', by rw [Option.some.inj (hhead hstop)]⟩
        refine ⟨u, v', by rw [hbuf, hu, List.append_assoc], hstart, fun p hp => ?_⟩
        have h := hafter p hp
        rw [hu, List.length_append] at h
        omega

theorem Ready.idle (h : Ready n g [] closed) : Follows g g := by
  cases h with
  | eof buf far hfar => exact ⟨fun _ => rfl, fun k _ => ⟨rfl, fun p hp => by cases hp⟩⟩

/-- **Calls one after the other**, on a line that is closed. -/
theorem Ready.nexts : ∀ (m : Nat) {g : State} {ts : List Lexeme}, Ready n g ts true → ∃ g' : State, g'.far ≤ n + 1 ∧
    (∀ tail, (g.behind tail).nexts m = some (g'.behind tail)) ∧
    ∀ k, (∀ p, g.np2 = some p → k ≤ p) → g'.buf.take k = g.buf.take k
  | 0, g, _, h => ⟨g, h.far_le, fun _ => rfl, fun _ _ => rfl⟩
  | m + 1, g, ts, h => by
    obtain ⟨g₁, ts₁, h₁, hf⟩ : ∃ g₁ ts₁, Ready n g₁ ts₁ true ∧ Follows g g₁ := by
      cases ts with
      | nil => exact ⟨g, [], h, h.idle⟩
      | cons t ts =>
        rcases h.next with ⟨g₁, h₁, hf, -⟩ | ⟨hc, -⟩
        · exact ⟨g₁, ts, h₁, hf⟩
        · cases hc
    obtain ⟨g', hfar, hruns, hkeeps⟩ := Ready.nexts m h₁
    refine ⟨g', hfar, fun tail => ?_, fun k hk => ?_⟩
    · show (g.behind tail).next.bind _ = _
      rw [hf.runs tail]
      exact hruns tail
    · obtain ⟨htake, hnp⟩ := hf.keeps k hk
      exact (hkeeps k hnp).trans htake

/-- **A word stays what it is.** -/
theorem Settled.stays (hs : Settled g t) (h : Ready n g ts true) (tail : List Char) (m : Nat) {g' : State}
    (hr : (g.behind tail).nexts m = some g') : StringAt g'.buf t.start t.text := by
  obtain ⟨u, v, hbuf, hstart, hbefore⟩ := hs
  obtain ⟨g₁, -, hruns, hkeeps⟩ := h.nexts m
  rw [hruns tail] at hr
  cases hr
  have htake := hkeeps (t.start + t.text.length + 1) hbefore
  have hlen : (u ++ (t.text ++ [nul])).length = t.start + t.text.length + 1 := by
    rw [List.length_append, List.length_append, List.length_singleton, hstart, Nat.add_assoc]
  have hold : g.buf.take (t.start + t.text.length + 1) = u ++ (t.text ++ [nul]) := by
    rw [hbuf, ← hlen, show u ++ (t.text ++ nul :: v) = u ++ (t.text ++ [nul]) ++ v by simp, List.take_left]
  have hsplit : g₁.buf = u ++ (t.text ++ [nul]) ++ g₁.buf.drop (t.start + t.text.length + 1) := by
    conv_lhs => rw [← List.take_append_drop (t.start + t.text.length + 1) g₁.buf, htake, hold]
  generalize g₁.buf.drop (t.start + t.text.length + 1) = rest at hsplit
  refine ⟨rest ++ tail, ?_⟩
  show (g₁.buf ++ tail).drop t.start = _
  rw [hsplit, ← hstart]
  simp

theorem Ready.yields : ∀ {ts : List Lexeme} {g : State}, Ready n g ts true → ∀ tail, Yields (g.behind tail) ts
  | [], g, h, tail => by
    cases h with
    | eof buf far hfar => rfl
  | t :: ts, g, h, tail => by
    have hfirst : g.nc = t.tok ∧ g.np1 = some t.start := by
      cases h with
      | token front rest t ts closed far _ _ _ _ _ _ => exact ⟨rfl, rfl⟩
    rcases h.next with ⟨g', h', hf, hset⟩ | ⟨hc, -⟩
    · exact ⟨hfirst.1, hfirst.2, g'.behind tail, hf.runs tail,
        fun hword m g'' hr => (hset hword).stays h' tail m hr, h'.yields tail⟩
    · cases hc

/-- **A line that ends in quotes** is passed. -/
theorem Ready.overruns :
    ∀ {ts : List Lexeme} {g : State}, Ready n g ts false → ∃ m g', (g.behind [nul]).nexts m = some g' ∧ n + 1 < g'.far
  | [], g, h => by cases h
  | t :: ts, g, h => by
    rcases h.next with ⟨g₁, h₁, hf, -⟩ | ⟨-, hnp, hbuf⟩
    · obtain ⟨m, g', hm, hfar⟩ := h₁.overruns
      refine ⟨m + 1, g', ?_, hfar⟩
      show (g.behind [nul]).next.bind _ = _
      rw [hf.runs]
      exact hm
    · have hpast : (g.behind [nul]).next = some ⟨.eof, none, none, g.buf ++ [nul], max g.far (n + 2)⟩ := by
        show lookAhead g.np2 (g.buf ++ [nul]) g.far = _
        have hend : _gettoken g.buf.length [nul] = some ⟨.eof, none, none, [nul], g.buf.length + 1⟩ := rfl
        rw [hnp, ← hbuf, lookAhead_append, hend, hbuf]
        rfl
      refine ⟨1, _, by show (g.behind [nul]).next.bind _ = _; rw [hpast]; rfl, ?_⟩
      show n + 1 < max g.far (n + 2)
      omega

theorem start_ready {line : List Char} {ts : List Lexeme} {closed : Bool} (hn : nul ∉ line)
    (h : Lexemes 0 line ts closed) :
    ∃ g, Ready line.length g ts closed ∧ ∀ tail, lookAhead (some 0) (line ++ nul :: tail) 0 = some (g.behind tail) := by
  obtain ⟨g, hready, hruns, -, -⟩ : ∃ g, Looked line.length ([] : List Char).length [] line 0 ts closed g :=
    lookAhead_ready h hn (Nat.zero_add _) (Nat.zero_le _)
  exact ⟨g, hready, hruns⟩

end Buffer

open Buffer in
/-- **`gettoken` is the lexer of the line**: on a line whose quotes are closed, whatever is behind it, the calls return
its lexemes and then 0, and a word is its text in the buffer from then on. -/
theorem gettoken_lexes (line tail : List Char) (hn : nul ∉ line) (hc : Closed line) :
    ∃ g, calls 0 (line ++ nul :: tail) = some g ∧ (∃ ts, Lexemes 0 line ts true) ∧
    ∀ ts, Lexemes 0 line ts true → Yields g ts := by
  obtain ⟨ts, hts⟩ := hc
  obtain ⟨g, -, hruns⟩ := start_ready hn hts
  refine ⟨g.behind tail, by rw [calls, hruns tail]; rfl, ⟨ts, hts⟩, fun ts' hts' => ?_⟩
  obtain ⟨g', hready, hruns'⟩ := start_ready hn hts'
  have heq : g'.behind tail = g.behind tail := Option.some.inj ((hruns' tail).symm.trans (hruns tail))
  rw [← heq]
  exact hready.yields tail

theorem closed_ls : Closed ['l', 's', ' ', '"', 'a', '"'] :=
  ⟨_, .token 0 [] .word ['l', 's'] _ [' ', '"', 'a', '"'] _ true (fun _ h => absurd h List.not_mem_nil)
    (.word 'l' ['s'] _ rfl rfl (List.all_eq_true.1 rfl) fun _ h => Option.some.inj h ▸ rfl)
    (.token 2 [' '] .word ['"', 'a', '"'] _ [] _ true (List.all_eq_true.1 rfl) (.quoted '"' ['a'] [] rfl (by decide))
      (.done 6 [] fun _ h => absurd h List.not_mem_nil))⟩

open Buffer in
theorem gettoken_lexes_ls : ∃ g, calls 0 (['l', 's', ' ', '"', 'a', '"'] ++ nul :: []) = some g ∧
    (∃ ts, Lexemes 0 ['l', 's', ' ', '"', 'a', '"'] ts true) ∧
    ∀ ts, Lexemes 0 ['l', 's', ' ', '"', 'a', '"'] ts true → Yields g ts :=
  gettoken_lexes ['l', 's', ' ', '"', 'a', '"'] [] (by decide +kernel) closed_ls

/-! ## Behind the line -/

/-- `main` cuts the line at the first `#`: what is behind stays in the buffer. -/
def cutComment : List Char → List Char
  | [] => []
  | c :: s => if c = nul then c :: s else if c = '#' then nul :: s else c :: cutComment s

theorem cutComment_eq {text : List Char} :
    ∀ {line : List Char}, nul ∉ line → '#' ∉ line → cutComment (line ++ '#' :: text) = line ++ nul :: text
  | [], _, _ => rfl
  | c :: line, hn, hc => by
    obtain ⟨hcn, hln⟩ := not_or.1 fun h => hn (List.mem_cons.2 h)
    obtain ⟨hcc, hlc⟩ := not_or.1 fun h => hc (List.mem_cons.2 h)
    show (if c = nul then _ else if c = '#' then _ else c :: cutComment (line ++ '#' :: text)) = _
    rw [if_neg (Ne.symm hcn), if_neg (Ne.symm hcc), cutComment_eq hln hlc]
    rfl

open Buffer in
theorem confined_of_closed {line : List Char} (hn : nul ∉ line) (h : Closed line) : SelfContained line := by
  obtain ⟨ts, hts⟩ := h
  obtain ⟨g, hready, hruns⟩ := start_ready hn hts
  intro m
  obtain ⟨g', hfar, hnexts, -⟩ := hready.nexts m
  refine ⟨g', hfar, fun tail => ?_⟩
  unfold calls
  rw [hruns tail]
  exact hnexts tail

open Buffer in
/-- **The tokens of a line depend on the line alone exactly when its quotes are closed.** -/
theorem line_confined_iff (line : List Char) (hn : nul ∉ line) : SelfContained line ↔ Closed line := by
  refine ⟨fun h => ?_, confined_of_closed hn⟩
  obtain ⟨ts, closed, hts⟩ := lexemes_total line.length line (Nat.le_refl _) 0
  cases closed with
  | true => exact ⟨ts, hts⟩
  | false =>
    obtain ⟨g, hready, hruns⟩ := start_ready hn hts
    obtain ⟨m, g', hm, hfar⟩ := hready.overruns
    obtain ⟨g₁, hle, hall⟩ := h m
    have hcalls : calls m (line ++ nul :: [nul]) = some g' := by
      unfold calls
      rw [hruns]
      exact hm
    rw [hall [nul]] at hcalls
    cases hcalls
    exact absurd hle (Nat.not_le.2 hfar)

theorem line_confined_ls : Buffer.SelfContained ['l', 's', ' ', '"', 'a', '"'] ↔
    Closed ['l', 's', ' ', '"', 'a', '"'] :=
  line_confined_iff _ (by decide +kernel)

/-- **A quote is left open before a comment**: the comment is a word. -/
theorem line_confined_fails : ¬(∀ line : List Char, nul ∉ line → Buffer.SelfContained line) ∧
    (Buffer.calls 1 (cutComment ['"', 'a', '#', 'r', 'm', nul])).any (fun g =>
      decide (g.nc = .word ∧ g.np1 = some 3)) = true := by
  refine ⟨fun hall => ?_, by decide +kernel⟩
  obtain ⟨g, hfar, hrun⟩ := hall ['"', 'a'] (by decide +kernel) 1
  have hone : Buffer.calls 1 (['"', 'a'] ++ nul :: [nul]) =
      some ⟨.eof, none, none, ['"', 'a', nul, nul], 4⟩ := by decide +kernel
  rw [hrun [nul]] at hone
  have hg : g.far = 4 := congrArg Buffer.State.far (Option.some.inj hone)
  rw [hg] at hfar
  exact absurd hfar (by decide +kernel)

end Mos.Sh
