import Mathlib.Data.List.GetD
import Mos.History
import Mos.Lib.While
/-!
# LineEditor — the line that is typed (`readline` of `user/sh.c`)

The index of the loop is the place of the next character as well, and a backspace or an arrow moves it.  The memory
around `buf` is what it is; the places of `buf` that are read or written are kept in a list.  Where the input ends,
the shell is at an end: `none`.  What is printed is left out.
-/
namespace Mos.Sh

/-- `sizeof buf` -/
def bufSize : Nat := 1024

/-- The character `\b`. -/
def bs : Char := Char.ofNat 8

/-- The character 0x7f. -/
def del : Char := Char.ofNat 0x7f

/-- The character 0x1b. -/
def esc : Char := Char.ofNat 0x1b

structure Readline where
  /-- The memory from `buf` on. -/
  buf : Int → Char
  i : Int
  /-- The places that were read or written. -/
  touched : List Int
  input : List Char
  /-- `now_line_index` -/
  nowLineIndex : Int
  returned : Bool

inductive Dir where
  | up
  | down
  | other
deriving DecidableEq

def readDir : List Char → Option (Dir × List Char)
  | [] => none
  | ch :: input =>
    if ch = '[' then
      match input with
      | [] => none
      | ch :: input => some (if ch = 'A' then .up else if ch = 'B' then .down else .other, input)
    else some (.other, input)

namespace Readline

def touch (s : Readline) (j : Int) : Readline := { s with touched := j :: s.touched }

/-- The first places. -/
def touchAll (s : Readline) (n : Nat) : Readline :=
  { s with touched := (List.range n).map (fun j : Nat => (j : Int)) ++ s.touched }

/-- `buf[j] = c` -/
def set (s : Readline) (j : Int) (c : Char) : Readline :=
  { s with buf := Function.update s.buf j c, touched := j :: s.touched }

/-- The string in `buf`. -/
def line (s : Readline) : List Char := ((List.range bufSize).map fun j : Nat => s.buf j).takeWhile (· != nul)

/-- `memset(buf, 0, 1024)` -/
def memset (s : Readline) : Readline :=
  { s with buf := fun j => if 0 ≤ j ∧ j < bufSize then nul else s.buf j }.touchAll bufSize

/-- `strcpy(buf, l)` -/
def copy (s : Readline) (l : List Char) : Readline :=
  { s with buf := fun j => if 0 ≤ j ∧ j ≤ l.length then l.getD j.toNat nul else s.buf j }.touchAll (l.length + 1)

/-- The branch of `UP` in `tackle_dir`; `now_cmd_buf` is not used. -/
def up (m : Mosh) (s : Readline) : Readline :=
  let s := if s.nowLineIndex + 1 = m.allLineCount then s.touchAll (s.line.length + 1) else s
  if s.nowLineIndex > -1 then
    let l := (m.allLines s.nowLineIndex.toNat).str
    { (s.memset.copy l).set (l.length - 1) nul with nowLineIndex := s.nowLineIndex - 1 }
  else s

def tackleDir (m : Mosh) (s : Readline) : Option Readline :=
  (readDir s.input).map fun (op, input) =>
    let s := { s with input := input }.touchAll (s.line.length + 1)
    if op = .up then s.up m else s

/-- A backspace, and the test that follows it. -/
def erase (s : Readline) : Readline :=
  if s.buf s.i = bs ∨ s.buf s.i = del then
    let i := if s.i > 0 then s.i - 2 else -1
    { (s.touch s.i).touch i with i := i }
  else s.touch s.i

/-- An escape. -/
def escape (m : Mosh) (s : Readline) : Option Readline :=
  if s.buf s.i = esc then tackleDir m { (s.touch s.i).set s.i nul with i := s.i - 1 } else some (s.touch s.i)

/-- The end of the line, or the next turn. -/
def next (s : Readline) : Readline :=
  if s.buf s.i = '\r' ∨ s.buf s.i = '\n' then { (s.touch s.i).set s.i nul with returned := true }
  else { s.touch s.i with i := s.i + 1 }

/-- The body of the loop. -/
def turn (m : Mosh) (s : Readline) : Option Readline :=
  match s.input with
  | [] => none
  | c :: input => (escape m (erase { s.set s.i c with input := input })).map next

/-- `i < n`, where `n` is unsigned. -/
def goes (s : Readline) : Bool := !s.returned && decide (0 ≤ s.i ∧ s.i < bufSize)

/-- The end of a line that is too long is read. -/
def skip (s : Readline) : Readline :=
  { s.set 0 nul with input := (s.input.dropWhile fun c => c != '\r' && c != '\n').tail }

end Readline

/-- `readline(buf, sizeof buf)` -/
def readline (m : Mosh) (memory : Int → Char) (input : List Char) : Option Readline :=
  (whileDo Readline.goes (Readline.turn m) (input.length + 1)
    (Readline.memset ⟨memory, 0, [], input, m.nowLineIndex, false⟩)).map
    fun s => if s.returned then s else s.skip

/-- **Every place that was read or written is in `buf`.** -/
def Readline.Inside (s : Readline) : Prop := ∀ j ∈ s.touched, 0 ≤ j ∧ j < bufSize

/-! ## Keys -/

inductive Key where
  | char (c : Char)
  | backspace (c : Char)
  | up

/-- What a key sends. -/
def Key.sends : Key → List Char
  | .char c => [c]
  | .backspace c => [c]
  | .up => [esc, '[', 'A']

/-- A character of a line. -/
def LineChar (c : Char) : Prop := c ≠ nul ∧ c ≠ esc ∧ c ≠ '\r' ∧ c ≠ '\n'

instance (c : Char) : Decidable (LineChar c) := inferInstanceAs (Decidable (_ ∧ _))

/-- The keys of the editor. -/
def Key.Valid : Key → Prop
  | .char c => LineChar c ∧ c ≠ bs ∧ c ≠ del
  | .backspace c => c = bs ∨ c = del
  | .up => True

instance : (k : Key) → Decidable k.Valid
  | .char _ => inferInstanceAs (Decidable (_ ∧ _))
  | .backspace _ => inferInstanceAs (Decidable (_ ∨ _))
  | .up => inferInstanceAs (Decidable True)

/-- The entries before `now_line_index`, the last one first. -/
def Recalls (m : Mosh) (now : Int) : List (List Char) → Prop
  | [] => now = -1
  | l :: prev => now = prev.length ∧ (m.allLines prev.length).str = l ++ ['\n'] ∧ Recalls m (now - 1) prev

/-- A line that is edited, and the entries that can be recalled. -/
structure Draft where
  line : List Char
  prev : List (List Char)

/-- A key of an editor, in which Up makes something of an entry and the line. -/
def Draft.step (fetch : List Char → List Char → List Char) (d : Draft) : Key → Draft
  | .char c => { d with line := d.line ++ [c] }
  | .backspace _ => { d with line := d.line.dropLast }
  | .up => match d.prev with
    | [] => d
    | l :: prev => ⟨fetch l d.line, prev⟩

/-- **The reference editor**: Up replaces the line. -/
def Draft.type : Draft → Key → Draft := Draft.step fun l _ => l

/-- The line of the reference editor. -/
def typed (prev : List (List Char)) (keys : List Key) : List Char := (keys.foldl Draft.type ⟨[], prev⟩).line

/-- **`readline` is the editor**: it returns the line that was typed, reads nothing behind it, and keeps to `buf`. -/
def ReadsTyped (m : Mosh) (prev : List (List Char)) (keys : List Key) (enter : Char) (memory : Int → Char)
    (rest : List Char) : Prop :=
  ∃ s, readline m memory (keys.flatMap Key.sends ++ enter :: rest) = some s ∧
    s.line = typed prev keys ∧ s.input = rest ∧
    s.Inside

/-! ## The condition -/

/-- The place of the next character. -/
def cursor (n : Nat) : List Key → Nat
  | [] => n
  | .char _ :: keys => cursor (n + 1) keys
  | .backspace _ :: keys => cursor (n - 1) keys
  | .up :: keys => cursor n keys

/-- How often Up is typed. -/
def ups : List Key → Nat
  | [] => 0
  | .up :: keys => ups keys + 1
  | .char _ :: keys | .backspace _ :: keys => ups keys

/-- **No key finds the cursor too far left**, and what is recalled leaves room for its end. -/
def Roomy (n : Nat) (prev : List (List Char)) : List Key → Prop
  | [] => True
  | .char _ :: keys => Roomy (n + 1) prev keys
  | .backspace _ :: keys => 2 ≤ n ∧ Roomy (n - 1) prev keys
  | .up :: keys => 1 ≤ n ∧ (∀ l ∈ prev.head?, l.length + 2 ≤ bufSize) ∧ Roomy n prev.tail keys

instance decideRoomy : (n : Nat) → (prev : List (List Char)) → (keys : List Key) → Decidable (Roomy n prev keys)
  | _, _, [] => inferInstanceAs (Decidable True)
  | n, prev, .char _ :: keys => decideRoomy (n + 1) prev keys
  | n, prev, .backspace _ :: keys =>
    have := decideRoomy (n - 1) prev keys
    inferInstanceAs (Decidable (_ ∧ _))
  | n, prev, .up :: keys =>
    have := decideRoomy n prev.tail keys
    inferInstanceAs (Decidable (_ ∧ _ ∧ _))

/-- **The entry that is recalled last fits the cursor**: it ends there, or the cursor stays behind its end and the
line is the entry again in the end. -/
def Fits (prev : List (List Char)) (keys : List Key) : Prop :=
  ∀ before after l, keys = before ++ .up :: after → prev[ups before]? = some l →
    (ups after = 0 ∨ prev.length = ups before + 1) →
    cursor 0 before = l.length ∨
      ((∀ p, p <+: after → l.length < cursor (cursor 0 before) p) ∧ typed prev keys = l)

/-! ## The turns -/

section Turns

variable {m : Mosh} {text : List Char} {prev : List (List Char)} {s : Readline} {c : Char} {rest : List Char}

/-- What `readline` keeps between the keys: `text` is before the cursor. -/
structure At (m : Mosh) (text : List Char) (prev : List (List Char)) (s : Readline) : Prop where
  i : s.i = text.length
  buf : ∀ j (hj : j < text.length), s.buf j = text[j]
  recalls : Recalls m s.nowLineIndex prev
  inside : s.Inside
  more : s.returned = false

namespace Readline

theorem Inside.touch (h : s.Inside) {j : Int} (hj : 0 ≤ j ∧ j < bufSize) : (s.touch j).Inside :=
  List.forall_mem_cons.2 ⟨hj, h⟩

theorem Inside.set (h : s.Inside) (c : Char) {j : Int} (hj : 0 ≤ j ∧ j < bufSize) : (s.set j c).Inside :=
  List.forall_mem_cons.2 ⟨hj, h⟩

theorem Inside.touchAll (h : s.Inside) {n : Nat} (hn : n ≤ bufSize) : (s.touchAll n).Inside := by
  intro j hj
  rcases List.mem_append.1 hj with hj | hj
  · obtain ⟨k, hk, rfl⟩ := List.mem_map.1 hj
    have := List.mem_range.1 hk
    exact ⟨Int.natCast_nonneg k, by omega⟩
  · exact h j hj

theorem erase_plain (h : s.buf s.i ≠ bs ∧ s.buf s.i ≠ del) : s.erase = s.touch s.i := if_neg (not_or.2 h)

theorem erase_key (h : s.buf s.i = bs ∨ s.buf s.i = del) (hi : 0 < s.i) :
    s.erase = { (s.touch s.i).touch (s.i - 2) with i := s.i - 2 } := by
  unfold erase
  rw [if_pos h]
  dsimp only
  rw [if_pos hi]

theorem escape_plain (h : s.buf s.i ≠ esc) : s.escape m = some (s.touch s.i) := if_neg h

theorem escape_key (h : s.buf s.i = esc) : s.escape m = tackleDir m { (s.touch s.i).set s.i nul with i := s.i - 1 } :=
  if_pos h

theorem tackleDir_up (h : s.input = '[' :: 'A' :: rest) :
    tackleDir m s = some (({ s with input := rest }.touchAll (s.line.length + 1)).up m) := by
  unfold tackleDir
  rw [h]
  rfl

theorem next_plain (h : s.buf s.i ≠ '\r' ∧ s.buf s.i ≠ '\n') : s.next = { s.touch s.i with i := s.i + 1 } :=
  if_neg (not_or.2 h)

theorem next_enter (h : s.buf s.i = '\r' ∨ s.buf s.i = '\n') :
    s.next = { (s.touch s.i).set s.i nul with returned := true } := if_pos h

end Readline

/-- The next character is read. -/
def Readline.fed (s : Readline) (c : Char) (rest : List Char) : Readline := { s.set s.i c with input := rest }

theorem turn_eq (hin : s.input = c :: rest) : s.turn m = (((s.fed c rest).erase).escape m).map Readline.next := by
  unfold Readline.turn
  rw [hin]
  rfl

theorem fed_at (s : Readline) (c : Char) (rest : List Char) : (s.fed c rest).buf (s.fed c rest).i = c :=
  Function.update_self _ _ _

theorem At.fed_before (h : At m text prev s) (c : Char) (rest : List Char) {j : Nat} (hj : j < text.length) :
    (s.fed c rest).buf j = text[j] := by
  refine (Function.update_of_ne ?_ _ _).trans (h.buf j hj)
  rw [h.i]
  omega

theorem At.cursor_inside (h : At m text prev s) (hlen : text.length < bufSize) : 0 ≤ s.i ∧ s.i < bufSize := by
  rw [h.i]
  omega

theorem At.fed_inside (h : At m text prev s) (c : Char) (rest : List Char) (hlen : text.length < bufSize) :
    (s.fed c rest).Inside :=
  h.inside.set c (h.cursor_inside hlen)

theorem turn_char (h : At m text prev s) (hin : s.input = c :: rest) (hc : (Key.char c).Valid)
    (hlen : text.length < bufSize) :
    ∃ s', s.turn m = some s' ∧ At m (text ++ [c]) prev s' ∧ s'.input = rest := by
  obtain ⟨⟨-, hesc, hcr, hlf⟩, hbs, hdel⟩ := hc
  have hat : (s.fed c rest).buf (s.fed c rest).i = c := fed_at s c rest
  have hi := h.cursor_inside hlen
  have hturn : s.turn m = some { (((s.fed c rest).touch s.i).touch s.i).touch s.i with i := s.i + 1 } := by
    rw [turn_eq hin, Readline.erase_plain ⟨by rwa [hat], by rwa [hat]⟩]
    refine (congrArg (Option.map Readline.next) (Readline.escape_plain ?_)).trans
      (congrArg some (Readline.next_plain ⟨?_, ?_⟩))
    · show (s.fed c rest).buf (s.fed c rest).i ≠ esc
      rwa [hat]
    · show (s.fed c rest).buf (s.fed c rest).i ≠ '\r'
      rwa [hat]
    · show (s.fed c rest).buf (s.fed c rest).i ≠ '\n'
      rwa [hat]
  refine ⟨_, hturn, ⟨?_, fun j hj => ?_, h.recalls,
    (((h.fed_inside c rest hlen).touch hi).touch hi).touch hi, h.more⟩, rfl⟩
  · show s.i + 1 = _
    rw [h.i, List.length_append]
    rfl
  · by_cases hlt : j < text.length
    · exact (h.fed_before c rest hlt).trans (List.getElem_append_left hlt).symm
    · obtain rfl : j = text.length := by
        rw [List.length_append, List.length_singleton] at hj
        omega
      rw [List.getElem_concat_length rfl]
      rw [← h.i]
      exact hat

theorem turn_backspace (h : At m text prev s) (hin : s.input = c :: rest) (hc : (Key.backspace c).Valid)
    (hlen : text.length < bufSize) (htwo : 2 ≤ text.length) (hclean : ∀ a ∈ text, a ≠ esc ∧ a ≠ '\r' ∧ a ≠ '\n') :
    ∃ s', s.turn m = some s' ∧ At m text.dropLast prev s' ∧ s'.input = rest := by
  have hat : (s.fed c rest).buf (s.fed c rest).i = c := fed_at s c rest
  have hi := h.cursor_inside hlen
  have hi₂ : 0 ≤ s.i - 2 ∧ s.i - 2 < bufSize := by
    rw [h.i]
    omega
  -- the character that is tested then is one of the line
  have hbefore : (s.fed c rest).buf (s.i - 2) = text[text.length - 2] := by
    rw [show s.i - 2 = ((text.length - 2 : Nat) : Int) by rw [h.i]; omega]
    exact h.fed_before c rest _
  obtain ⟨hesc, hcr, hlf⟩ := hclean _ (List.getElem_mem (show text.length - 2 < text.length by omega))
  have hturn : s.turn m = some
      { ((((s.fed c rest).touch s.i).touch (s.i - 2)).touch (s.i - 2)).touch (s.i - 2) with i := s.i - 2 + 1 } := by
    rw [turn_eq hin, Readline.erase_key (s := s.fed c rest) (by rw [hat]; exact hc) (show 0 < s.i by rw [h.i]; omega)]
    refine (congrArg (Option.map Readline.next) (Readline.escape_plain ?_)).trans
      (congrArg some (Readline.next_plain ⟨?_, ?_⟩))
    · show (s.fed c rest).buf (s.i - 2) ≠ esc
      rwa [hbefore]
    · show (s.fed c rest).buf (s.i - 2) ≠ '\r'
      rwa [hbefore]
    · show (s.fed c rest).buf (s.i - 2) ≠ '\n'
      rwa [hbefore]
  refine ⟨_, hturn, ⟨?_, fun j hj => ?_, h.recalls,
    ((((h.fed_inside c rest hlen).touch hi).touch hi₂).touch hi₂).touch hi₂, h.more⟩, rfl⟩
  · show s.i - 2 + 1 = _
    rw [h.i, List.length_dropLast]
    omega
  · rw [List.length_dropLast] at hj
    rw [List.getElem_dropLast]
    exact h.fed_before c rest _

theorem line_eq (hbuf : ∀ j (hj : j < text.length), s.buf j = text[j]) (hend : s.buf text.length = nul)
    (hlen : text.length < bufSize) :
    s.line = text.takeWhile (· != nul) := by
  obtain ⟨k, hk⟩ : ∃ k, bufSize = text.length + (k + 1) := ⟨bufSize - text.length - 1, by omega⟩
  have htext : (List.range text.length).map (fun j : Nat => s.buf j) = text := by
    refine List.ext_getElem (by simp) fun j h₁ h₂ => ?_
    rw [List.getElem_map, List.getElem_range]
    exact hbuf j h₂
  have hall : (List.range bufSize).map (fun j : Nat => s.buf j) =
      text ++ nul :: ((List.range k).map fun j => s.buf ((text.length + (j + 1) : Nat) : Int)) := by
    rw [hk, List.range_add, List.map_append, htext, List.range_succ_eq_map]
    simp [hend, Function.comp_def]
  unfold Readline.line
  rw [hall, List.takeWhile_append]
  split
  next h =>
    rw [List.takeWhile_cons_of_neg (by simp), List.append_nil]
    exact ((List.takeWhile_prefix _).eq_of_length h).symm
  next => rfl

/-- What is before the cursor after an entry is recalled. -/
def recalled (l : List Char) (n : Nat) : List Char := (List.range n).map fun j => l.getD j nul

theorem recalled_length (l : List Char) (n : Nat) : (recalled l n).length = n := by
  unfold recalled
  simp

theorem recalled_getElem {l : List Char} {n j : Nat} (hj : j < (recalled l n).length) :
    (recalled l n)[j] = l.getD j nul := by
  unfold recalled
  simp

/-- The characters that the tests after a key must not meet. -/
def Calm (text : List Char) : Prop := ∀ c ∈ text, c ≠ esc ∧ c ≠ '\r' ∧ c ≠ '\n'

theorem recalled_calm {l : List Char} (h : ∀ c ∈ l, LineChar c) (n : Nat) : Calm (recalled l n) := by
  intro c hc
  obtain ⟨j, -, rfl⟩ := List.mem_map.1 hc
  rw [List.getD_eq_getElem?_getD]
  by_cases hj : j < l.length
  · rw [List.getElem?_eq_getElem hj]
    exact (h _ (List.getElem_mem hj)).2
  · rw [List.getElem?_eq_none (Nat.le_of_not_lt hj)]
    exact ⟨by decide, by decide, by decide⟩

theorem Readline.memset_buf (s : Readline) (j : Int) :
    s.memset.buf j = if 0 ≤ j ∧ j < bufSize then nul else s.buf j :=
  rfl

theorem Readline.copy_buf (s : Readline) (l : List Char) (j : Int) :
    (s.copy l).buf j = if 0 ≤ j ∧ j ≤ l.length then l.getD j.toNat nul else s.buf j := rfl

theorem copied_buf {l : List Char} (s : Readline) {j : Nat} (hj : j < bufSize) :
    ((s.memset.copy (l ++ ['\n'])).set ((l ++ ['\n']).length - 1) nul).buf j = l.getD j nul := by
  have hend : (((l ++ ['\n']).length : Int) - 1) = (l.length : Int) := by
    rw [List.length_append, List.length_singleton]
    omega
  show Function.update _ _ _ _ = _
  rw [hend]
  by_cases h : j = l.length
  · rw [h, Function.update_self, List.getD_eq_default _ _ (Nat.le_refl _)]
  · rw [Function.update_of_ne (by omega)]
    rw [Readline.copy_buf, Readline.memset_buf, Int.toNat_natCast, List.length_append, List.length_singleton]
    by_cases hlt : j < l.length
    · rw [if_pos (by omega), List.getD_append _ _ _ _ hlt]
    · rw [List.getD_eq_default l _ (by omega)]
      split
      · exact List.getD_eq_default _ _ (by rw [List.length_append, List.length_singleton]; omega)
      · exact if_pos (by omega)

theorem turn_up_eq (h : At m text prev s) (hin : s.input = esc :: '[' :: 'A' :: rest) :
    ∃ t : Readline, s.turn m = some (t.up m).next ∧ t.i = s.i - 1 ∧ t.input = rest ∧ t.nowLineIndex = s.nowLineIndex ∧
    t.returned = false ∧
      (∀ j (hj : j < text.length), t.buf j = text[j]) ∧ t.buf text.length = nul ∧
      (text.length < bufSize → t.Inside) := by
  have hat : (s.fed esc ('[' :: 'A' :: rest)).buf (s.fed esc ('[' :: 'A' :: rest)).i = esc := fed_at s _ _
  let t : Readline := { (((s.fed esc ('[' :: 'A' :: rest)).touch s.i).touch s.i).set s.i nul with i := s.i - 1 }
  have hbuf : ∀ j (hj : j < text.length), t.buf j = text[j] := by
    intro j hj
    refine (Function.update_of_ne ?_ _ _).trans (h.fed_before esc ('[' :: 'A' :: rest) hj)
    rw [h.i]
    omega
  have hend : t.buf text.length = nul := by
    rw [← h.i]
    exact Function.update_self _ _ _
  have hkept : ∀ k, ({ t with input := rest }.touchAll k).i = s.i - 1 ∧
      ({ t with input := rest }.touchAll k).input = rest ∧
      ({ t with input := rest }.touchAll k).nowLineIndex = s.nowLineIndex ∧
      ({ t with input := rest }.touchAll k).returned = false ∧
      (∀ j (hj : j < text.length), ({ t with input := rest }.touchAll k).buf j = text[j]) ∧
      ({ t with input := rest }.touchAll k).buf text.length = nul :=
    fun k => ⟨rfl, rfl, rfl, h.more, hbuf, hend⟩
  obtain ⟨hi, hinput, hnow, hmore, hbuf', hend'⟩ := hkept (t.line.length + 1)
  refine ⟨{ t with input := rest }.touchAll (t.line.length + 1), ?_, hi, hinput, hnow, hmore, hbuf',
    hend', fun hlen => ?_⟩
  · have hesc : ((s.fed esc ('[' :: 'A' :: rest)).touch (s.fed esc ('[' :: 'A' :: rest)).i).escape m =
        Readline.tackleDir m t :=
      Readline.escape_key hat
    rw [turn_eq hin, Readline.erase_plain ⟨by rw [hat]; decide, by rw [hat]; decide⟩, hesc, Readline.tackleDir_up rfl]
    rfl
  · have hline : t.line = text.takeWhile (· != nul) := line_eq hbuf hend hlen
    have hi := h.cursor_inside hlen
    have hshort := (List.takeWhile_prefix (l := text) (· != nul)).length_le
    refine Readline.Inside.touchAll ?_ (by rw [hline]; omega)
    exact (((h.fed_inside _ _ hlen).touch hi).touch hi).set nul hi

theorem up_eq (m : Mosh) (t : Readline) : ∃ k ≤ t.line.length + 1, t.up m =
    if t.nowLineIndex > -1 then
      { (((t.touchAll k).memset.copy (m.allLines t.nowLineIndex.toNat).str).set
          ((m.allLines t.nowLineIndex.toNat).str.length - 1) nul) with nowLineIndex := t.nowLineIndex - 1 }
    else t.touchAll k := by
  unfold Readline.up
  generalize t.line.length + 1 = n
  by_cases h : t.nowLineIndex + 1 = m.allLineCount
  · refine ⟨n, Nat.le_refl _, ?_⟩
    rw [if_pos h]
    rfl
  · refine ⟨0, Nat.zero_le _, ?_⟩
    rw [if_neg h]
    rfl

/-- What the buffer has before the cursor. -/
def Draft.put : Draft → Key → Draft := Draft.step fun l text => recalled l text.length

/-- Up is typed, behind a character, and the entry leaves room for its end. -/
theorem turn_up {d : Draft} (h : At m d.line d.prev s) (hin : s.input = esc :: '[' :: 'A' :: rest)
    (hlen : d.line.length < bufSize)
    (hone : 1 ≤ d.line.length) (hcalm : Calm d.line) (hprev : ∀ l ∈ d.prev, ∀ c ∈ l, LineChar c)
    (hroom : ∀ l ∈ d.prev.head?, l.length + 2 ≤ bufSize) :
    ∃ s', s.turn m = some s' ∧ At m (d.put .up).line (d.put .up).prev s' ∧ s'.input = rest := by
  obtain ⟨t, hturn, hi, hinput, hnow, hmore, hbuf, hend, hinside⟩ := turn_up_eq h hin
  replace hinside := hinside hlen
  have hshort := (List.takeWhile_prefix (l := d.line) (· != nul)).length_le
  obtain ⟨k, hk, hup⟩ := up_eq m t
  replace hk : k ≤ bufSize := by
    rw [line_eq hbuf hend hlen] at hk
    omega
  have hi₁ : t.i = ((d.line.length - 1 : Nat) : Int) := by
    rw [hi, h.i]
    omega
  have hback : t.i + 1 = d.line.length := by omega
  have hplace : 0 ≤ t.i ∧ t.i < bufSize := by omega
  have hrecalls := h.recalls
  cases hprevious : d.prev with
  | nil =>
    have hput : d.put .up = d := by
      unfold Draft.put Draft.step
      rw [hprevious]
    rw [hprevious] at hrecalls
    have hno : ¬t.nowLineIndex > -1 := by
      rw [hnow, show s.nowLineIndex = -1 from hrecalls]
      decide
    rw [if_neg hno] at hup
    obtain ⟨-, hcr, hlf⟩ := hcalm _ (List.getElem_mem (show d.line.length - 1 < d.line.length by omega))
    have hlast : (t.touchAll k).buf (t.touchAll k).i = d.line[d.line.length - 1] := by
      show t.buf t.i = _
      rw [hi₁]
      exact hbuf _ _
    have hnext : (t.touchAll k).next = { (t.touchAll k).touch t.i with i := t.i + 1 } :=
      Readline.next_plain ⟨by rwa [hlast], by rwa [hlast]⟩
    rw [hup, hnext] at hturn
    rw [hput]
    refine ⟨_, hturn, ⟨hback, hbuf, ?_, (hinside.touchAll hk).touch hplace, hmore⟩, hinput⟩
    show Recalls m t.nowLineIndex d.prev
    rw [hnow]
    exact h.recalls
  | cons l prev =>
    have hput : d.put .up = ⟨recalled l d.line.length, prev⟩ := by
      unfold Draft.put Draft.step
      rw [hprevious]
    rw [hprevious] at hrecalls hprev hroom
    obtain ⟨hindex, hentry, hbefore⟩ := hrecalls
    have hyes : t.nowLineIndex > -1 := by
      rw [hnow, hindex]
      omega
    have hfit : l.length + 2 ≤ bufSize := hroom l rfl
    have hstr : (m.allLines t.nowLineIndex.toNat).str = l ++ ['\n'] := by
      rw [hnow, hindex]
      exact hentry
    rw [if_pos hyes, hstr] at hup
    generalize hv : ((t.touchAll k).memset.copy (l ++ ['\n'])).set ((l ++ ['\n']).length - 1) nul = v at hup
    have hvbuf : ∀ j : Nat, j < bufSize → v.buf j = l.getD j nul := by
      intro j hj
      rw [← hv]
      exact copied_buf _ hj
    have hvi : v.i = t.i := by
      rw [← hv]
      rfl
    have hvinside : v.Inside := by
      rw [← hv]
      refine Readline.Inside.set (((hinside.touchAll hk).touchAll (Nat.le_refl _)).touchAll ?_) nul ?_
      · rw [List.length_append, List.length_singleton]
        omega
      · rw [List.length_append, List.length_singleton]
        omega
    obtain ⟨-, hcr, hlf⟩ := recalled_calm (hprev l List.mem_cons_self) d.line.length _
      (List.getElem_mem (show d.line.length - 1 < (recalled l d.line.length).length by rw [recalled_length]; omega))
    rw [recalled_getElem] at hcr hlf
    have hlast : v.buf v.i = l.getD (d.line.length - 1) nul := by
      rw [hvi, hi₁]
      exact hvbuf _ (by omega)
    have hnext : Readline.next { v with nowLineIndex := t.nowLineIndex - 1 } =
        { v.touch v.i with i := v.i + 1, nowLineIndex := t.nowLineIndex - 1 } :=
      Readline.next_plain ⟨(congrArg (· ≠ '\r') hlast).mpr hcr, (congrArg (· ≠ '\n') hlast).mpr hlf⟩
    rw [hup, hnext] at hturn
    rw [hput]
    refine ⟨_, hturn, ⟨?_, ?_, ?_, ?_, ?_⟩, ?_⟩
    · show v.i + 1 = _
      rw [recalled_length, hvi, hback]
    · intro j hj
      rw [recalled_getElem hj]
      rw [recalled_length] at hj
      exact hvbuf j (by omega)
    · show Recalls m (t.nowLineIndex - 1) prev
      rw [hnow]
      exact hbefore
    · refine Readline.Inside.touch (s := v) hvinside ?_
      rw [hvi]
      exact hplace
    · show v.returned = false
      rw [← hv]
      exact hmore
    · show v.input = rest
      rw [← hv]
      exact hinput

theorem turn_enter (h : At m text prev s) (hin : s.input = c :: rest) (hc : c = '\r' ∨ c = '\n')
    (hlen : text.length < bufSize) :
    ∃ s', s.turn m = some s' ∧ s'.returned = true ∧ s'.line = text.takeWhile (· != nul) ∧
    s'.input = rest ∧ s'.Inside := by
  have hat : (s.fed c rest).buf (s.fed c rest).i = c := fed_at s c rest
  have hi := h.cursor_inside hlen
  have hplain : c ≠ bs ∧ c ≠ del ∧ c ≠ esc := by
    rcases hc with rfl | rfl <;> decide
  obtain ⟨s', hs'⟩ : ∃ s' : Readline, s' =
      { ((((s.fed c rest).touch s.i).touch s.i).touch s.i).set s.i nul with returned := true } :=
    ⟨_, rfl⟩
  have hturn : s.turn m = some s' := by
    rw [turn_eq hin, Readline.erase_plain ⟨by rw [hat]; exact hplain.1, by rw [hat]; exact hplain.2.1⟩, hs']
    refine (congrArg (Option.map Readline.next) (Readline.escape_plain ?_)).trans
      (congrArg some (Readline.next_enter ?_))
    · show (s.fed c rest).buf (s.fed c rest).i ≠ esc
      rw [hat]
      exact hplain.2.2
    · show (s.fed c rest).buf (s.fed c rest).i = '\r' ∨ (s.fed c rest).buf (s.fed c rest).i = '\n'
      rwa [hat]
  refine ⟨s', hturn, by rw [hs'], line_eq (fun j hj => ?_) ?_ hlen, by rw [hs']; rfl, ?_⟩
  · rw [hs']
    refine (Function.update_of_ne ?_ _ _).trans (h.fed_before c rest hj)
    rw [h.i]
    omega
  · rw [hs', ← h.i]
    exact Function.update_self _ _ _
  · rw [hs']
    exact (((((h.fed_inside c rest hlen).touch hi).touch hi).touch hi).set nul hi)

end Turns

end Mos.Sh
