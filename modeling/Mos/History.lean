import Mathlib.Data.List.DropRight
import Mathlib.Logic.Function.Basic
/-!
# History — the lines that the shell remembers (`user/sh.c`)

`save_line` keeps the last lines in the rows of `all_lines` and rewrites `/.mosh_history` from them; `init_mosh_history`
reads the file back a byte at a time.  A row is what its characters are; a store behind its end, like a panic, is
`none`. The calls on the file do what they are asked.
-/
namespace Mos.Sh

/-- The character that ends a string. -/
def nul : Char := Char.ofNat 0

/-- A row of `all_lines`. -/
abbrev Row := Nat → Char

/-- The length of a row. -/
def rowLen : Nat := 1025

/-- The number of rows. -/
def rowCount : Nat := 25

/-- The string in a row. -/
def Row.str (r : Row) : List Char := ((List.range rowLen).map r).takeWhile (· != nul)

/-- The characters `cs` are stored from `o` on. -/
def Row.put (r : Row) (o : Nat) (cs : List Char) : Row := fun j => if o ≤ j then cs.getD (j - o) (r j) else r j

/-- The row of a `strcpy`. -/
def strcpy (r : Row) (s : List Char) : Row := r.put 0 (s ++ [nul])

structure Mosh where
  /-- `/.mosh_history`, if it is there. -/
  file : Option (List Char)
  /-- `all_lines` -/
  allLines : Nat → Row
  /-- `all_line_count` -/
  allLineCount : Nat
  /-- `now_line_index` -/
  nowLineIndex : Int

/-! ## `init_mosh_history` -/

/-- The loops over the bytes of the file: `row` is `all_lines[count]`, and stored up to `offset`. -/
def readRows (rows : Nat → Row) (count offset : Nat) : List Char → Option ((Nat → Row) × Nat)
  | [] => some (rows, count)
  | c :: s =>
    if rowCount ≤ count ∨ offset > 1024 then none
    else
      let row := Function.update (rows count) offset c
      if c = '\n' then
        if rowLen ≤ offset + 1 then none
        else readRows (Function.update rows count (Function.update row (offset + 1) nul)) (count + 1) 0 s
      else readRows (Function.update rows count row) count (offset + 1) s

/-- `open` with `O_CREAT`, and the loops. -/
def initMoshHistory (s : Mosh) : Option Mosh :=
  let file := s.file.getD []
  (readRows s.allLines 0 0 file).map fun (rows, count) => ⟨some file, rows, count, (count : Int) - 1⟩

/-! ## `save_line` -/

/-- The loop that shifts the rows. -/
def shiftRows (rows : Nat → Row) : Nat → Row :=
  (List.range 19).foldl (fun rows i => Function.update rows i (strcpy (rows i) (rows (i + 1)).str)) rows

/-- The rows and the count after the line is put in. -/
def putLine (rows : Nat → Row) (count : Nat) (line : List Char) : (Nat → Row) × Nat :=
  if 20 ≤ count then
    let rows := shiftRows rows
    (Function.update rows 19 (strcpy (rows 19) line), 20)
  else (Function.update rows count (strcpy (rows count) line), count + 1)

/-- The loop that writes the file. -/
def writeRows (rows : Nat → Row) (count : Nat) : List Char :=
  (List.range count).foldl (fun file i => file ++ (rows i).str) []

/-- `save_line`: when the file is gone, so is the count. -/
def saveLine (s : Mosh) (line : List Char) : Option Mosh :=
  let (rows, count) := putLine s.allLines (if s.file.isSome then s.allLineCount else 0) line
  let row := rows (count - 1)
  let len := row.str.length
  if rowLen ≤ len + 1 then none
  else
    let rows := Function.update rows (count - 1) (row.put len ['\n', nul])
    some ⟨some (writeRows rows count), rows, count, (count : Int) - 1⟩

/-! ## Runs -/

inductive HistoryOp where
  /-- A line is read, and saved. -/
  | save (line : List Char)
  /-- The shell is started again. -/
  | restart

/-- A new shell has its own rows, all of them zero. -/
def Mosh.restarted (s : Mosh) : Mosh := { s with allLines := fun _ _ => nul, allLineCount := 0, nowLineIndex := 0 }

def historyStep (s : Mosh) : HistoryOp → Option Mosh
  | .save line => saveLine s line
  | .restart => initMoshHistory s.restarted

def historyRun : List HistoryOp → Mosh → Option Mosh
  | [], s => some s
  | op :: ops, s => (historyStep s op).bind (historyRun ops)

/-- The lines that are saved, in order. -/
def savedLines : List HistoryOp → List (List Char)
  | [] => []
  | .save line :: ops => line :: savedLines ops
  | .restart :: ops => savedLines ops

/-- A line that `readline` has returned. -/
structure TypedLine (line : List Char) : Prop where
  short : line.length ≤ 1023
  noNul : nul ∉ line
  noNewline : '\n' ∉ line

/-- The lines that are kept. -/
def recent (saved : List (List Char)) : List (List Char) := saved.rtake 20

/-- What the file is for: each line, followed by a newline. -/
def fileOf (lines : List (List Char)) : List Char := lines.flatMap (· ++ ['\n'])

/-- **The file and the rows hold the last lines**, the oldest first. -/
structure Remembered (saved : List (List Char)) (s : Mosh) : Prop where
  file : s.file = some (fileOf (recent saved))
  count : s.allLineCount = min saved.length 20
  rows : ∀ i (hi : i < (recent saved).length), (s.allLines i).str = (recent saved)[i] ++ ['\n']

/-! ## Rows -/

/-- The string is in the row, with its end. -/
structure Row.Holds (r : Row) (s : List Char) : Prop where
  chars : ∀ j (hj : j < s.length), r j = s[j]
  ends : r s.length = nul

namespace Row

variable {r : Row} {s t : List Char}

theorem Holds.str (h : r.Holds s) (hs : nul ∉ s) (hlen : s.length < rowLen) : r.str = s := by
  obtain ⟨n, hn⟩ := Nat.exists_eq_add_of_lt hlen
  have hfirst : (List.range s.length).map r = s := by
    refine List.ext_getElem (by simp) fun j h₁ h₂ => ?_
    rw [List.getElem_map, List.getElem_range]
    exact h.chars j h₂
  have hrest : ((List.range (n + 1)).map (s.length + ·)).map r = nul ::
      ((List.range n).map fun j => r (s.length + (j + 1))) := by
    rw [List.range_succ_eq_map, List.map_cons, List.map_cons, Nat.add_zero, h.ends, List.map_map, List.map_map]
    rfl
  unfold Row.str
  rw [hn, Nat.add_assoc, List.range_add, List.map_append, hfirst, hrest, List.takeWhile_append_of_pos,
    List.takeWhile_cons_of_neg,
    List.append_nil]
  · simp
  · intro c hc
    rw [bne_iff_ne]
    exact fun hcn => hs (hcn ▸ hc)

/-- **Characters behind a string.** -/
theorem holds_put (h : ∀ j (hj : j < s.length), r j = s[j]) (t : List Char) :
    (r.put s.length (t ++ [nul])).Holds (s ++ t) := by
  refine ⟨fun j hj => ?_, ?_⟩
  · rw [List.length_append] at hj
    unfold Row.put
    by_cases hlt : j < s.length
    · rw [if_neg (Nat.not_le.2 hlt), List.getElem_append_left hlt]
      exact h j hlt
    · have hle : s.length ≤ j := Nat.not_lt.1 hlt
      rw [if_pos hle, List.getElem_append_right hle, List.getD_eq_getElem?_getD, List.getElem?_append_left (by omega),
        List.getElem?_eq_getElem (by omega), Option.getD_some]
  · unfold Row.put
    rw [List.length_append, if_pos (Nat.le_add_right _ _), Nat.add_sub_cancel_left, List.getD_eq_getElem?_getD,
      List.getElem?_concat_length, Option.getD_some]

theorem holds_strcpy (r : Row) (s : List Char) : (strcpy r s).Holds s :=
  holds_put (s := []) (fun _ hj => absurd hj (Nat.not_lt_zero _)) s

theorem str_strcpy (r : Row) (hs : nul ∉ s) (hlen : s.length < rowLen) : (strcpy r s).str = s :=
  (holds_strcpy r s).str hs hlen

end Row

theorem TypedLine.ended {line : List Char} (h : TypedLine line) :
    nul ∉ line ++ ['\n'] ∧ (line ++ ['\n']).length < rowLen := by
  refine ⟨fun hc => ?_, ?_⟩
  · rcases List.mem_append.1 hc with hc | hc
    · exact h.noNul hc
    · exact absurd (List.mem_singleton.1 hc) (by decide)
  · have := h.short
    rw [List.length_append, List.length_singleton]
    show _ < 1025
    omega

/-! ## Reading the file -/

/-- **A line is read into its row.** -/
theorem readRows_line {count : Nat} {s : List Char} (hc : count < rowCount) : ∀ {l p : List Char} {rows : Nat → Row},
    (∀ j (hj : j < p.length), rows count j = p[j]) → '\n' ∉ l → p.length + l.length ≤ 1023 →
    ∃ rows', readRows rows count p.length (l ++ '\n' :: s) = readRows rows' (count + 1) 0 s ∧
      (rows' count).Holds (p ++ l ++ ['\n']) ∧ ∀ i ≠ count, rows' i = rows i
  | [], p, rows, hp, _, hlen => by
    have hin : ¬(rowCount ≤ count ∨ p.length > 1024) := by
      rw [List.length_nil] at hlen
      omega
    have hfit : ¬rowLen ≤ p.length + 1 := by
      rw [List.length_nil] at hlen
      show ¬1025 ≤ _
      omega
    refine ⟨Function.update rows count
      (Function.update (Function.update (rows count) p.length '\n') (p.length + 1) nul), ?_, ?_,
      fun i hi => Function.update_of_ne hi _ _⟩
    · rw [List.nil_append]
      exact (if_neg hin).trans ((if_pos rfl).trans (if_neg hfit))
    · rw [Function.update_self, List.append_nil]
      refine ⟨fun j hj => ?_, ?_⟩
      · rw [List.length_append, List.length_singleton] at hj
        rw [Function.update_of_ne (by omega)]
        by_cases hlt : j < p.length
        · rw [Function.update_of_ne (Nat.ne_of_lt hlt), List.getElem_append_left hlt]
          exact hp j hlt
        · obtain rfl : j = p.length := by omega
          rw [Function.update_self, List.getElem_concat_length rfl]
      · rw [List.length_append, List.length_singleton, Function.update_self]
  | c :: l, p, rows, hp, hn, hlen => by
    rw [List.length_cons] at hlen
    obtain ⟨hcn, hln⟩ := not_or.1 fun hc => hn (List.mem_cons.2 hc)
    have hin : ¬(rowCount ≤ count ∨ p.length > 1024) := by omega
    have hstep : readRows rows count p.length (c :: l ++ '\n' :: s) =
        readRows (Function.update rows count (Function.update (rows count) p.length c)) count (p ++ [c]).length
          (l ++ '\n' :: s) := by
      rw [List.cons_append, List.length_append, List.length_singleton]
      exact (if_neg hin).trans (if_neg (Ne.symm hcn))
    obtain ⟨rows', hrun, hrow, hother⟩ := @readRows_line count s hc l (p ++ [c])
      (Function.update rows count (Function.update (rows count) p.length c)) (fun j hj => by
        rw [List.length_append, List.length_singleton] at hj
        rw [Function.update_self]
        by_cases hlt : j < p.length
        · rw [Function.update_of_ne (Nat.ne_of_lt hlt), List.getElem_append_left hlt]
          exact hp j hlt
        · obtain rfl : j = p.length := by omega
          rw [Function.update_self, List.getElem_concat_length rfl]) hln
            (by rw [List.length_append, List.length_singleton]; omega)
    refine ⟨rows', hstep.trans hrun, ?_, fun i hi => (hother i hi).trans (Function.update_of_ne hi _ _)⟩
    rwa [List.append_assoc p, List.singleton_append] at hrow

/-- **The file is read back**, each line into a row. -/
theorem readRows_file : ∀ {lines : List (List Char)} {rows : Nat → Row} {count : Nat}, (∀ l ∈ lines, TypedLine l) →
    count + lines.length ≤ rowCount → ∃ rows', readRows rows count 0 (fileOf lines) =
    some (rows', count + lines.length) ∧
      (∀ i (hi : i < lines.length), (rows' (count + i)).Holds (lines[i] ++ ['\n'])) ∧ ∀ i < count, rows' i = rows i
  | [], rows, count, _, _ => ⟨rows, rfl, fun _ hi => absurd hi (Nat.not_lt_zero _), fun _ _ => rfl⟩
  | l :: lines, rows, count, hl, hfit => by
    rw [List.length_cons] at hfit
    have hline := hl l List.mem_cons_self
    obtain ⟨rows₁, h₁, hrow, hother⟩ :=
      @readRows_line count (fileOf lines) (by omega) l [] rows (fun _ hj => absurd hj (Nat.not_lt_zero _))
      hline.noNewline (by rw [List.length_nil]; have := hline.short; omega)
    obtain ⟨rows', h₂, hrows, hbefore⟩ :=
      @readRows_file lines rows₁ (count + 1) (fun x hx => hl x (List.mem_cons_of_mem _ hx)) (by omega)
    refine ⟨rows', ?_, fun i hi => ?_, fun i hi => (hbefore i (by omega)).trans (hother i (Nat.ne_of_lt hi))⟩
    · have hcat : fileOf (l :: lines) = l ++ '\n' :: fileOf lines := by
        unfold fileOf
        rw [List.flatMap_cons, List.append_assoc, List.singleton_append]
      rw [hcat]
      exact h₁.trans (h₂.trans (by rw [List.length_cons, Nat.add_assoc, Nat.add_comm 1]))
    · cases i with
      | zero =>
        rw [Nat.add_zero, hbefore count (Nat.lt_succ_self _)]
        exact hrow
      | succ i =>
        have h := hrows i (Nat.lt_of_succ_lt_succ hi)
        rwa [Nat.add_right_comm] at h

/-! ## Saving a line -/

theorem shiftRows_eq (rows : Nat → Row) : (∀ i < 19, shiftRows rows i = strcpy (rows i) (rows (i + 1)).str) ∧
    ∀ i, 19 ≤ i → shiftRows rows i = rows i := by
  have hgo : ∀ n, (∀ i < n,
    ((List.range n).foldl (fun rows i => Function.update rows i (strcpy (rows i) (rows (i + 1)).str)) rows) i =
      strcpy (rows i) (rows (i + 1)).str) ∧
      ∀ i, n ≤ i → ((List.range n).foldl (fun rows i => Function.update rows i (strcpy (rows i) (rows (i + 1)).str))
        rows) i = rows i := by
    intro n
    induction n with
    | zero => exact ⟨fun _ hi => absurd hi (Nat.not_lt_zero _), fun _ _ => rfl⟩
    | succ n ih =>
      obtain ⟨hlow, hhigh⟩ := ih
      rw [List.range_succ, List.foldl_append, List.foldl_cons, List.foldl_nil]
      refine ⟨fun i hi => ?_, fun i hi => ?_⟩
      · by_cases hin : i = n
        · subst hin
          rw [Function.update_self, hhigh i (Nat.le_refl _), hhigh (i + 1) (Nat.le_succ _)]
        · rw [Function.update_of_ne hin]
          exact hlow i (by omega)
      · rw [Function.update_of_ne (by omega)]
        exact hhigh i (by omega)
  exact hgo 19

theorem writeRows_eq {rows : Nat → Row} {lines : List (List Char)}
    (h : ∀ i (hi : i < lines.length), (rows i).str = lines[i] ++ ['\n']) :
    writeRows rows lines.length = fileOf lines := by
  have hgo : ∀ n ≤ lines.length, writeRows rows n = fileOf (lines.take n) := by
    intro n
    induction n with
    | zero => exact fun _ => rfl
    | succ n ih =>
      intro hn
      unfold writeRows at ih ⊢
      rw [List.range_succ, List.foldl_append, List.foldl_cons, List.foldl_nil, ih (Nat.le_of_succ_le hn), h n hn,
        List.take_add_one, List.getElem?_eq_getElem hn]
      unfold fileOf
      rw [List.flatMap_append]
      exact congrArg _ (List.append_nil _).symm
  have h := hgo lines.length (Nat.le_refl _)
  rwa [List.take_length] at h

theorem length_recent (saved : List (List Char)) : (recent saved).length = min saved.length 20 := by
  unfold recent List.rtake
  rw [List.length_drop]
  omega

theorem recent_concat (saved : List (List Char)) (line : List Char) :
    recent (saved ++ [line]) = (if 20 ≤ saved.length then (recent saved).tail else recent saved) ++ [line] := by
  unfold recent
  rw [List.rtake_concat_succ]
  congr 1
  unfold List.rtake
  split
  · rw [List.tail_drop]
    congr 1
    omega
  · congr 1
    omega

theorem mem_recent {saved : List (List Char)} {l : List Char} (h : l ∈ recent saved) : l ∈ saved :=
  List.mem_of_mem_drop h

/-- **`all_lines` with a line more.** -/
theorem putLine_rows {saved : List (List Char)} {s : Mosh} {line : List Char} (h : Remembered saved s)
    (hl : ∀ l ∈ saved, TypedLine l) :
    ∃ rows, putLine s.allLines s.allLineCount line = (rows, (recent (saved ++ [line])).length) ∧
      (∀ i (hi : i + 1 < (recent (saved ++ [line])).length), (rows i).str = (recent (saved ++ [line]))[i] ++ ['\n']) ∧
      (rows ((recent (saved ++ [line])).length - 1)).Holds line := by
  have hcount := h.count
  have hlen := length_recent saved
  have hlen' := length_recent (saved ++ [line])
  rw [List.length_append, List.length_singleton] at hlen'
  have hsaved : ∀ i (hi : i < (recent saved).length), nul ∉ (recent saved)[i] ++ ['\n'] ∧
      ((recent saved)[i] ++ ['\n']).length < rowLen :=
    fun i hi => (hl _ (mem_recent (List.getElem_mem hi))).ended
  unfold putLine
  by_cases hfull : 20 ≤ saved.length
  · rw [if_pos (by omega)]
    obtain ⟨hlow, hhigh⟩ := shiftRows_eq s.allLines
    have h20 : (recent (saved ++ [line])).length = 20 := by omega
    refine ⟨_, by rw [h20], fun i hi => ?_, ?_⟩
    · have hi : i < 19 := by omega
      have hrow := h.rows (i + 1) (by omega)
      obtain ⟨hnul, hfits⟩ := hsaved (i + 1) (by omega)
      have hmoved : Function.update (shiftRows s.allLines) 19 (strcpy (shiftRows s.allLines 19) line) i =
          strcpy (s.allLines i) ((recent saved)[i + 1] ++ ['\n']) :=
        (Function.update_of_ne (Nat.ne_of_lt hi) _ _).trans ((hlow i hi).trans (congrArg (strcpy _) hrow))
      have hline' : (recent saved)[i + 1] = (recent (saved ++ [line]))[i] := by
        simp only [recent_concat, if_pos hfull]
        rw [List.getElem_append_left (by rw [List.length_tail]; omega), List.getElem_tail]
      have hstr := Row.str_strcpy (s.allLines i) hnul hfits
      rw [← hmoved] at hstr
      exact hstr.trans (congrArg (· ++ ['\n']) hline')
    · rw [h20, Function.update_self]
      exact Row.holds_strcpy _ _
  · rw [if_neg (by omega)]
    have hn : (recent (saved ++ [line])).length = s.allLineCount + 1 := by omega
    refine ⟨_, by rw [hn], fun i hi => ?_, ?_⟩
    · rw [Function.update_of_ne (by omega), h.rows i (by omega)]
      congr 1
      simp only [recent_concat, if_neg hfull]
      rw [List.getElem_append_left]
    · rw [hn, Nat.add_sub_cancel, Function.update_self]
      exact Row.holds_strcpy _ _

/-- **`save_line` keeps what there is to remember.** -/
theorem saveLine_remembers {saved : List (List Char)} {s : Mosh} {line : List Char} (h : Remembered saved s)
    (hl : ∀ l ∈ saved, TypedLine l) (hline : TypedLine line) :
    ∃ t, saveLine s line = some t ∧ Remembered (saved ++ [line]) t := by
  obtain ⟨rows, hput, hrows, hlast⟩ := putLine_rows h hl
  have hpos : 0 < (recent (saved ++ [line])).length := by
    rw [length_recent, List.length_append, List.length_singleton]
    omega
  obtain ⟨n, hn⟩ : ∃ n, (recent (saved ++ [line])).length = n := ⟨_, rfl⟩
  rw [hn] at hput hlast hpos
  have hlen : line.length < rowLen := Nat.lt_of_le_of_lt hline.short (by decide)
  have hstr : (rows (n - 1)).str = line := hlast.str hline.noNul hlen
  have hfit : ¬rowLen ≤ line.length + 1 := by
    have := hline.short
    show ¬1025 ≤ _
    omega
  let rows' := Function.update rows (n - 1) ((rows (n - 1)).put line.length ['\n', nul])
  have hrows' : ∀ i (hi : i < (recent (saved ++ [line])).length), (rows' i).str =
      (recent (saved ++ [line]))[i] ++ ['\n'] := by
    intro i hi
    by_cases hin : i = n - 1
    · subst hin
      obtain ⟨hnul, hfits⟩ := hline.ended
      have hi' : (recent (saved ++ [line]))[n - 1] = line := by
        simp only [recent_concat] at hn ⊢
        rw [List.length_append, List.length_singleton] at hn
        exact List.getElem_concat_length (by omega) _
      show (Function.update rows (n - 1) _ (n - 1)).str = _
      rw [hi', Function.update_self]
      exact (Row.holds_put (t := ['\n']) hlast.chars).str hnul hfits
    · show (Function.update rows (n - 1) _ i).str = _
      rw [Function.update_of_ne hin]
      exact hrows i (by omega)
  refine ⟨⟨some (writeRows rows' n), rows', n, (n : Int) - 1⟩, ?_, ?_, ?_, hrows'⟩
  · unfold saveLine
    simp only [h.file, Option.isSome_some, if_true, hput, hstr]
    exact if_neg hfit
  · rw [← hn, writeRows_eq hrows']
  · show n = _
    rw [← hn, length_recent]

/-- **A restart reads it back.** -/
theorem restart_remembers {saved : List (List Char)} {s : Mosh} (hl : ∀ l ∈ saved, TypedLine l)
    (hfile : s.file.getD [] = fileOf (recent saved)) : ∃ t, initMoshHistory s = some t ∧ Remembered saved t := by
  have hlen := length_recent saved
  obtain ⟨rows, hrun, hrows, -⟩ := @readRows_file (recent saved) s.allLines 0 (fun l hl' => hl l (mem_recent hl'))
    (by show _ ≤ 25; omega)
  refine ⟨⟨some (fileOf (recent saved)), rows, (recent saved).length, ((recent saved).length : Int) - 1⟩, ?_, rfl,
    hlen, fun i hi => ?_⟩
  · rw [Nat.zero_add] at hrun
    unfold initMoshHistory
    simp only [hfile, hrun]
    rfl
  · obtain ⟨hnul, hfits⟩ := (hl _ (mem_recent (List.getElem_mem hi))).ended
    have h := hrows i hi
    rw [Nat.zero_add] at h
    exact h.str hnul hfits

theorem run_remembers : ∀ {ops : List HistoryOp} {saved : List (List Char)} {s : Mosh}, Remembered saved s →
    (∀ l ∈ saved ++ savedLines ops, TypedLine l) → ∃ t, historyRun ops s = some t ∧
    Remembered (saved ++ savedLines ops) t
  | [], saved, s, h, _ => by
    rw [show savedLines [] = [] from rfl, List.append_nil]
    exact ⟨s, rfl, h⟩
  | .save line :: ops, saved, s, h, hl => by
    have hcat : saved ++ savedLines (.save line :: ops) = saved ++ [line] ++ savedLines ops :=
      (List.append_assoc _ [line] _).symm
    rw [hcat]
    replace hl : ∀ l ∈ saved ++ [line] ++ savedLines ops, TypedLine l := fun l hm => hl l (hcat ▸ hm)
    obtain ⟨s₁, h₁, hk₁⟩ := saveLine_remembers h (fun l hm => hl l (List.mem_append_left _ (List.mem_append_left _ hm)))
      (hl line (List.mem_append_left _ (List.mem_append_right _ (List.mem_singleton_self _))))
    obtain ⟨t, ht, hk⟩ := @run_remembers ops _ s₁ hk₁ hl
    exact ⟨t, by rw [historyRun, historyStep, h₁, Option.bind_some, ht], hk⟩
  | .restart :: ops, saved, s, h, hl => by
    obtain ⟨s₁, h₁, hk₁⟩ := restart_remembers (s := s.restarted) (fun l hm => hl l (List.mem_append_left _ hm))
      (by show s.file.getD [] = _; rw [h.file]; rfl)
    obtain ⟨t, ht, hk⟩ := @run_remembers ops saved s₁ hk₁ hl
    exact ⟨t, by rw [historyRun, historyStep, h₁, Option.bind_some, ht], hk⟩

/-- **History is kept**: from no file or an empty one, after any lines saved and any restarts between them, the file and
`all_lines` hold the last lines, and nothing else. -/
theorem history_persists (s : Mosh) (hs : s.file = none ∨ s.file = some []) (ops : List HistoryOp)
    (hl : ∀ line ∈ savedLines ops, line ≠ [] ∧ TypedLine line) :
    ∃ t, (initMoshHistory s).bind (historyRun ops) = some t ∧ Remembered (savedLines ops) t := by
  obtain ⟨s₁, h₁, hk₁⟩ := @restart_remembers [] s (fun _ hm => absurd hm List.not_mem_nil)
    (hs.elim (fun h => by rw [h]; rfl) fun h => by rw [h]; rfl)
  obtain ⟨t, ht, hk⟩ := run_remembers hk₁ fun l hm => (hl l hm).2
  exact ⟨t, by rw [h₁, Option.bind_some, ht], hk⟩

/-- A shell that is started for the first time. -/
def noHistory : Mosh := { file := none, allLines := fun _ _ => nul, allLineCount := 0, nowLineIndex := 0 }

theorem history_persists_two : ∃ t, (initMoshHistory noHistory).bind
      (historyRun [.save ['l', 's'], .restart, .save ['p', 'w', 'd']]) = some t ∧
      Remembered [['l', 's'], ['p', 'w', 'd']] t := by
  refine history_persists noHistory (.inl rfl) [.save ['l', 's'], .restart, .save ['p', 'w', 'd']] fun line hl => ?_
  rcases List.mem_cons.1 hl with rfl | hl
  · exact ⟨by decide, by decide, by decide, by decide⟩
  · obtain rfl := List.mem_singleton.1 hl
    exact ⟨by decide, by decide, by decide, by decide⟩

end Mos.Sh
