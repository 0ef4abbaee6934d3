import Mos.History
import Mos.Lib.Writes
/-!
# HistoryLoad — any file as history (`init_mosh_history` of `user/sh.c`)

The rows of `all_lines` follow each other in memory, and a store behind the end of a row is a store to the next one. 
The loader stores a byte before it looks at the offset, and it does not look at the count; what it stores where is
kept in a list.  A panic rejects the file.
-/
namespace Mos.Sh

/-- The bytes of `all_lines`. -/
def allLinesSize : Nat := rowCount * rowLen

/-- What the loader leaves: the memory from `all_lines` on, `all_line_count`, whether it panicked, and where it
stored. -/
structure Loaded where
  mem : Nat → Char
  count : Nat
  rejected : Bool
  stores : List Nat

/-- There were stores before. -/
def Loaded.after (r : Loaded) (is : List Nat) : Loaded := { r with stores := is ++ r.stores }

/-- The loops of `init_mosh_history` over the bytes of the file. -/
def loadHistory (mem : Nat → Char) (count offset : Nat) : List Char → Loaded
  | [] => ⟨mem, count, false, []⟩
  | c :: s =>
    let a := rowLen * count + offset
    if offset > 1024 then ⟨Function.update mem a c, count, true, [a]⟩
    else if c = '\n' then
      (loadHistory (Function.update (Function.update mem a c) (a + 1) nul) (count + 1) 0 s).after [a, a + 1]
    else (loadHistory (Function.update mem a c) count (offset + 1) s).after [a]

/-- The shell starts with zeros. -/
def loadFile (file : List Char) : Loaded := loadHistory (fun _ => nul) 0 0 file

/-- `all_lines[i]` -/
def rowOf (mem : Nat → Char) (i : Nat) : Row := fun j => mem (rowLen * i + j)

/-- The shell after the loader. -/
def Loaded.mosh (file : List Char) (r : Loaded) : Mosh := ⟨some file, rowOf r.mem, r.count, (r.count : Int) - 1⟩

/-! ## What is promised -/

/-- The lines that end, without their newlines, and what is behind the last newline. -/
def splitLines : List Char → List (List Char) × List Char
  | [] => ([], [])
  | c :: s =>
    if c = '\n' then ([] :: (splitLines s).1, (splitLines s).2)
    else match (splitLines s).1 with
      | [] => ([], c :: (splitLines s).2)
      | l :: ls => ((c :: l) :: ls, (splitLines s).2)

/-- The lines of a file, each with its newline; the last one may have none. -/
def linesOf (file : List Char) : List (List Char) :=
  (splitLines file).1.map (· ++ ['\n']) ++ if (splitLines file).2 = [] then [] else [(splitLines file).2]

/-- **The last lines are kept**, each in its row, and a line that is saved then drops only the oldest of twenty. -/
structure KeepsLines (file : List Char) (r : Loaded) : Prop where
  few : r.count ≤ 20
  count : r.count = min (linesOf file).length 20
  rows : ∀ i (hi : i < ((linesOf file).rtake 20).length),
    (rowOf r.mem i).str = ((linesOf file).rtake 20)[i] ∧ (((linesOf file).rtake 20)[i]).length < rowLen
  saves : ∀ line, TypedLine line → ∃ t, saveLine (r.mosh file) line = some t ∧
    t.file = some ((linesOf file ++ [line ++ ['\n']]).rtake 20).flatten

/-- **The file is loaded as it should be.** -/
def LoadsWell (file : List Char) : Prop :=
  (∀ i ∈ (loadFile file).stores, i < allLinesSize) ∧ ((loadFile file).rejected = true ∨ KeepsLines file (loadFile file))

/-- **The files that are**: a line that is too long is among the first 24, or there are at most twenty lines, and each
of them could have been typed. -/
def Loadable (file : List Char) : Prop :=
  (∃ j ≤ 23, ∃ l, (linesOf file)[j]? = some l ∧ 1026 ≤ l.length ∧ ∀ l' ∈ (linesOf file).take j, l'.length ≤ 1025) ∨
    ((linesOf file).length ≤ 20 ∧ ∀ l ∈ linesOf file, ∃ line, l = line ++ ['\n'] ∧ TypedLine line)

/-! ## Lines -/

theorem splitLines_eq : ∀ file : List Char, file = fileOf (splitLines file).1 ++ (splitLines file).2
  | [] => rfl
  | c :: s => by
    have ih := splitLines_eq s
    rw [splitLines]
    split
    · rename_i hc
      rw [hc]
      exact congrArg ('\n' :: ·) ih
    · split
      · rename_i hls
        rw [hls] at ih
        exact congrArg (c :: ·) ih
      · rename_i hls
        rw [hls] at ih
        exact congrArg (c :: ·) ih

theorem splitLines_noNewline : ∀ file : List Char, (∀ l ∈ (splitLines file).1, '\n' ∉ l) ∧ '\n' ∉ (splitLines file).2
  | [] => ⟨fun _ h => absurd h List.not_mem_nil, List.not_mem_nil⟩
  | c :: s => by
    obtain ⟨hls, hr⟩ := splitLines_noNewline s
    rw [splitLines]
    split
    · exact ⟨List.forall_mem_cons.2 ⟨List.not_mem_nil, hls⟩, hr⟩
    · rename_i hc
      split
      · refine ⟨fun _ h => absurd h List.not_mem_nil, ?_⟩
        rw [List.mem_cons, not_or]
        exact ⟨fun h => hc h.symm, hr⟩
      · rename_i l ls hls'
        rw [hls', List.forall_mem_cons] at hls
        refine ⟨List.forall_mem_cons.2 ⟨?_, hls.2⟩, hr⟩
        rw [List.mem_cons, not_or]
        exact ⟨fun h => hc h.symm, hls.1⟩

/-! ## What is stored -/

section Stores

variable {mem : Nat → Char} {count : Nat} {s : List Char}

theorem apply_cons (mem : Nat → Char) (a : Nat) (c : Char) (l : List Char) :
    Put.apply (Function.update mem a c) ⟨a + 1, l⟩ = Put.apply mem ⟨a, c :: l⟩ := by
  funext i
  unfold Put.apply
  simp only
  rcases Nat.lt_trichotomy i a with hi | rfl | hi
  · rw [if_neg (by omega), if_neg (by omega), Function.update_of_ne (Nat.ne_of_lt hi)]
  · rw [if_neg (by omega), if_pos (Nat.le_refl _), Function.update_self, Nat.sub_self]
    rfl
  · rw [if_pos (by omega), if_pos (Nat.le_of_lt hi), Function.update_of_ne (Nat.ne_of_gt hi),
      show i - a = i - (a + 1) + 1 by omega, List.getElem?_cons_succ]

theorem apply_nil (mem : Nat → Char) (a : Nat) : Put.apply mem ⟨a, []⟩ = mem := by
  funext i
  exact Put.apply_outside (by unfold Put.stop; show i < a ∨ a + 0 ≤ i; omega)

theorem after_after (r : Loaded) (is is' : List Nat) : (r.after is').after is = r.after (is ++ is') := by
  unfold Loaded.after
  rw [List.append_assoc]

/-- **A line is stored**, with its newline and the zero behind it. -/
theorem loadHistory_line (s : List Char) :
    ∀ {l : List Char} {mem : Nat → Char} {o : Nat}, '\n' ∉ l → o + l.length ≤ 1024 →
    loadHistory mem count o (l ++ '\n' :: s) =
      (loadHistory (Put.apply mem ⟨rowLen * count + o, l ++ ['\n', nul]⟩) (count + 1) 0 s).after
        (List.range' (rowLen * count + o) (l.length + 2))
  | [], mem, o, _, hlen => by
    rw [List.nil_append, List.nil_append, ← apply_cons, ← apply_cons, apply_nil]
    exact (if_neg (by rw [List.length_nil] at hlen; omega)).trans (if_pos rfl)
  | c :: l, mem, o, hn, hlen => by
    obtain ⟨hcn, hln⟩ := not_or.1 fun hc => hn (List.mem_cons.2 hc)
    rw [List.length_cons] at hlen
    have hstep : loadHistory mem count o (c :: l ++ '\n' :: s) =
        (loadHistory (Function.update mem (rowLen * count + o) c) count (o + 1) (l ++ '\n' :: s)).after
        [rowLen * count + o] :=
      (if_neg (by omega)).trans (if_neg (Ne.symm hcn))
    rw [hstep, loadHistory_line s hln (by omega), after_after, ← Nat.add_assoc, apply_cons]
    rfl

/-- **A line that is too long** is rejected, one byte behind its row. -/
theorem loadHistory_long (count : Nat) (c : Char) (s : List Char) :
    ∀ {l : List Char} (mem : Nat → Char) {o : Nat}, '\n' ∉ l → o + l.length = 1025 →
    ∃ mem', loadHistory mem count o (l ++ c :: s) = ⟨mem', count, true, List.range' (rowLen * count + o) (l.length + 1)⟩
  | [], mem, o, _, hlen => ⟨_, if_pos (by rw [List.length_nil] at hlen; omega)⟩
  | d :: l, mem, o, hn, hlen => by
    obtain ⟨hdn, hln⟩ := not_or.1 fun hd => hn (List.mem_cons.2 hd)
    rw [List.length_cons] at hlen
    have hstep : loadHistory mem count o (d :: l ++ c :: s) =
        (loadHistory (Function.update mem (rowLen * count + o) d) count (o + 1) (l ++ c :: s)).after
        [rowLen * count + o] :=
      (if_neg (by omega)).trans (if_neg (Ne.symm hdn))
    obtain ⟨mem', h⟩ := loadHistory_long count c s (Function.update mem (rowLen * count + o) d) hln
        (show o + 1 + l.length = 1025 by omega)
    exact ⟨mem', by rw [hstep, h]; rfl⟩

/-- **What is behind the last newline** is stored, and not counted. -/
theorem loadHistory_rest (count : Nat) :
    ∀ {l : List Char} (mem : Nat → Char) {o : Nat}, '\n' ∉ l → o + l.length ≤ 1025 →
    loadHistory mem count o l =
    ⟨Put.apply mem ⟨rowLen * count + o, l⟩, count, false, List.range' (rowLen * count + o) l.length⟩
  | [], mem, o, _, _ => by
    rw [apply_nil]
    rfl
  | c :: l, mem, o, hn, hlen => by
    obtain ⟨hcn, hln⟩ := not_or.1 fun hc => hn (List.mem_cons.2 hc)
    rw [List.length_cons] at hlen
    have hstep : loadHistory mem count o (c :: l) =
        (loadHistory (Function.update mem (rowLen * count + o) c) count (o + 1) l).after [rowLen * count + o] :=
      (if_neg (by omega)).trans (if_neg (Ne.symm hcn))
    rw [hstep, loadHistory_rest count _ hln (by omega), ← Nat.add_assoc, apply_cons]
    rfl

/-- The writes of some lines, from row `count` on. -/
def putLines (count : Nat) : List (List Char) → List (Put Char)
  | [] => []
  | l :: ls => ⟨rowLen * count, l ++ ['\n', nul]⟩ :: putLines (count + 1) ls

/-- **Lines are stored**, each from the start of its row. -/
theorem loadHistory_lines (s : List Char) :
    ∀ {ls : List (List Char)} (mem : Nat → Char) (count : Nat), (∀ l ∈ ls, '\n' ∉ l) →
    (∀ l ∈ ls, l.length ≤ 1024) → ∃ is, loadHistory mem count 0 (fileOf ls ++ s) =
      (loadHistory ((putLines count ls).foldl Put.apply mem) (count + ls.length) 0 s).after is ∧
      ∀ i ∈ is, i ≤ rowLen * (count + ls.length)
  | [], mem, count, _, _ => ⟨[], rfl, fun _ h => absurd h List.not_mem_nil⟩
  | l :: ls, mem, count, hn, hlen => by
    rw [List.forall_mem_cons] at hn hlen
    obtain ⟨is, hrun, his⟩ :=
      loadHistory_lines s (Put.apply mem ⟨rowLen * count, l ++ ['\n', nul]⟩) (count + 1) hn.2 hlen.2
    have hcat : fileOf (l :: ls) ++ s = l ++ '\n' :: (fileOf ls ++ s) := by
      unfold fileOf
      rw [List.flatMap_cons, List.append_assoc, List.append_assoc]
      rfl
    rw [hcat, loadHistory_line _ hn.1 (by omega), Nat.add_zero, hrun, after_after, List.length_cons,
      Nat.add_assoc count,
      Nat.add_comm 1]
    refine ⟨_, rfl, fun i hi => ?_⟩
    rcases List.mem_append.1 hi with hi | hi
    · have hmem := List.mem_range'_1.1 hi
      have hrow : rowLen * (count + 1) = rowLen * count + 1025 := rfl
      have hmono : rowLen * (count + 1) ≤ rowLen * (count + (ls.length + 1)) := Nat.mul_le_mul_left _ (by omega)
      omega
    · have h := his i hi
      rwa [Nat.add_assoc, Nat.add_comm 1] at h

theorem putLines_above :
    ∀ {ls : List (List Char)} {count : Nat} {w : Put Char}, w ∈ putLines count ls → rowLen * count ≤ w.addr
  | l :: ls, count, w, h => by
    rcases List.mem_cons.1 h with rfl | h
    · exact Nat.le_refl _
    · exact Nat.le_trans (Nat.mul_le_mul_left _ (Nat.le_succ _)) (putLines_above h)

/-- **The rows hold the lines**, as far as they are in their rows. -/
theorem putLines_row : ∀ {ls : List (List Char)} (mem : Nat → Char) (count : Nat) {i j : Nat} (hi : i < ls.length)
    (hj : j < (ls[i] ++ ['\n', nul]).length), j < rowLen →
    (putLines count ls).foldl Put.apply mem (rowLen * (count + i) + j) = (ls[i] ++ ['\n', nul])[j]
  | l :: ls, mem, count, 0, j, _, hj, hrow => by
    rw [putLines, List.foldl_cons, Put.foldl_outside]
    · exact Put.apply_inside (w := ⟨rowLen * count, l ++ ['\n', nul]⟩) hj
    · intro w hw
      have h := putLines_above hw
      rw [Nat.mul_succ] at h
      exact .inl (by rw [Nat.add_zero]; omega)
  | l :: ls, mem, count, i + 1, j, hi, hj, hrow => by
    have h := putLines_row (Put.apply mem ⟨rowLen * count, l ++ ['\n', nul]⟩) (count + 1)
        (Nat.lt_of_succ_lt_succ hi) hj hrow
    rw [Nat.add_assoc, Nat.add_comm 1] at h
    exact h

end Stores

/-! ## What is loaded -/

theorem flatten_linesOf (file : List Char) : (linesOf file).flatten = file := by
  have h := splitLines_eq file
  unfold linesOf
  rw [List.flatten_append]
  refine Eq.trans ?_ h.symm
  congr 1
  split
  · rename_i hr
    exact hr.symm
  · exact List.append_nil _

theorem mem_linesOf {file l : List Char} (h : l ∈ linesOf file) :
    (∃ b ∈ (splitLines file).1, l = b ++ ['\n']) ∨ l = (splitLines file).2 := by
  unfold linesOf at h
  rcases List.mem_append.1 h with h | h
  · obtain ⟨b, hb, rfl⟩ := List.mem_map.1 h
    exact .inl ⟨b, hb, rfl⟩
  · split at h
    · exact absurd h List.not_mem_nil
    · exact .inr (List.mem_singleton.1 h)

theorem newline_last {file l : List Char} (h : l ∈ linesOf file) {n : Nat} (hn : n < l.length) : '\n' ∉ l.take n := by
  obtain ⟨hls, hr⟩ := splitLines_noNewline file
  intro hm
  rcases mem_linesOf h with ⟨b, hb, rfl⟩ | rfl
  · rw [List.length_append, List.length_singleton] at hn
    rw [List.take_append_of_le_length (by omega)] at hm
    exact hls b hb (List.mem_of_mem_take hm)
  · exact hr (List.mem_of_mem_take hm)

theorem ended_before {file l : List Char} {pre post : List (List Char)} (h : linesOf file = pre ++ l :: post) :
    ∃ ls : List (List Char), pre = ls.map (· ++ ['\n']) ∧ ∀ x ∈ ls, '\n' ∉ x := by
  have hlen := congrArg List.length h
  unfold linesOf at h hlen
  rw [List.length_append, List.length_append, List.length_map, List.length_cons] at hlen
  have hpre : pre.length ≤ ((splitLines file).1.map (· ++ ['\n'])).length := by
    rw [List.length_map]
    split at hlen
    · rw [List.length_nil] at hlen
      omega
    · rw [List.length_singleton] at hlen
      omega
  refine ⟨(splitLines file).1.take pre.length, ?_, fun x hx =>
    (splitLines_noNewline file).1 x (List.mem_of_mem_take hx)⟩
  have htake := congrArg (List.take pre.length) h
  rw [List.take_left, List.take_append_of_le_length hpre] at htake
  rw [List.map_take]
  exact htake.symm

/-- **The first line that is too long** is rejected: the last store is a byte behind its row. -/
theorem loadFile_long {file l : List Char} {pre post : List (List Char)} (h : linesOf file = pre ++ l :: post)
    (hpre : ∀ x ∈ pre, x.length ≤ 1025) (hl : 1026 ≤ l.length) : (loadFile file).rejected = true ∧
      ((∀ i ∈ (loadFile file).stores, i < allLinesSize) ↔ pre.length ≤ 23) := by
  obtain ⟨ls, rfl, hls⟩ := ended_before h
  have hmem : l ∈ linesOf file := by
    rw [h]
    exact List.mem_append_right _ List.mem_cons_self
  have hshort : ∀ x ∈ ls, x.length ≤ 1024 := by
    intro x hx
    have hx' := hpre _ (List.mem_map_of_mem hx)
    rw [List.length_append, List.length_singleton] at hx'
    omega
  obtain ⟨c, s, hcs⟩ : ∃ c s, l.drop 1025 = c :: s := List.exists_cons_of_ne_nil (by
    intro hnil
    have := congrArg List.length hnil
    rw [List.length_drop, List.length_nil] at this
    omega)
  have hfile : file = fileOf ls ++ (l.take 1025 ++ c :: (s ++ post.flatten)) := by
    have hflat := flatten_linesOf file
    rw [h, List.flatten_append, List.flatten_cons] at hflat
    have hcat : l ++ post.flatten = l.take 1025 ++ c :: (s ++ post.flatten) := by
      rw [← List.cons_append, ← hcs, ← List.append_assoc, List.take_append_drop]
    rw [← hcat]
    unfold fileOf
    rw [List.flatMap_def]
    exact hflat.symm
  have htake : (l.take 1025).length = 1025 := by
    rw [List.length_take]
    omega
  obtain ⟨is, hrun, his⟩ := loadHistory_lines (l.take 1025 ++ c :: (s ++ post.flatten)) (fun _ => nul) 0 hls hshort
  obtain ⟨mem', hlong⟩ :=
    loadHistory_long (0 + ls.length) c (s ++ post.flatten) ((putLines 0 ls).foldl Put.apply fun _ => nul)
    (newline_last hmem (show 1025 < l.length by omega)) (show 0 + (l.take 1025).length = 1025 by omega)
  have hload : loadFile file = ⟨mem', 0 + ls.length, true, is ++ List.range' (rowLen * (0 + ls.length) + 0) 1026⟩ := by
    unfold loadFile
    rw [hfile, hrun, hlong, htake]
    rfl
  rw [hload, List.length_map]
  refine ⟨rfl, fun hin => ?_, fun hfew i hi => ?_⟩
  · have hlast : rowLen * (0 + ls.length) + 1025 < allLinesSize :=
      hin _ (List.mem_append_right _ (List.mem_range'_1.2 ⟨by omega, by omega⟩))
    unfold allLinesSize rowCount rowLen at hlast
    omega
  · unfold allLinesSize rowCount rowLen
    rcases List.mem_append.1 hi with hi | hi
    · have h := his i hi
      unfold rowLen at h
      omega
    · have h := (List.mem_range'_1.1 hi).2
      unfold rowLen at h
      omega

/-- **Lines that fit** are loaded, each of them into its row. -/
theorem loadFile_short {file : List Char} (h : ∀ l ∈ linesOf file, l.length ≤ 1025) : (loadFile file).rejected = false ∧
    (loadFile file).count = (splitLines file).1.length ∧
    (∀ i ∈ (loadFile file).stores, i ≤ rowLen * ((splitLines file).1.length + 1)) ∧
    ∀ i (hi : i < (splitLines file).1.length) j (hj : j < ((splitLines file).1[i] ++ ['\n', nul]).length), j < rowLen →
      rowOf (loadFile file).mem i j = ((splitLines file).1[i] ++ ['\n', nul])[j] := by
  obtain ⟨hls, hr⟩ := splitLines_noNewline file
  have hshort : ∀ l ∈ (splitLines file).1, l.length ≤ 1024 := by
    intro l hl
    have hl' := h (l ++ ['\n']) (List.mem_append_left _ (List.mem_map_of_mem hl))
    rw [List.length_append, List.length_singleton] at hl'
    omega
  have hrest : (splitLines file).2.length ≤ 1025 := by
    by_cases hnil : (splitLines file).2 = []
    · rw [hnil]
      exact Nat.zero_le _
    · refine h _ (List.mem_append_right _ ?_)
      rw [if_neg hnil]
      exact List.mem_singleton_self _
  obtain ⟨is, hrun, his⟩ := loadHistory_lines (splitLines file).2 (fun _ => nul) 0 hls hshort
  have hend := loadHistory_rest (0 + (splitLines file).1.length)
      ((putLines 0 (splitLines file).1).foldl Put.apply fun _ => nul)
    (o := 0) hr (by omega)
  rw [hend, ← splitLines_eq file, Nat.zero_add] at hrun
  have hload : loadFile file = _ := hrun
  rw [hload]
  refine ⟨rfl, rfl, fun i hi => ?_, fun i hi j hj hrow => ?_⟩
  · rw [Nat.mul_succ]
    rcases List.mem_append.1 hi with hi | hi
    · have h := his i hi
      rw [Nat.zero_add] at h
      omega
    · have h := (List.mem_range'_1.1 hi).2
      unfold rowLen at h ⊢
      omega
  · have hbelow : rowLen * i + j < rowLen * (splitLines file).1.length := by
      have := Nat.mul_le_mul_left rowLen (Nat.succ_le_of_lt hi)
      rw [Nat.mul_succ] at this
      omega
    have h := putLines_row (fun _ => nul) 0 hi hj hrow
    rw [Nat.zero_add] at h
    exact (Put.apply_outside (.inl hbelow)).trans h

/-! ## Which files are loaded -/

theorem Row.nul_notMem_str (r : Row) : nul ∉ r.str := fun h => by
  have := List.mem_takeWhile_imp h
  rw [bne_self_eq_false] at this
  cases this

theorem loadFile_holds {file : List Char} (h : ∀ l ∈ linesOf file, l.length ≤ 1025) {i : Nat}
    (hi : i < (splitLines file).1.length) (hn : nul ∉ (splitLines file).1[i])
    (hlen : ((splitLines file).1[i]).length ≤ 1023) :
    (rowOf (loadFile file).mem i).str = (splitLines file).1[i] ++ ['\n'] := by
  obtain ⟨-, -, -, hrows⟩ := loadFile_short h
  have hcat : (splitLines file).1[i] ++ ['\n', nul] = ((splitLines file).1[i] ++ ['\n']) ++ [nul] := by
    rw [List.append_assoc]
    rfl
  have hholds : (rowOf (loadFile file).mem i).Holds ((splitLines file).1[i] ++ ['\n']) := by
    refine ⟨fun j hj => ?_, ?_⟩
    · rw [List.length_append, List.length_singleton] at hj
      rw [hrows i hi j (by rw [List.length_append]; show j < _ + 2; omega) (by show j < 1025; omega)]
      simp only [hcat]
      exact List.getElem_append_left _
    · rw [List.length_append, List.length_singleton, hrows i hi _ (by rw [List.length_append]; show _ < _ + 2; omega)
        (by show _ < 1025; omega)]
      simp only [hcat]
      exact List.getElem_concat_length (by rw [List.length_append, List.length_singleton]) _
  refine hholds.str ?_ ?_
  · rw [List.mem_append, not_or, List.mem_singleton]
    exact ⟨hn, by decide⟩
  · rw [List.length_append, List.length_singleton]
    show _ < 1025
    omega

theorem rtake_map {α β : Type} (f : α → β) (l : List α) (n : Nat) : (l.map f).rtake n = (l.rtake n).map f := by
  unfold List.rtake
  rw [List.length_map, List.map_drop]

theorem rtake_of_length_le {α : Type} {l : List α} {n : Nat} (h : l.length ≤ n) : l.rtake n = l := by
  unfold List.rtake
  rw [Nat.sub_eq_zero_of_le h, List.drop_zero]

theorem lines_typed {file : List Char} (h : ∀ l ∈ linesOf file, ∃ line, l = line ++ ['\n'] ∧ TypedLine line) :
    linesOf file = (splitLines file).1.map (· ++ ['\n']) ∧ file = fileOf (splitLines file).1 ∧
    ∀ l ∈ (splitLines file).1, TypedLine l := by
  have hrest : (splitLines file).2 = [] := by
    by_contra hne
    have hmem : (splitLines file).2 ∈ linesOf file := by
      refine List.mem_append_right _ ?_
      rw [if_neg hne]
      exact List.mem_singleton_self _
    obtain ⟨line, hline, -⟩ := h _ hmem
    refine (splitLines_noNewline file).2 ?_
    rw [hline]
    exact List.mem_append_right _ (List.mem_singleton_self _)
  refine ⟨?_, ?_, fun l hl => ?_⟩
  · unfold linesOf
    rw [if_pos hrest, List.append_nil]
  · have heq := splitLines_eq file
    rwa [hrest, List.append_nil] at heq
  · obtain ⟨line, hline, htyped⟩ := h (l ++ ['\n']) (List.mem_append_left _ (List.mem_map_of_mem hl))
    rw [List.append_cancel_right hline]
    exact htyped

/-- **Few lines that could have been typed are kept.** -/
theorem keeps_typed {file : List Char} (hfew : (linesOf file).length ≤ 20)
    (htyped : ∀ l ∈ linesOf file, ∃ line, l = line ++ ['\n'] ∧ TypedLine line) :
    (∀ i ∈ (loadFile file).stores, i < allLinesSize) ∧ KeepsLines file (loadFile file) := by
  obtain ⟨hlines, hfile, hls⟩ := lines_typed htyped
  have hshort : ∀ l ∈ linesOf file, l.length ≤ 1025 := by
    intro l hl
    obtain ⟨line, rfl, hline⟩ := htyped l hl
    have := hline.short
    rw [List.length_append, List.length_singleton]
    omega
  obtain ⟨-, hcount, hstores, -⟩ := loadFile_short hshort
  have hlen : (linesOf file).length = (splitLines file).1.length := by rw [hlines, List.length_map]
  have hrecent : recent (splitLines file).1 = (splitLines file).1 := rtake_of_length_le (by omega)
  have hrows : ∀ i (hi : i < (splitLines file).1.length),
      (rowOf (loadFile file).mem i).str = (splitLines file).1[i] ++ ['\n'] := fun i hi =>
    loadFile_holds hshort hi (hls _ (List.getElem_mem hi)).noNul (hls _ (List.getElem_mem hi)).short
  have hkept : Remembered (splitLines file).1 ((loadFile file).mosh file) := by
    refine ⟨?_, ?_, fun i hi => ?_⟩
    · rw [hrecent, ← hfile]
      rfl
    · show (loadFile file).count = _
      omega
    · simp only [hrecent] at hi ⊢
      exact hrows i hi
  refine ⟨fun i hi => ?_, ⟨by omega, by omega, fun i hi => ?_, fun line hline => ?_⟩⟩
  · have h := hstores i hi
    unfold allLinesSize rowCount
    unfold rowLen at h ⊢
    omega
  · have hkeep : (linesOf file).rtake 20 = (splitLines file).1.map (· ++ ['\n']) :=
      (rtake_of_length_le hfew).trans hlines
    simp only [hkeep, List.length_map] at hi ⊢
    rw [List.getElem_map]
    refine ⟨hrows i hi, ?_⟩
    have := (hls _ (List.getElem_mem hi)).short
    rw [List.length_append, List.length_singleton]
    show _ < 1025
    omega
  · obtain ⟨t, ht, hkept'⟩ := saveLine_remembers hkept hls hline
    refine ⟨t, ht, hkept'.file.trans ?_⟩
    have hcat : linesOf file ++ [line ++ ['\n']] = ((splitLines file).1 ++ [line]).map (· ++ ['\n']) := by
      rw [hlines, List.map_append, List.map_singleton]
    rw [hcat, rtake_map]
    exact congrArg some (List.flatMap_def ..)

/-- **What is kept could have been typed**, and is not more than twenty lines. -/
theorem typed_of_keeps {file : List Char} (hshort : ∀ l ∈ linesOf file, l.length ≤ 1025)
    (h : KeepsLines file (loadFile file)) :
    (linesOf file).length ≤ 20 ∧ ∀ l ∈ linesOf file, ∃ line, l = line ++ ['\n'] ∧ TypedLine line := by
  obtain ⟨-, hcount, -, -⟩ := loadFile_short hshort
  obtain ⟨hls, hr⟩ := splitLines_noNewline file
  have hfew := h.few
  have hmin := h.count
  -- a line whose row is read back as it is
  have hgood : ∀ l ∈ (linesOf file).rtake 20, nul ∉ l ∧ l.length ≤ 1024 := by
    intro l hl
    obtain ⟨i, hi, rfl⟩ := List.getElem_of_mem hl
    obtain ⟨hstr, hlen⟩ := h.rows i hi
    refine ⟨fun hn => Row.nul_notMem_str (rowOf (loadFile file).mem i) (hstr ▸ hn), Nat.le_of_lt_succ hlen⟩
  have hrest : (splitLines file).2 = [] := by
    by_contra hne
    -- twenty lines end, the first of them is lost, and the last row is not what is behind the newline
    have hlines : linesOf file = (splitLines file).1.map (· ++ ['\n']) ++ [(splitLines file).2] := by
      unfold linesOf
      rw [if_neg hne]
    have hlen : (linesOf file).length = (splitLines file).1.length + 1 := by
      rw [hlines, List.length_append, List.length_map, List.length_singleton]
    have h20 : (splitLines file).1.length = 20 := by omega
    have hkeep : (linesOf file).rtake 20 = (linesOf file).drop 1 := by
      unfold List.rtake
      rw [hlen, h20]
    have hlast : ((linesOf file).rtake 20)[19]? = some (splitLines file).2 := by
      rw [hkeep, List.getElem?_drop, hlines, List.getElem?_append_right (by rw [List.length_map, h20]),
        List.length_map, h20]
      rfl
    have hbefore : ((linesOf file).rtake 20)[18]? = some ((splitLines file).1[19] ++ ['\n']) := by
      rw [hkeep, List.getElem?_drop, hlines,
        List.getElem?_append_left (by rw [List.length_map, h20]; decide), List.getElem?_map,
        List.getElem?_eq_getElem (by rw [h20]; decide)]
      rfl
    obtain ⟨hn, hl1024⟩ := hgood _ (List.mem_of_getElem? hbefore)
    rw [List.mem_append, not_or] at hn
    rw [List.length_append, List.length_singleton] at hl1024
    have hrow := loadFile_holds hshort (i := 19) (by rw [h20]; decide) hn.1 (by omega)
    obtain ⟨h19, hlast⟩ := List.getElem?_eq_some_iff.1 hlast
    have hstr := (h.rows 19 h19).1
    rw [hlast, hrow] at hstr
    refine hr ?_
    rw [← hstr]
    exact List.mem_append_right _ (List.mem_singleton_self _)
  have hlines : linesOf file = (splitLines file).1.map (· ++ ['\n']) := by
    unfold linesOf
    rw [if_pos hrest, List.append_nil]
  have hlen : (linesOf file).length ≤ 20 := by
    rw [hlines, List.length_map]
    omega
  refine ⟨hlen, fun l hl => ?_⟩
  rw [rtake_of_length_le hlen] at hgood
  obtain ⟨hn, hl1024⟩ := hgood l hl
  rw [hlines] at hl
  obtain ⟨b, hb, rfl⟩ := List.mem_map.1 hl
  rw [List.mem_append, not_or] at hn
  rw [List.length_append, List.length_singleton] at hl1024
  exact ⟨b, rfl, ⟨by omega, hn.1, hls b hb⟩⟩

/-- **Which files are loaded**: the loader stays in `all_lines`, and rejects the file or keeps its last lines, exactly
for a file that has a line of more than 1025 bytes among its first 24, or at most twenty lines that could have been
typed. -/
theorem init_mosh_history_iff (file : List Char) : LoadsWell file ↔ Loadable file := by
  unfold LoadsWell Loadable
  cases hfind : (linesOf file).find? (fun l => decide (1026 ≤ l.length)) with
  | some l =>
    obtain ⟨hl, pre, post, hlines, hpre⟩ := List.find?_eq_some_iff_append.1 hfind
    have hl : 1026 ≤ l.length := of_decide_eq_true hl
    have hpre : ∀ x ∈ pre, x.length ≤ 1025 := by
      intro x hx
      have := hpre x hx
      rw [Bool.not_eq_true', decide_eq_false_iff_not] at this
      omega
    obtain ⟨hrej, hstores⟩ := loadFile_long hlines hpre hl
    rw [hstores]
    constructor
    · rintro ⟨hfew, -⟩
      refine .inl ⟨pre.length, hfew, l, ?_, hl, ?_⟩
      · rw [hlines, List.getElem?_append_right (Nat.le_refl _), Nat.sub_self]
        rfl
      · rw [hlines, List.take_left]
        exact hpre
    · rintro (⟨j, hj, l', hl', hlong, hbefore⟩ | ⟨-, htyped⟩)
      · refine ⟨?_, .inl hrej⟩
        by_contra hmany
        -- the line at `j` would be one of those before
        have hlt : j < pre.length := by omega
        rw [hlines, List.getElem?_append_left hlt] at hl'
        have := hpre l' (List.mem_of_getElem? hl')
        omega
      · obtain ⟨line, rfl, hline⟩ := htyped l (by rw [hlines]; exact List.mem_append_right _ List.mem_cons_self)
        have := hline.short
        rw [List.length_append, List.length_singleton] at hl
        omega
  | none =>
    have hshort : ∀ l ∈ linesOf file, l.length ≤ 1025 := by
      intro l hl
      have := List.find?_eq_none.1 hfind l hl
      rw [decide_eq_true_eq] at this
      omega
    constructor
    · rintro ⟨-, hrej | hkeeps⟩
      · rw [(loadFile_short hshort).1] at hrej
        cases hrej
      · exact .inr (typed_of_keeps hshort hkeeps)
    · rintro (⟨j, -, l, hl, hlong, -⟩ | ⟨hfew, htyped⟩)
      · have := hshort l (List.mem_of_getElem? hl)
        omega
      · obtain ⟨hstores, hkeeps⟩ := keeps_typed hfew htyped
        exact ⟨hstores, .inr hkeeps⟩

/-- Twenty-one empty lines are loaded as twenty-one. -/
theorem init_mosh_history_many : ¬LoadsWell (List.replicate 21 '\n') := by
  rintro ⟨-, hrej | hkeeps⟩
  · exact absurd hrej (by decide)
  · exact absurd hkeeps.few (by decide)

end Mos.Sh
