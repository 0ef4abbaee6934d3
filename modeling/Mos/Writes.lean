import Mos.StatusDelivery
/-!
# Writes — what `parsecmd` and `runcmd` store in their arrays

The words of a command line are bounded by the line, and so is the text that is copied for a backquoted argument; `argv`
and the text of a background command have bounds of their own.  `Laid` says where the words of a process lie in the
line it parses, and what a process writes next is read off from there.
-/
namespace Mos.Sh

/-! ## The arrays -/

inductive Local where
  | argv
  | tmp
  | tempCmd
deriving DecidableEq, Repr

/-- The number of elements. -/
def Local.size : Local → Int
  | .argv => maxArgs
  | .tmp => 1000
  | .tempCmd => 1024

structure Write where
  into : Local
  index : Int
deriving DecidableEq, Repr

def Write.Inside (w : Write) : Prop := 0 ≤ w.index ∧ w.index < w.into.size

instance (w : Write) : Decidable w.Inside := inferInstanceAs (Decidable (_ ∧ _))

/-- The longest line of `readline`. -/
def maxLine : Nat := 1023

/-- What the source does not fix: where `outbuf` lies from `s` on, and the bytes around `s_copy`, in each process. -/
structure Memory where
  outbuf : Nat → Int
  around : Nat → Int → Char

/-! ## The command lines -/

/-- The shell, with the `s_copy` of each process. -/
structure Copied where
  shell : Shell
  copy : Nat → List Char

/-- The text that the process gives to one it makes. -/
def Proc.given (pr : Proc) (copy : List Char) : List Char :=
  match pr.pc with
  | .args i => ' ' :: ((pr.argv[i]?).map fun w => w.text.tail).getD []
  | _ => copy

namespace Copied

def given (s : Copied) (p : Nat) : List Char := ((s.shell.procs p).map fun pr => pr.given (s.copy p)).getD (s.copy p)

def step (W : World) (s : Copied) (p : Nat) : Option Copied :=
  (s.shell.step W p).map fun t =>
    ⟨t, if t.count = s.shell.count then s.copy else Function.update s.copy s.shell.count (s.given p)⟩

def start (str : List Char) : Copied := ⟨Shell.start str, fun _ => str⟩

def Reached (W : World) (str : List Char) : Copied → Prop := Reach (· = start str) (step W)

end Copied

/-! ## What is written -/

/-- `parsecmd` returns `argc`, in this process or in the one it forks. -/
def Proc.returns (W : World) (pr : Proc) : Bool :=
  match pr.scan.nc with
  | .eof => true
  | .bar => W.pipes pr.argv
  | .semi => W.forks pr.argv
  | .or => W.forks pr.argv
  | .and => W.forks pr.argv
  | .amp => W.forks pr.argv
  | _ => false

/-- `argv[argc++] = t`, and `argv[argc] = 0`. -/
def Proc.argvWrites (W : World) (pr : Proc) : List Write :=
  if pr.scan.nc = .word then if maxArgs ≤ pr.argv.length then [] else [⟨.argv, pr.argv.length⟩]
  else if pr.returns W = true ∧ pr.argv ≠ [] then [⟨.argv, pr.argv.length⟩]
  else []

/-- `strcpy`, to the start of an array. -/
def strcpyWrites (a : Local) (s : List Char) : List Write := (List.range (s.length + 1)).map fun i : Nat => ⟨a, i⟩

/-- `strcpy(temp_cmd, argv[i])`, where the backquote is a blank now. -/
def Proc.tempCmdWrites (W : World) (pr : Proc) (i : Nat) : List Write :=
  match pr.argv[i]? with
  | none => []
  | some w =>
    if w.text.head? = some '`' ∧ W.pipes pr.argv = true ∧
      W.forks pr.argv = true then strcpyWrites .tempCmd w.text else []

/-- `w - s_begin` -/
def Word.offset (w : Word) (outbuf : Int) : Int :=
  match w.place with
  | .line i => i
  | .outbuf => outbuf

/-- `s_copy[i]` -/
def byteOfCopy (copy : List Char) (around : Int → Char) (i : Int) : Char :=
  if 0 ≤ i ∧ i < copy.length then copy.getD i.toNat (Char.ofNat 0)
    else if i = copy.length then Char.ofNat 0 else around i

/-- The loop that looks for `&`, for `n` turns. -/
def findEnd (byte : Int → Char) : Nat → Int → Int
  | 0, _ => 1024
  | n + 1, i => if byte i = '&' then i + 1 else findEnd byte n (i + 1)

/-- `argv[0]` -/
def Proc.first (pr : Proc) : Word := pr.argv.headD ⟨.line 0, []⟩

/-- `argv[argc - 1]` -/
def Proc.last (pr : Proc) : Word := pr.argv.getLastD ⟨.line 0, []⟩

/-- `argv[argc - 1] - s_begin + strlen(argv[argc - 1])` -/
def Proc.searchFrom (pr : Proc) (outbuf : Int) : Int := pr.last.offset outbuf + pr.last.text.length

/-- It comes to the text of a background command. -/
def Proc.background (pr : Proc) : Bool :=
  pr.back && !(pr.argv.prog = history ∨ pr.argv.prog = jobs ∨ (pr.argv.prog = kill ∨ pr.argv.prog = fg) ∧
    pr.argv.length = 1)

/-- `strcpy(tmp, s_copy + begin)` and `tmp[end - begin] = 0` -/
def Proc.tmpWrites (pr : Proc) (copy : List Char) (outbuf : Int) (around : Int → Char) : List Write :=
  let start := pr.searchFrom outbuf
  if pr.background then
    strcpyWrites .tmp (copy.drop (pr.first.offset outbuf).toNat) ++
      [⟨.tmp, findEnd (byteOfCopy copy around) (1024 - start).toNat start - pr.first.offset outbuf⟩]
  else []

/-- What the process `p` writes in its next step. -/
def Copied.writes (W : World) (M : Memory) (s : Copied) (p : Nat) : List Write :=
  match s.shell.procs p with
  | none => []
  | some pr =>
    match pr.pc with
    | .parse => pr.argvWrites W
    | .args i => pr.tempCmdWrites W i
    | .spawn => pr.tmpWrites (s.copy p) (M.outbuf p) (M.around p)
    | _ => []

/-! ## The condition -/

/-- From `start` on, up to 1024, the first `&` is one that a text from `begin` on may end at. -/
def EndsNear (byte : Int → Char) (start begin : Int) : Prop :=
  (∃ i, start ≤ i ∧ i < 1024 ∧ byte i = '&' ∧ (∀ k, start ≤ k → k < i → byte k ≠ '&') ∧ begin ≤ i + 1 ∧
    i + 1 < begin + 1000) ∨
    (∀ k, start ≤ k → k < 1024 → byte k ≠ '&') ∧ 24 < begin ∧ begin ≤ 1024

/-- **The condition on a step**: a command that `parsecmd` returns has not 128 words; and the line from a background
command on is shorter than 1000, and when the last argument of the command was in backquotes, memory has `&` near
enough. -/
def Copied.Meets (W : World) (M : Memory) (s : Copied) (p : Nat) : Prop :=
  ∀ pr, s.shell.procs p = some pr →
    (pr.pc = .parse → pr.returns W = true → pr.argv.length ≠ maxArgs) ∧
    (pr.pc = .spawn → pr.background = true →
      ((s.copy p).drop (pr.first.offset (M.outbuf p)).toNat).length < 1000 ∧
      (pr.last.place = .outbuf →
        EndsNear (byteOfCopy (s.copy p) (M.around p)) (pr.searchFrom (M.outbuf p)) (pr.first.offset (M.outbuf p))))

/-! ## Where words lie -/

/-- A word of the line ends at `a` at the latest. -/
def Word.Within (w : Word) (a : Nat) : Prop := ∀ i, w.place = .line i → i + w.text.length ≤ a

theorem Word.Within.mono {w : Word} {a b : Nat} (h : w.Within a) (hab : a ≤ b) : w.Within b :=
  fun i hi => Nat.le_trans (h i hi) hab

/-- The token ahead, in its line. -/
structure Ahead (str : List Char) (pos : Nat) (sc : Scan) : Prop where
  rest : sc.rest = str.drop sc.np2
  place : ∃ a, sc.np1.place = .line a ∧ pos ≤ a ∧ a ≤ sc.np2 ∧ (sc.nc = .amp → str[a]? = some '&')
  word : sc.nc = .word → sc.np1.Within str.length ∧ sc.np1.Within sc.np2

theorem length_takeWhile_le {p : Char → Bool} (s : List Char) : (s.takeWhile p).length ≤ s.length :=
  (List.takeWhile_sublist p).length_le

theorem dropWhile_eq_drop {p : Char → Bool} (s : List Char) : s.dropWhile p = s.drop (s.takeWhile p).length := by
  induction s with
  | nil => rfl
  | cons c s ih =>
    by_cases hc : p c
    · rw [List.dropWhile_cons_of_pos hc, List.takeWhile_cons_of_pos hc, List.length_cons, List.drop_succ_cons, ih]
    · rw [List.dropWhile_cons_of_neg hc, List.takeWhile_cons_of_neg hc]
      rfl

theorem drop_of_cons {str s : List Char} {pos : Nat} {c : Char} (h : str.drop pos = c :: s) (n : Nat) :
    s.drop n = str.drop (pos + 1 + n) := by
  rw [← List.drop_drop, ← List.drop_drop, h, List.drop_one, List.tail_cons]

theorem symbolTok_ne_word (c : Char) : symbolTok c ≠ .word := by
  unfold symbolTok
  split_ifs <;> decide

theorem symbolTok_amp {c : Char} (h : symbolTok c = .amp) : c = '&' := by
  unfold symbolTok at h
  split_ifs at h
  assumption

/-- **The token ahead lies in the line.** -/
theorem ahead_gettoken {str : List Char} :
    ∀ {s : List Char} {pos : Nat}, str.drop pos = s → Ahead str pos (_gettoken pos s)
  | [], pos, h => ⟨h.symm, ⟨pos, rfl, Nat.le_refl _, Nat.le_refl _, fun hc => by cases hc⟩, fun hc => by cases hc⟩
  | c :: s, pos, h => by
    have hrest := drop_of_cons h
    have hlen : str.length = pos + 1 + s.length := by
      have hl := congrArg List.length h
      rw [List.length_drop, List.length_cons] at hl
      omega
    have hat : str[pos]? = some c := by
      have hc : (str.drop pos)[0]? = str[pos + 0]? := List.getElem?_drop
      rw [h] at hc
      exact hc.symm
    have hq : ∀ q, Ahead str pos (quoted q pos s) := by
      intro q
      have htake := length_takeWhile_le (p := (· != q)) s
      refine ⟨?_, ⟨pos, rfl, Nat.le_refl _, ?_, fun hc => by cases hc⟩, fun _ => ⟨fun i hi => ?_, fun i hi => ?_⟩⟩
      · show (s.dropWhile (· != q)).drop 1 = str.drop (pos + (s.takeWhile (· != q)).length + 2)
        rw [dropWhile_eq_drop, List.drop_drop, hrest]
        congr 1
        omega
      · show pos ≤ pos + (s.takeWhile (· != q)).length + 2
        omega
      · cases hi
        show pos + (q :: s.takeWhile (· != q)).length ≤ str.length
        rw [List.length_cons]
        omega
      · cases hi
        show pos + (q :: s.takeWhile (· != q)).length ≤ pos + (s.takeWhile (· != q)).length + 2
        rw [List.length_cons]
        omega
    have hs : ∀ t n, t ≠ .word → (t = .amp → c = '&') → Ahead str pos (symbol t pos (n + 1) (s.drop n)) := by
      intro t n ht hamp
      refine ⟨?_, ⟨pos, rfl, Nat.le_refl _, Nat.le_add_right _ _, fun hc => ?_⟩, fun hc => absurd hc ht⟩
      · show s.drop n = str.drop (pos + (n + 1))
        rw [hrest]
        congr 1
        omega
      · rw [hat, hamp hc]
    unfold _gettoken
    split
    · obtain ⟨hr, ⟨a, ha, hle, hle', hamp⟩, hw⟩ := @ahead_gettoken str s (pos + 1) (by rw [← hrest 0]; rfl)
      exact ⟨hr, ⟨a, ha, by omega, hle', hamp⟩, hw⟩
    split
    · exact hq '"'
    split
    · exact hq '`'
    split
    · exact hs .append 1 (by decide) (fun hc => by cases hc)
    split
    · exact hs .or 1 (by decide) (fun hc => by cases hc)
    split
    · exact hs .and 1 (by decide) (fun hc => by cases hc)
    split
    · exact hs (symbolTok c) 0 (symbolTok_ne_word c) symbolTok_amp
    · have htake := length_takeWhile_le (p := inWord) s
      refine ⟨?_, ⟨pos, rfl, Nat.le_refl _, ?_, fun hc => by cases hc⟩, fun _ => ⟨fun i hi => ?_, fun i hi => ?_⟩⟩
      · show s.dropWhile inWord = str.drop (pos + 1 + (s.takeWhile inWord).length)
        rw [dropWhile_eq_drop, hrest]
      · show pos ≤ pos + 1 + (s.takeWhile inWord).length
        omega
      · cases hi
        show pos + (c :: s.takeWhile inWord).length ≤ str.length
        rw [List.length_cons]
        omega
      · cases hi
        show pos + (c :: s.takeWhile inWord).length ≤ pos + 1 + (s.takeWhile inWord).length
        rw [List.length_cons]
        omega

/-! ## The words of a process -/

/-- The words of a command lie in the line, in order, before the token ahead. -/
structure Placed (str : List Char) (sc : Scan) (argv : Cmd) : Prop where
  scan : ∃ pos, sc = _gettoken pos (str.drop pos)
  within : ∀ w ∈ argv, w.Within str.length
  behind : ∀ a, sc.np1.place = .line a → ∀ w ∈ argv, w.Within a
  order : ∀ b, argv.head?.map Word.place = some (.line b) → ∀ w ∈ argv, ∀ i, w.place = .line i → b ≤ i
  count : argv.length ≤ maxArgs

namespace Placed

variable {str : List Char} {sc : Scan} {argv : Cmd}

theorem nil (h : ∃ pos, sc = _gettoken pos (str.drop pos)) : Placed str sc [] :=
  ⟨h, nofun, fun _ _ => nofun, nofun, Nat.zero_le _⟩

theorem start (str : List Char) : Placed str (scanLine str) [] := nil ⟨0, rfl⟩

theorem ahead (h : Placed str sc argv) : ∃ pos, Ahead str pos sc := by
  obtain ⟨pos, rfl⟩ := h.scan
  exact ⟨pos, ahead_gettoken rfl⟩

theorem ahead_next (h : Placed str sc argv) : (∃ pos, sc.next = _gettoken pos (str.drop pos)) ∧
    ∀ a, sc.next.np1.place = .line a → sc.np2 ≤ a := by
  obtain ⟨pos, ha⟩ := h.ahead
  have hnext : sc.next = _gettoken sc.np2 (str.drop sc.np2) := by
    unfold Scan.next
    rw [ha.rest]
  obtain ⟨b, hb, hle, -⟩ := (@ahead_gettoken str _ sc.np2 rfl).place
  refine ⟨⟨_, hnext⟩, fun a h' => ?_⟩
  rw [hnext, hb] at h'
  cases h'
  exact hle

theorem next (h : Placed str sc argv) : Placed str sc.next argv := by
  obtain ⟨pos, ha⟩ := h.ahead
  obtain ⟨a, hplace, -, hle, -⟩ := ha.place
  obtain ⟨hscan, hfar⟩ := h.ahead_next
  exact ⟨hscan, h.within, fun b hb w hw => (h.behind a hplace w hw).mono
    (Nat.le_trans hle (hfar b hb)), h.order, h.count⟩

theorem word (h : Placed str sc argv) (hnc : sc.nc = .word) (hroom : argv.length < maxArgs) :
    Placed str sc.next (argv ++ [sc.np1]) := by
  obtain ⟨pos, ha⟩ := h.ahead
  obtain ⟨a, hplace, -, -, -⟩ := ha.place
  obtain ⟨hline, hnp2⟩ := ha.word hnc
  obtain ⟨-, hfar⟩ := h.ahead_next
  have hn := h.next
  refine ⟨hn.scan, fun w hw => ?_, fun b hb w hw => ?_, fun b hb w hw i hi => ?_, ?_⟩
  · rcases List.mem_append.1 hw with hw | hw
    · exact h.within w hw
    · exact List.mem_singleton.1 hw ▸ hline
  · rcases List.mem_append.1 hw with hw | hw
    · exact hn.behind b hb w hw
    · exact List.mem_singleton.1 hw ▸ hnp2.mono (hfar b hb)
  · cases argv with
    | nil =>
      rw [List.nil_append] at hw hb
      rw [List.head?_cons, Option.map_some] at hb
      rw [List.mem_singleton.1 hw, Option.some.inj hb] at hi
      cases hi
      exact Nat.le_refl _
    | cons v argv =>
      rw [List.cons_append, List.head?_cons, Option.map_some] at hb
      rcases List.mem_append.1 hw with hw | hw
      · exact h.order b hb w hw i hi
      · have hv := h.behind a hplace v List.mem_cons_self b (Option.some.inj hb)
        rw [List.mem_singleton.1 hw, hplace] at hi
        cases hi
        omega
  · rw [List.length_append, List.length_singleton]
    exact hroom

theorem shrink (h : Placed str sc argv) {argv' : Cmd} (hlen : argv'.length = argv.length)
    (hw : ∀ w' ∈ argv', w'.place = .outbuf ∨ ∃ w ∈ argv, w.place = w'.place ∧ w'.text.length ≤ w.text.length)
    (hhead : ∀ b, argv'.head?.map Word.place = some (.line b) → argv.head?.map Word.place = some (.line b)) :
    Placed str sc argv' := by
  have hfrom : ∀ w' ∈ argv', ∀ i, w'.place = .line i → ∃ w ∈ argv, w.place = .line i ∧
      w'.text.length ≤ w.text.length := by
    intro w' hw' i hi
    rcases hw w' hw' with ho | ⟨w, hw, hp, hle⟩
    · rw [ho] at hi
      cases hi
    · exact ⟨w, hw, hp.trans hi, hle⟩
  refine ⟨h.scan, fun w' hw' i hi => ?_, fun a ha w' hw' i hi => ?_, fun b hb w' hw' i hi => ?_, hlen ▸ h.count⟩
  · obtain ⟨w, hw, hp, hle⟩ := hfrom w' hw' i hi
    have := h.within w hw i hp
    omega
  · obtain ⟨w, hw, hp, hle⟩ := hfrom w' hw' i hi
    have := h.behind a ha w hw i hp
    omega
  · obtain ⟨w, hw, hp, -⟩ := hfrom w' hw' i hi
    exact h.order b (hhead b hb) w hw i hp

end Placed

/-- An argument that `echo` has not come to: it still is a word of the line. -/
def Pc.fresh (pc : Pc) (j : Nat) : Prop :=
  match pc with
  | .args i => i ≤ j
  | .output i => i < j
  | .spawn => False
  | .closing _ _ => False
  | .status _ => False
  | .late _ => False
  | .jammed => False
  | .forward _ => False
  | .waitRight => False
  | .exit => False
  | .main => False
  | .report _ => False
  | .gone => False
  | .fault => False
  | _ => True

theorem Pc.closes_fresh (c : Nat) (todo : List Nat) (j : Nat) : ¬(Pc.closes c todo).fresh j := by
  unfold Pc.closes
  split <;> exact fun hj => hj.elim

theorem Pc.closes_later (c : Nat) (todo : List Nat) (k : Nat) :
    ¬(Pc.closes c todo = .args k ∨ Pc.closes c todo = .output k) := by
  unfold Pc.closes
  split <;> simp

/-- Behind the words is an `&`. -/
def Marked (str : List Char) (argv : Cmd) : Prop := ∃ j, str[j]? = some '&' ∧ ∀ w ∈ argv, w.Within j

/-- **Where the words of a process lie.** -/
structure Laid (str : List Char) (pr : Proc) : Prop where
  short : str.length ≤ maxLine
  placed : Placed str pr.scan pr.argv
  fresh : ∀ j w, pr.argv[j]? = some w → (j = 0 ∨ pr.pc.fresh j) → ∃ i, w.place = .line i
  later : ∀ i, pr.pc = .args i ∨ pr.pc = .output i → 1 ≤ i
  marked : pr.back = true → pr.pc ≠ .parse → Marked str pr.argv

namespace Laid

variable {str : List Char} {pr : Proc}

theorem goes (h : Laid str pr) {pr' : Proc} (hscan : pr'.scan = pr.scan) (hargv : pr'.argv = pr.argv)
    (hfresh : ∀ j, pr'.pc.fresh j → j = 0 ∨ pr.pc.fresh j) (hlater : ∀ i, pr'.pc = .args i ∨ pr'.pc = .output i → 1 ≤ i)
    (hback : pr'.back = true → pr'.pc ≠ .parse → pr.back = true ∧ pr.pc ≠ .parse) : Laid str pr' := by
  refine ⟨h.short, ?_, ?_, hlater, fun hb hp => ?_⟩
  · rw [hscan, hargv]
    exact h.placed
  · intro j w hw hj
    rw [hargv] at hw
    exact h.fresh j w hw (hj.elim .inl (hfresh j))
  · rw [hargv]
    exact h.marked (hback hb hp).1 (hback hb hp).2

theorem nil (hshort : str.length ≤ maxLine) {pr' : Proc} (hscan : ∃ pos, pr'.scan = _gettoken pos (str.drop pos))
    (hargv : pr'.argv = []) (hpc : ∀ i, ¬(pr'.pc = .args i ∨ pr'.pc = .output i))
    (hback : pr'.back = true → pr'.pc = .parse) : Laid str pr' := by
  refine ⟨hshort, ?_, ?_, fun i hi => absurd hi (hpc i), fun hb hp => absurd (hback hb) hp⟩
  · rw [hargv]
    exact .nil hscan
  · intro j w hw
    rw [hargv] at hw
    cases hw

theorem turn (h : Laid str pr) (hfresh : ∀ j, pr.pc.fresh j) {pr' : Proc} (hscan : pr'.scan = pr.scan.next)
    (hargv : pr'.argv = pr.argv) (hpc : ∀ i, ¬(pr'.pc = .args i ∨ pr'.pc = .output i))
    (hback : pr'.back = true → Marked str pr.argv) : Laid str pr' := by
  refine ⟨h.short, ?_, ?_, fun i hi => absurd hi (hpc i), fun hb _ => ?_⟩
  · rw [hscan, hargv]
    exact h.placed.next
  · intro j w hw _
    rw [hargv] at hw
    exact h.fresh j w hw (.inr (hfresh j))
  · rw [hargv]
    exact hback hb

theorem word (h : Laid str pr) (hfresh : ∀ j, pr.pc.fresh j) (hnc : pr.scan.nc = .word)
    (hroom : pr.argv.length < maxArgs) {pr' : Proc} (hscan : pr'.scan = pr.scan.next)
    (hargv : pr'.argv = pr.argv ++ [pr.scan.np1]) (hpc : pr'.pc = .parse) : Laid str pr' := by
  obtain ⟨pos, ha⟩ := h.placed.ahead
  obtain ⟨a, hplace, -⟩ := ha.place
  refine ⟨h.short, ?_, ?_, ?_, fun _ hp => absurd hpc hp⟩
  · rw [hscan, hargv]
    exact h.placed.word hnc hroom
  · intro j w hw _
    rw [hargv] at hw
    rcases List.mem_append.1 (List.mem_of_getElem? hw) with hm | hm
    · obtain ⟨k, hk⟩ := List.getElem?_of_mem hm
      exact h.fresh k w hk (.inr (hfresh k))
    · rw [List.mem_singleton.1 hm]
      exact ⟨a, hplace⟩
  · intro i hi
    rw [hpc] at hi
    rcases hi with hi | hi <;> cases hi

theorem marked_amp (h : Laid str pr) (hnc : pr.scan.nc = .amp) : Marked str pr.argv := by
  obtain ⟨pos, ha⟩ := h.placed.ahead
  obtain ⟨a, hplace, -, -, hamp⟩ := ha.place
  exact ⟨a, hamp hnc, h.placed.behind a hplace⟩

theorem rewrite (h : Laid str pr) {pr' : Proc} (hscan : pr'.scan = pr.scan) (hlen : pr'.argv.length = pr.argv.length)
    (hw : ∀ j w', pr'.argv[j]? = some w' → w'.place = .outbuf ∧ ¬(j = 0 ∨ pr'.pc.fresh j) ∨
      ∃ w, pr.argv[j]? = some w ∧ w.place = w'.place ∧ w'.text.length ≤ w.text.length)
    (hfresh : ∀ j, pr'.pc.fresh j → pr.pc.fresh j) (hlater : ∀ i, pr'.pc = .args i ∨ pr'.pc = .output i → 1 ≤ i)
    (hpc : pr.pc ≠ .parse) (hback : pr'.back = pr.back) : Laid str pr' := by
  refine ⟨h.short, ?_, ?_, hlater, fun hb _ => ?_⟩
  · rw [hscan]
    refine h.placed.shrink hlen (fun w' hm => ?_) fun b hb => ?_
    · obtain ⟨j, hj⟩ := List.getElem?_of_mem hm
      rcases hw j w' hj with ⟨ho, -⟩ | ⟨w, hw, hp, hle⟩
      · exact .inl ho
      · exact .inr ⟨w, List.mem_of_getElem? hw, hp, hle⟩
    · obtain ⟨w', hw', hb⟩ := Option.map_eq_some_iff.1 hb
      rw [List.head?_eq_getElem?] at hw' ⊢
      rcases hw 0 w' hw' with ⟨-, hc⟩ | ⟨w, hw, hp, -⟩
      · exact absurd (.inl rfl) hc
      · rw [hw, Option.map_some, hp, hb]
  · intro j w' hj hf
    rcases hw j w' hj with ⟨-, hc⟩ | ⟨w, hw, hp, -⟩
    · exact absurd hf hc
    · obtain ⟨i, hi⟩ := h.fresh j w hw (hf.imp_right (hfresh j))
      exact ⟨i, hp ▸ hi⟩
  · rw [hback] at hb
    obtain ⟨j, hj, hall⟩ := h.marked hb hpc
    refine ⟨j, hj, fun w' hm i hi => ?_⟩
    obtain ⟨k, hk⟩ := List.getElem?_of_mem hm
    rcases hw k w' hk with ⟨ho, -⟩ | ⟨w, hw, hp, hle⟩
    · rw [ho] at hi
      cases hi
    · have := hall w (List.mem_of_getElem? hw) i (hp.trans hi)
      omega

theorem strip {i : Nat} (h : Laid str pr) (hpc : pr.pc = .args i) :
    Laid str { pr with pc := .args (i + 1), argv := stripQuote pr.argv i } := by
  refine h.rewrite rfl (List.length_modify _ _ _) (fun j w' hj => .inr ?_) (fun j hf => ?_) ?_ (by rw [hpc]; nofun) rfl
  · dsimp only at hj
    unfold stripQuote at hj
    rw [List.getElem?_modify] at hj
    obtain ⟨w, hw, rfl⟩ := Option.map_eq_some_iff.1 hj
    refine ⟨w, hw, ?_, ?_⟩
    · split <;> rfl
    · split
      · rw [List.length_tail]
        exact Nat.sub_le _ _
      · exact Nat.le_refl _
  · rw [hpc]
    exact Nat.le_of_succ_le hf
  · rintro k (hk | hk) <;> cases hk
    exact Nat.le_add_left 1 i

theorem put {i : Nat} (h : Laid str pr) (hpc : pr.pc = .output i) (out : List Char) :
    Laid str { pr with pc := .args (i + 1), argv := putOutput pr.argv i out } := by
  have hpos := h.later i (.inr hpc)
  refine h.rewrite rfl ?_ (fun j w' hj => ?_) (fun j hf => ?_) ?_ (by rw [hpc]; nofun) rfl
  · show (putOutput pr.argv i out).length = _
    unfold putOutput
    rw [List.length_map, List.length_set]
  · dsimp only at hj
    unfold putOutput at hj
    rw [List.getElem?_map] at hj
    obtain ⟨w, hw, rfl⟩ := Option.map_eq_some_iff.1 hj
    rw [List.getElem?_set] at hw
    by_cases hi : i = j
    · obtain rfl := hi
      refine .inl ⟨?_, ?_⟩
      · rw [if_pos rfl] at hw
        split at hw
        · obtain rfl := Option.some.inj hw
          rfl
        · cases hw
      · rintro (hc | hc)
        · omega
        · exact Nat.not_succ_le_self i hc
    · rw [if_neg hi] at hw
      by_cases ho : w.place = .outbuf
      · refine .inl ⟨?_, fun hf => ?_⟩
        · rw [if_pos ho]
          exact ho
        · have hf' : j = 0 ∨ pr.pc.fresh j := hf.imp_right fun hc => by rw [hpc]; exact hc
          obtain ⟨k, hk⟩ := h.fresh j w hw hf'
          rw [ho] at hk
          cases hk
      · refine .inr ⟨w, hw, ?_⟩
        rw [if_neg ho]
        exact ⟨rfl, Nat.le_refl _⟩
  · rw [hpc]
    exact hf
  · rintro k (hk | hk) <;> cases hk
    exact Nat.le_add_left 1 i

end Laid

/-! ## Steps -/

/-- **What a step does to the words**: `p` goes on, it makes a process that has the text `given`, or its message is
received. -/
inductive Edits (str given : List Char) (s : Shell) (p : Nat) (pr : Proc) : Shell → Prop where
  | goes (pr' : Proc) : Laid str pr' → Edits str given s p pr (s.set p pr')
  | makes (child pr' : Proc) : Laid given child → Laid str pr' → Edits str given s p pr ((s.add child).set p pr')
  | spawns (program pr' : Proc) (argv : Cmd) : Laid given program → Laid str pr' →
      Edits str given s p pr (((s.add program).set p pr').log argv)
  | sends (q q' pr' : Proc) (res : Int) (m : Sent) : s.procs pr.parent = some q →
      q.receive res = some q' → Laid str pr' →
      Edits str given s p pr (((s.set pr.parent q').set p pr').post m)

section

variable {W : World} {s s' : Shell} {p : Nat} {pr : Proc} {str given : List Char}

theorem Laid.returned (h : Laid str pr) (hfresh : ∀ j, pr.pc.fresh j) {pr' : Proc} (hscan : pr'.scan = pr.scan.next)
    (hargv : pr'.argv = pr.argv) (hback : pr'.back = true → Marked str pr.argv) : Laid str pr'.returned := by
  obtain ⟨heq, hpc⟩ := pr'.returned_pc
  refine h.turn hfresh ?_ ?_ ?_ ?_
  · rw [heq]
    exact hscan
  · rw [heq]
    exact hargv
  · rintro i (hi | hi) <;> rcases hpc with hc | hc | hc <;> rw [hc] at hi <;> cases hi
  · rw [heq]
    exact hback

theorem Laid.again (h : Laid str pr) {pr' : Proc} (hscan : ∃ pos, pr'.scan = _gettoken pos (str.drop pos)) :
    Laid str pr'.again :=
  .nil h.short hscan rfl (fun _ hi => by rcases hi with hi | hi <;> cases hi) fun _ => rfl

theorem Laid.scan_next (h : Laid str pr) : ∃ pos, pr.scan.next = _gettoken pos (str.drop pos) := h.placed.ahead_next.1

theorem edits_parsecmd (h : Laid str pr) (hpc : pr.pc = .parse) : Edits str str s p pr (s.parsecmd W p pr) := by
  have hfresh : ∀ j, pr.pc.fresh j := fun j => by rw [hpc]; trivial
  have hplain : ∀ {pr' : Proc}, pr'.scan = pr.scan.next → pr'.argv = pr.argv → pr'.back = false →
      (∀ i, ¬(pr'.pc = .args i ∨ pr'.pc = .output i)) → Laid str pr' := fun hscan hargv hback hp =>
    h.turn hfresh hscan hargv hp fun hb => by rw [hback] at hb; cases hb
  have hreturned : ∀ {pr' : Proc}, pr'.scan = pr.scan.next → pr'.argv = pr.argv → pr'.back = false →
      Laid str pr'.returned :=
    fun hscan hargv hback => h.returned hfresh hscan hargv fun hb => by rw [hback] at hb; cases hb
  unfold Shell.parsecmd
  cases hnc : pr.scan.nc with
  | eof => exact .goes _ (hreturned rfl rfl rfl)
  | word =>
    dsimp only
    split
    · exact .goes _ (hplain rfl rfl rfl (by simp))
    · rename_i hroom
      exact .goes _ (h.word hfresh hnc (Nat.not_le.1 hroom) rfl rfl hpc)
  | less | greater | append =>
    refine .goes _ ?_
    unfold Proc.redirect
    split
    · rename_i hw
      exact (@hplain { pr with cond := false, back := false, scan := pr.scan.next } rfl rfl rfl
        (by simp [hpc])).turn hfresh rfl rfl
        (by simp [hpc]) nofun
    · exact (@hplain { pr with cond := false, back := false, scan := pr.scan.next } rfl rfl rfl
        (by simp [hpc])).turn hfresh rfl rfl
        (by simp) nofun
  | bar =>
    dsimp only
    split
    · exact .goes _ (hplain rfl rfl rfl (by simp))
    · split
      · exact .goes _ (hreturned rfl rfl rfl)
      · exact .makes _ _ (h.again h.scan_next) (hreturned rfl rfl rfl)
  | semi | or | and =>
    dsimp only
    split
    · exact .goes _ (hplain rfl rfl rfl (by simp))
    · exact .makes _ _ (hreturned rfl rfl rfl) (hplain rfl rfl rfl (by simp))
  | amp =>
    dsimp only
    split
    · exact .goes _ (hplain rfl rfl rfl (by simp))
    · exact .makes _ _ (h.returned hfresh rfl rfl fun _ => h.marked_amp hnc) (h.again h.scan_next)
  | lparen | rparen => exact .goes _ (hplain rfl rfl rfl (by simp [hpc]))

theorem edits_skipOr (h : Laid str pr) (hpc : pr.pc = .skipOr) : Laid str pr.skipOr := by
  have hfresh : ∀ j, pr.pc.fresh j := fun j => by rw [hpc]; trivial
  have hback : pr.back = true → Marked str pr.argv := fun hb => h.marked hb (by rw [hpc]; nofun)
  unfold Proc.skipOr
  split
  · exact h.turn hfresh rfl rfl (by simp) hback
  · exact h.again h.scan_next
  · exact h.turn hfresh rfl rfl (by simp [hpc]) hback

theorem edits_skipAnd (h : Laid str pr) (hpc : pr.pc = .skipAnd) : Laid str pr.skipAnd := by
  have hfresh : ∀ j, pr.pc.fresh j := fun j => by rw [hpc]; trivial
  have hback : pr.back = true → Marked str pr.argv := fun hb => h.marked hb (by rw [hpc]; nofun)
  unfold Proc.skipAnd
  split
  · exact h.turn hfresh rfl rfl (by simp) hback
  · exact h.again h.scan_next
  · exact h.turn hfresh rfl rfl (by simp) hback

theorem Laid.within {i : Nat} {w : Word} (h : Laid str pr) (hpc : pr.pc = .args i) (hw : pr.argv[i]? = some w) :
    w.text.length ≤ maxLine := by
  obtain ⟨k, hk⟩ := h.fresh i w hw (.inr (by rw [hpc]; exact Nat.le_refl i))
  have := h.placed.within w (List.mem_of_getElem? hw) k hk
  have := h.short
  omega

theorem edits_echoArgs {i : Nat} (h : Laid str pr) (hpc : pr.pc = .args i) :
    Edits str (pr.given str) s p pr (s.echoArgs W p pr i) := by
  have hpos := h.later i (.inl hpc)
  have hgoes : ∀ {pc : Pc}, (∀ j, pc.fresh j → i ≤ j) → (∀ k, pc = .args k ∨ pc = .output k → 1 ≤ k) →
      Laid str { pr with pc := pc } :=
    fun hfresh hlater => h.goes rfl rfl (fun j hj => .inr (by rw [hpc]; exact hfresh j hj)) hlater fun hb _ =>
      ⟨hb, by rw [hpc]; nofun⟩
  have hargs : ∀ k, Pc.args (i + 1) = .args k ∨ Pc.args (i + 1) = .output k → 1 ≤ k := by
    rintro k (hk | hk) <;> cases hk
    exact Nat.le_add_left 1 i
  unfold Shell.echoArgs
  split
  · exact .goes _ (hgoes (fun _ hj => hj.elim) (by simp))
  · rename_i w hw
    split
    · exact .goes _ (h.strip hpc)
    · split
      · rename_i hq
        split
        · exact .goes _ (hgoes (fun _ hj => hj.elim) (by simp))
        · refine .makes _ _ ?_ (hgoes (fun j hj => Nat.le_of_lt hj) (by rintro k (hk | hk) <;> cases hk; exact hpos))
          have hgiven : pr.given str = ' ' :: w.text.tail := by
            unfold Proc.given
            rw [hpc]
            dsimp only
            rw [hw]
            rfl
          have hlen : (' ' :: w.text.tail).length = w.text.length := by
            cases htext : w.text with
            | nil =>
              rw [htext] at hq
              cases hq
            | cons c text => rfl
          rw [hgiven]
          refine .nil ?_ ⟨0, rfl⟩ rfl (by simp) fun _ => rfl
          rw [hlen]
          exact h.within hpc hw
      · exact .goes _ (hgoes (fun j hj => Nat.le_of_succ_le hj) hargs)

theorem edits_runcmd (h : Laid str pr) (hpc : pr.pc = .spawn) : Edits str str s p pr (s.runcmd W p pr) := by
  have hgoes : ∀ {pr' : Proc}, pr'.scan = pr.scan → pr'.argv = pr.argv → (∀ j, ¬pr'.pc.fresh j) →
      (∀ k, ¬(pr'.pc = .args k ∨ pr'.pc = .output k)) → (pr'.back = true → pr.back = true) → Laid str pr' :=
    fun hscan hargv hfresh hlater hback => h.goes hscan hargv (fun j hj => absurd hj (hfresh j))
      (fun k hk => absurd hk (hlater k))
      fun hb _ => ⟨hback hb, by rw [hpc]; nofun⟩
  unfold Shell.runcmd
  split
  · exact .goes _ (hgoes rfl rfl (fun _ hj => hj.elim) (by simp) id)
  · split
    · exact .goes _ (hgoes rfl rfl (fun _ hj => hj.elim) (by simp) id)
    · split
      · exact .goes _ (hgoes rfl rfl (fun _ hj => hj.elim) (by simp) id)
      · split
        · exact .spawns _ _ _ (hgoes rfl rfl (fun _ hj => hj.elim) (by simp) nofun)
            (hgoes rfl rfl (Pc.closes_fresh _ _) (Pc.closes_later _ _) id)
        · exact .goes _ (hgoes rfl rfl (fun _ hj => hj.elim) (by simp) id)

theorem Laid.receive (h : Laid str pr) {pr' : Proc} {res : Int} (hr : pr.receive res = some pr') : Laid str pr' := by
  have hback : ∀ {q : Proc}, q.back = pr.back → pr.pc ≠ .parse → q.back = true → q.pc ≠ .parse →
      pr.back = true ∧ pr.pc ≠ .parse :=
    fun hb hp hq _ => ⟨hb ▸ hq, hp⟩
  have hwait : ∀ {pc : Pc}, (∀ j, pr.pc.fresh j) → pr.pc ≠ .parse → (∀ k, ¬(pc = .args k ∨ pc = .output k)) →
      Laid str { pr with pc := pc } :=
    fun hfresh hp hlater =>
      h.goes rfl rfl (fun j _ => .inr (hfresh j)) (fun k hk => absurd hk (hlater k)) (hback rfl hp)
  unfold Proc.receive at hr
  split at hr
  · rename_i hpc
    obtain rfl := Option.some.inj hr
    split
    · exact hwait (fun j => by rw [hpc]; trivial) (by rw [hpc]; nofun) (by simp)
    · exact h.again h.placed.scan
  · rename_i hpc
    obtain rfl := Option.some.inj hr
    split
    · exact h.again h.placed.scan
    · exact hwait (fun j => by rw [hpc]; trivial) (by rw [hpc]; nofun) (by simp)
  · rename_i hpc
    obtain rfl := Option.some.inj hr
    exact h.goes rfl rfl (fun _ hj => hj.elim) (by simp) (hback rfl (by rw [hpc]; nofun))
  · rename_i hpc
    obtain rfl := Option.some.inj hr
    refine h.goes rfl rfl (fun j hj => ?_) (fun k hk => ?_) (hback rfl (by rw [hpc]; nofun))
    · revert hj
      split <;> exact fun hj => hj.elim
    · revert hk
      split <;> simp
  · cases hr

theorem edits_ipcSend {res : Int} {after : Pc} (h : Laid str { pr with pc := after })
    (hs : s.ipcSend p pr res after = some s') :
    Edits str given s p pr s' := by
  unfold Shell.ipcSend at hs
  obtain ⟨q', hq', rfl⟩ := Option.map_eq_some_iff.1 hs
  obtain ⟨q, hq, hres⟩ := Option.bind_eq_some_iff.1 hq'
  exact .sends q q' _ res _ hq hres h

/-- **What a step does.** -/
theorem edits_step (hpr : s.procs p = some pr) (hl : Laid str pr) (h : s.step W p = some s') :
    Edits str (pr.given str) s p pr s' := by
  unfold Shell.step at h
  rw [hpr, Option.bind_some] at h
  -- a process that goes on without a change of its words
  have hon : ∀ {pc : Pc}, (∀ j, ¬pc.fresh j) → (∀ k, ¬(pc = .args k ∨ pc = .output k)) → pr.pc ≠ .parse →
      Laid str { pr with pc := pc } :=
    fun hfresh hlater hp => hl.goes rfl rfl (fun j hj => absurd hj (hfresh j)) (fun k hk => absurd hk (hlater k))
      fun hb _ => ⟨hb, hp⟩
  cases hpc : pr.pc with
  | answerOr | answerAnd | status | jammed | gone | fault | prompt => simp [hpc] at h
  | parse =>
    simp only [hpc, Option.some.injEq] at h
    have hgiven : pr.given str = str := by
      unfold Proc.given
      rw [hpc]
    rw [hgiven, ← h]
    exact edits_parsecmd hl hpc
  | waitLeft c =>
    simp only [hpc, Option.ite_none_right_eq_some, Option.some.injEq] at h
    exact h.2 ▸ .goes _ (hl.again hl.placed.scan)
  | skipOr =>
    simp only [hpc, Option.some.injEq] at h
    exact h ▸ .goes _ (edits_skipOr hl hpc)
  | skipAnd =>
    simp only [hpc, Option.some.injEq] at h
    exact h ▸ .goes _ (edits_skipAnd hl hpc)
  | run =>
    simp only [hpc, Option.some.injEq] at h
    refine h ▸ .goes _ (hl.goes rfl rfl (fun j _ => .inr (by rw [hpc]; trivial)) ?_ fun hb _ =>
      ⟨hb, by rw [hpc]; nofun⟩)
    intro k hk
    dsimp only at hk
    split at hk
    · rcases hk with hk | hk <;> cases hk
      exact Nat.le_refl 1
    · rcases hk with hk | hk <;> cases hk
  | args i =>
    simp only [hpc, Option.some.injEq] at h
    exact h ▸ edits_echoArgs hl hpc
  | output i =>
    simp only [hpc, Option.some.injEq] at h
    rw [← h]
    split
    · exact .goes _ (hon (fun _ hj => hj.elim) (by simp) (by rw [hpc]; nofun))
    · exact .goes _ (hl.put hpc _)
  | spawn =>
    simp only [hpc, Option.some.injEq] at h
    have hgiven : pr.given str = str := by
      unfold Proc.given
      rw [hpc]
    rw [hgiven, ← h]
    exact edits_runcmd hl hpc
  | closing c todo =>
    simp only [hpc, Option.some.injEq] at h
    exact h ▸ .goes _ (hon (fun j hj => absurd hj (Pc.closes_fresh _ _ j)) (Pc.closes_later _ _) (by rw [hpc]; nofun))
  | late todo =>
    simp only [hpc, Option.some.injEq] at h
    exact h ▸ .goes _ (hon (fun _ hj => hj.elim) (by simp) (by rw [hpc]; nofun))
  | forward res =>
    simp only [hpc] at h
    split at h
    · exact edits_ipcSend (@hon .waitRight (fun _ hj => hj.elim) (by simp) (by rw [hpc]; nofun)) h
    · cases h
      exact .goes _ (hon (fun _ hj => hj.elim) (by simp) (by rw [hpc]; nofun))
  | waitRight =>
    simp only [hpc, Option.ite_none_right_eq_some, Option.some.injEq] at h
    exact h.2 ▸ .goes _ (hon (fun _ hj => hj.elim) (by simp) (by rw [hpc]; nofun))
  | exit =>
    simp only [hpc, Option.some.injEq] at h
    exact h ▸ .goes _ (hon (fun _ hj => hj.elim) (by simp) (by rw [hpc]; nofun))
  | main =>
    simp only [hpc, Option.some.injEq] at h
    rw [← h]
    refine .goes _ (hon (fun j hj => ?_) (fun k hk => ?_) (by rw [hpc]; nofun))
    · revert hj
      split <;> exact fun hj => hj.elim
    · revert hk
      split <;> simp
  | report res =>
    simp only [hpc] at h
    exact edits_ipcSend (@hon .exit (fun _ hj => hj.elim) (by simp) (by rw [hpc]; nofun)) h
  | waitLine c =>
    simp only [hpc, Option.ite_none_right_eq_some, Option.some.injEq] at h
    exact h.2 ▸ .goes _ (hl.goes rfl rfl (fun j _ => .inr (by rw [hpc]; trivial)) (by simp) fun hb _ =>
      ⟨hb, by rw [hpc]; nofun⟩)

end

/-! ## Runs -/

namespace Copied

variable {W : World} {s s' : Copied} {p : Nat} {str : List Char}

/-- Every process has its words in the line it parses. -/
structure Inv (s : Copied) : Prop where
  owed : Owed s.shell
  laid : ∀ p pr, s.shell.procs p = some pr → Laid (s.copy p) pr

theorem inv_start (h : str.length ≤ maxLine) : Inv (start str) := by
  have hnew : ∀ pc : Pc, (∀ i, ¬(pc = .args i ∨ pc = .output i)) →
      Laid str ⟨0, pc, scanLine str, [], none, false, false⟩ :=
    fun pc hpc => .nil h ⟨0, rfl⟩ rfl hpc nofun
  refine ⟨Owed.start str, fun p pr hpr => ?_⟩
  unfold start Shell.start at hpr ⊢
  dsimp only at hpr ⊢
  split at hpr
  · cases hpr
    exact hnew _ (by simp)
  · split at hpr
    · cases hpr
      exact hnew _ (by simp)
    · cases hpr

theorem laid_made {t : Shell} {copy copy' : Nat → List Char} {given : List Char} {child pr' : Proc} (hp : p < t.count)
    (hall : ∀ q x, t.procs q = some x → Laid (copy q) x) (hcopy : copy' = Function.update copy t.count given)
    (hchild : Laid given child) (hpr' : Laid (copy p) pr') :
    ∀ q x, ((t.add child).set p pr').procs q = some x → Laid (copy' q) x := by
  intro q x hx
  rw [hcopy]
  by_cases hq : q = p
  · obtain rfl := hq
    rw [Shell.set_same] at hx
    rw [Function.update_of_ne (Nat.ne_of_lt hp)]
    exact Option.some.inj hx ▸ hpr'
  · rw [Shell.set_ne _ _ hq] at hx
    by_cases hc : q = t.count
    · obtain rfl := hc
      rw [Shell.add_same] at hx
      rw [Function.update_self]
      exact Option.some.inj hx ▸ hchild
    · rw [Shell.add_ne _ _ hc] at hx
      rw [Function.update_of_ne hc]
      exact hall q x hx

theorem inv_step (h : Inv s) (hs : s.step W p = some s') : Inv s' := by
  obtain ⟨t, ht, rfl⟩ := Option.map_eq_some_iff.1 hs
  refine ⟨h.owed.step ht, ?_⟩
  obtain ⟨pr, hpr⟩ : ∃ pr, s.shell.procs p = some pr := by
    unfold Shell.step at ht
    obtain ⟨pr, hpr, -⟩ := Option.bind_eq_some_iff.1 ht
    exact ⟨pr, hpr⟩
  have hgiven : s.given p = pr.given (s.copy p) := by
    unfold given
    rw [hpr]
    rfl
  have hp := h.owed.lt p pr hpr
  dsimp only
  rw [hgiven]
  cases edits_step hpr (h.laid p pr hpr) ht with
  | goes pr' hpr' =>
    intro q x hx
    rw [if_pos (Shell.set_count _ _ _)]
    by_cases hq : q = p
    · obtain rfl := hq
      rw [Shell.set_same] at hx
      exact Option.some.inj hx ▸ hpr'
    · rw [Shell.set_ne _ _ hq] at hx
      exact h.laid q x hx
  | makes child pr' hchild hpr' =>
    exact laid_made hp h.laid (if_neg (Nat.succ_ne_self _)) hchild hpr'
  | spawns program pr' argv hprogram hpr' =>
    exact laid_made hp h.laid (if_neg (Nat.succ_ne_self _)) hprogram hpr'
  | sends q q' pr' res m hq hres hpr' =>
    intro r x hx
    have hcount : (((s.shell.set pr.parent q').set p pr').post m).count = s.shell.count := rfl
    rw [if_pos hcount]
    rw [Shell.post_procs] at hx
    by_cases hr : r = p
    · obtain rfl := hr
      rw [Shell.set_same] at hx
      exact Option.some.inj hx ▸ hpr'
    · rw [Shell.set_ne _ _ hr] at hx
      by_cases hrp : r = pr.parent
      · obtain rfl := hrp
        rw [Shell.set_same] at hx
        exact Option.some.inj hx ▸ (h.laid _ q hq).receive hres
      · rw [Shell.set_ne _ _ hrp] at hx
        exact h.laid r x hx

theorem inv_reached (hline : str.length ≤ maxLine) (h : Reached W str s) : Inv s :=
  Run.invariant Inv (fun _ h => by rw [h]; exact inv_start hline) (fun _ _ _ hi _ hs => inv_step hi hs) s h

end Copied

/-! ## What stays inside -/

section

variable {W : World} {str : List Char} {pr : Proc}

theorem argv_inside (n : Nat) : (⟨.argv, n⟩ : Write).Inside ↔ n < maxArgs := by
  unfold Write.Inside Local.size
  dsimp only
  omega

theorem argvWrites_iff (h : pr.argv.length ≤ maxArgs) :
    (∀ w ∈ pr.argvWrites W, w.Inside) ↔ (pr.returns W = true → pr.argv.length ≠ maxArgs) := by
  unfold Proc.argvWrites
  split
  · rename_i hw
    have hret : ¬pr.returns W = true := by
      unfold Proc.returns
      rw [hw]
      exact Bool.false_ne_true
    refine ⟨fun _ hr => absurd hr hret, fun _ w hm => ?_⟩
    split at hm
    · cases hm
    · rename_i hroom
      rw [List.mem_singleton.1 hm, argv_inside]
      exact Nat.not_le.1 hroom
  · split
    · rename_i hr
      constructor
      · intro hall _ hc
        have hin := (argv_inside _).1 (hall _ (List.mem_singleton_self _))
        omega
      · intro hne w hm
        rw [List.mem_singleton.1 hm, argv_inside]
        exact Nat.lt_of_le_of_ne h (hne hr.1)
    · rename_i hr
      refine ⟨fun _ hret hc => hr ⟨hret, fun hnil => ?_⟩, fun _ w hm => nomatch hm⟩
      rw [hnil] at hc
      cases hc

theorem strcpyWrites_iff (a : Local) (s : List Char) :
    (∀ w ∈ strcpyWrites a s, w.Inside) ↔ (s.length : Int) < a.size := by
  unfold strcpyWrites
  constructor
  · intro h
    exact (h _ (List.mem_map.2 ⟨s.length, List.mem_range.2 (Nat.lt_succ_self _), rfl⟩)).2
  · intro h w hm
    obtain ⟨i, hi, rfl⟩ := List.mem_map.1 hm
    have hi := List.mem_range.1 hi
    exact ⟨Int.natCast_nonneg i, by dsimp only; omega⟩

/-- **The text of a backquoted argument fits.** -/
theorem tempCmdWrites_inside {i : Nat} (h : Laid str pr) (hpc : pr.pc = .args i) :
    ∀ w ∈ pr.tempCmdWrites W i, w.Inside := by
  unfold Proc.tempCmdWrites
  cases hw : pr.argv[i]? with
  | none => nofun
  | some v =>
    have hlen := h.within hpc hw
    dsimp only
    split
    · refine (strcpyWrites_iff _ _).2 ?_
      have hmax : maxLine = 1023 := rfl
      have hsize : Local.tempCmd.size = 1024 := rfl
      omega
    · nofun

theorem findEnd_spec (byte : Int → Char) : ∀ (n : Nat) (i : Int), n = (1024 - i).toNat →
    (∃ k, i ≤ k ∧ k < 1024 ∧ byte k = '&' ∧ (∀ m, i ≤ m → m < k → byte m ≠ '&') ∧ findEnd byte n i = k + 1) ∨
      (∀ k, i ≤ k → k < 1024 → byte k ≠ '&') ∧ findEnd byte n i = 1024
  | 0, i, hn => .inr ⟨fun k hk hlt => by omega, rfl⟩
  | n + 1, i, hn => by
    unfold findEnd
    by_cases hb : byte i = '&'
    · rw [if_pos hb]
      exact .inl ⟨i, Int.le_refl i, by omega, hb, fun m hm hlt => by omega, rfl⟩
    · rw [if_neg hb]
      have hstep : ∀ m, i ≤ m → m = i ∨ i + 1 ≤ m := fun m hm => by omega
      rcases findEnd_spec byte n (i + 1) (by omega) with ⟨k, hk, hlt, hbk, hfirst, he⟩ | ⟨hnone, he⟩
      · refine .inl ⟨k, by omega, hlt, hbk, fun m hm hlt => ?_, he⟩
        rcases hstep m hm with rfl | hm
        · exact hb
        · exact hfirst m hm hlt
      · refine .inr ⟨fun m hm hlt => ?_, he⟩
        rcases hstep m hm with rfl | hm
        · exact hb
        · exact hnone m hm hlt

theorem endsNear_iff (byte : Int → Char) (start begin : Int) : EndsNear byte start begin ↔
    (⟨.tmp, findEnd byte (1024 - start).toNat start - begin⟩ : Write).Inside := by
  have hinside : ∀ e : Int, (⟨.tmp, e - begin⟩ : Write).Inside ↔ begin ≤ e ∧ e < begin + 1000 := by
    intro e
    unfold Write.Inside Local.size
    dsimp only
    omega
  rw [hinside]
  rcases findEnd_spec byte _ start rfl with ⟨k, hk, hlt, hbk, hfirst, he⟩ | ⟨hnone, he⟩
  · rw [he]
    constructor
    · rintro (⟨i, hi, hilt, hbi, hifirst, hnear⟩ | ⟨hnone, -⟩)
      · have hik : i = k := by
          rcases Int.lt_trichotomy i k with hc | hc | hc
          · exact absurd hbi (hfirst i hi hc)
          · exact hc
          · exact absurd hbk (hifirst k hk hc)
        exact hik ▸ hnear
      · exact absurd hbk (hnone k hk hlt)
    · intro hnear
      exact .inl ⟨k, hk, hlt, hbk, hfirst, hnear⟩
  · rw [he]
    constructor
    · rintro (⟨i, hi, hilt, hbi, -⟩ | ⟨-, hlow, hhigh⟩)
      · exact absurd hbi (hnone i hi hilt)
      · omega
    · rintro ⟨hlow, hhigh⟩
      exact .inr ⟨hnone, by omega, hlow⟩

theorem Laid.first_line (h : Laid str pr) : ∃ b : Nat, pr.first.place = .line b := by
  unfold Proc.first
  cases hargv : pr.argv with
  | nil => exact ⟨0, rfl⟩
  | cons w argv => exact h.fresh 0 w (by rw [hargv]; rfl) (.inl rfl)

/-- **Where the last argument is a word of the line**, the `&` behind it is found. -/
theorem Laid.endsNear (h : Laid str pr) (hm : Marked str pr.argv) {b i : Nat} (hfirst : pr.first.place = .line b)
    (hlast : pr.last.place = .line i) (outbuf : Int) (around : Int → Char) (hshort : str.length < b + 1000) :
    EndsNear (byteOfCopy str around) (pr.searchFrom outbuf) b := by
  obtain ⟨j, hj, hall⟩ := hm
  have hjlt : j < str.length := (List.getElem?_eq_some_iff.1 hj).1
  have hmax : str.length ≤ 1023 := h.short
  have hbyte : byteOfCopy str around j = '&' := by
    unfold byteOfCopy
    rw [if_pos ⟨Int.natCast_nonneg j, Int.ofNat_lt.2 hjlt⟩, Int.toNat_natCast, List.getD_eq_getElem?_getD, hj]
    rfl
  obtain ⟨hle, hord⟩ : i + pr.last.text.length ≤ j ∧ b ≤ i := by
    cases hargv : pr.argv with
    | nil =>
      have hl : pr.last = ⟨.line 0, []⟩ := by
        unfold Proc.last
        rw [hargv]
        rfl
      have hf : pr.first = ⟨.line 0, []⟩ := by
        unfold Proc.first
        rw [hargv]
        rfl
      rw [hl] at hlast ⊢
      rw [hf] at hfirst
      cases hlast
      cases hfirst
      exact ⟨Nat.zero_le _, Nat.le_refl 0⟩
    | cons w argv =>
      have hmem : pr.last ∈ pr.argv := by
        unfold Proc.last
        rw [hargv, List.getLastD_cons]
        exact List.getLastD_mem_cons
      have hhead : pr.argv.head?.map Word.place = some (.line b) := by
        rw [← hfirst]
        unfold Proc.first
        rw [hargv]
        rfl
      exact ⟨hall _ hmem i hlast, h.placed.order b hhead _ hmem i hlast⟩
  have hfrom : pr.searchFrom outbuf = (i + pr.last.text.length : Nat) := by
    unfold Proc.searchFrom Word.offset
    rw [hlast]
    exact (Int.natCast_add _ _).symm
  rw [hfrom]
  rcases findEnd_spec (byteOfCopy str around) _ ((i + pr.last.text.length : Nat) : Int) rfl
      with ⟨k, hk, hlt, hbk, hnone, -⟩ | ⟨hnone, -⟩
  · have hkj : k ≤ j := Int.not_lt.1 fun hc => hnone j (Int.ofNat_le.2 hle) hc hbyte
    exact .inl ⟨k, hk, hlt, hbk, hnone, by omega, by omega⟩
  · exact absurd hbyte (hnone j (Int.ofNat_le.2 hle) (by omega))

theorem tmpWrites_iff (h : Laid str pr) (hpc : pr.pc = .spawn) (outbuf : Int) (around : Int → Char) :
    (∀ w ∈ pr.tmpWrites str outbuf around, w.Inside) ↔
      (pr.background = true → (str.drop (pr.first.offset outbuf).toNat).length < 1000 ∧
        (pr.last.place = .outbuf → EndsNear (byteOfCopy str around) (pr.searchFrom outbuf)
          (pr.first.offset outbuf))) := by
  unfold Proc.tmpWrites
  dsimp only
  split
  · rename_i hback
    have hsize : Local.tmp.size = 1000 := rfl
    have hmem : ∀ {ws : List Write} {w : Write}, (∀ x ∈ ws ++ [w], x.Inside) ↔ (∀ x ∈ ws, x.Inside) ∧ w.Inside := by
      intro ws w
      rw [List.forall_mem_append, List.forall_mem_singleton]
    rw [hmem, strcpyWrites_iff, ← endsNear_iff, hsize]
    have hiff : ((str.drop (pr.first.offset outbuf).toNat).length : Int) < 1000 ↔
        (str.drop (pr.first.offset outbuf).toNat).length < 1000 := by
      omega
    rw [hiff]
    constructor
    · rintro ⟨hshort, hnear⟩ _
      exact ⟨hshort, fun _ => hnear⟩
    · intro hmeets
      obtain ⟨hshort, hnear⟩ := hmeets hback
      refine ⟨hshort, ?_⟩
      cases hlast : pr.last.place with
      | outbuf => exact hnear hlast
      | line i =>
        obtain ⟨b, hfirst⟩ := h.first_line
        have hoff : pr.first.offset outbuf = b := by
          unfold Word.offset
          rw [hfirst]
        rw [hoff] at hshort ⊢
        rw [Int.toNat_natCast, List.length_drop] at hshort
        have hb : pr.back = true := by
          unfold Proc.background at hback
          rw [Bool.and_eq_true] at hback
          exact hback.1
        exact h.endsNear (h.marked hb (by rw [hpc]; nofun)) hfirst hlast outbuf around (by omega)
  · rename_i hback
    exact ⟨fun _ hb => absurd hb hback, fun _ => nofun⟩

end

theorem Copied.reached_shell {W : World} {str : List Char} {t : Shell} (h : Shell.Reached W str t) :
    ∃ s, Copied.Reached W str s ∧ s.shell = t := by
  induction h with
  | start t ht => exact ⟨Copied.start str, .start _ rfl, ht.symm⟩
  | next t p t' _ _ hs ih =>
    obtain ⟨s, hr, rfl⟩ := ih
    exact ⟨_, .next s p _ hr trivial (by unfold Copied.step; rw [hs]; rfl), rfl⟩

/-- No memory is read but the line. -/
def noMemory : Memory := ⟨fun _ => 0, fun _ _ => 'a'⟩

theorem exists_copied (str : List Char) (ps : List Nat) (f : Copied → Bool)
    (h : ((some (Copied.start str)).bind (exec (Copied.step .calm) (fun _ _ => true) ps)).any f = true) :
    ∃ s, Copied.Reached .calm str s ∧ f s = true :=
  Run.exists_of_exec (fun _ _ _ => trivial) ps (some (Copied.start str)) (fun _ hs => (Option.some.inj hs).symm) f h

end Mos.Sh
