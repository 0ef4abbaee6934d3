import Mos.StatusDelivery
/-!
# Spawned — the programs that a list of commands spawns

The commands of a line are joined by `&&`, `||` and `;`.  `standard` is what the line means: from left to right, a
command after `;` always runs, one after `&&` after status 0 and one after `||` after another status.  `spawned` is what
the processes of the shell spawn, and `Phase` ties it to every state they go through.
-/
namespace Mos.Sh

/-! ## Lists of commands -/

inductive Op where
  | and
  | or
  | semi
deriving DecidableEq, Repr

def Op.tok : Op → Tok
  | .and => .and
  | .or => .or
  | .semi => .semi

/-- The commands after the first, each with the operator before it. -/
abbrev Rest := List (Op × Cmd)

/-- Where the words of a command stand. -/
def Cmd.places (c : Cmd) : List Place := c.map Word.place

def tokensOf : Rest → List Token
  | [] => []
  | (op, c) :: rest => .sym op.tok :: (c.map .word ++ tokensOf rest)

/-- No word is to be replaced by what it prints. -/
def Plain (c : Cmd) : Prop := ∀ w ∈ c, w.text.head? ≠ some '`'

/-- **The line is the command `c` and then `rest`.** -/
structure IsList (line : List Char) (c : Cmd) (rest : Rest) : Prop where
  reads : Reads (scanLine line) (c.map .word ++ tokensOf rest)
  nonempty : c ≠ [] ∧ ∀ x ∈ rest, x.2 ≠ []
  plain : Plain c ∧ ∀ x ∈ rest, Plain x.2

/-! ## What a list means -/

/-- The operator lets the command after it run. -/
def Op.lets (op : Op) (st : Int) : Bool :=
  match op with
  | .and => st == 0
  | .or => st != 0
  | .semi => true

variable (σ : List Place → Int)

/-- What runs after a command, or a list, with status `st`. -/
def followed (st : Int) : Rest → List (List Place)
  | [] => []
  | (op, c) :: rest => if op.lets st then c.places :: followed (σ c.places) rest else followed st rest

/-- **What runs**, when `σ` is the status of each command. -/
def standard (c : Cmd) (rest : Rest) : List (List Place) := c.places :: followed σ (σ c.places) rest

/-! ## What the shell spawns -/

/-- `runcmd` gets to `spawn` with the command. -/
def Runs (c : Cmd) : Prop :=
  c ≠ [] ∧ c.length < maxArgs ∧ c.prog ≠ history ∧ c.prog ≠ jobs ∧ ¬((c.prog = kill ∨ c.prog = fg) ∧ c.length = 1)

/-- The process that is to run the command leaves `argv`, or loads through its null pointer. -/
def Faults (c : Cmd) : Prop := maxArgs ≤ c.length ∨ (c.prog = kill ∨ c.prog = fg) ∧ c.length = 1

instance (c : Cmd) : Decidable (Runs c) := by unfold Runs; infer_instance

instance (c : Cmd) : Decidable (Faults c) := by unfold Faults; infer_instance

/-- `parsecmd` gets to the end of the command, which is `X` if so. -/
def enter (c : Cmd) (X : List (List Place)) : List (List Place) := if maxArgs < c.length then [] else X

/-- The command, if it is spawned. -/
def fire (c : Cmd) : List (List Place) := if Runs c then [c.places] else []

/-- **What the processes spawn** from an operator or the end of the line on; `argv` is the command before it, and `none`
says that case 'O' is skipping. -/
def spawned : Option Cmd → Rest → List (List Place)
  | none, [] => []
  | none, (.and, c) :: rest => enter c (spawned (some c) rest)
  | none, (.or, _) :: rest => spawned none rest
  | none, (.semi, _) :: rest => spawned none rest
  | some argv, [] => fire argv
  | some argv, (.semi, c) :: rest => fire argv ++ if Faults argv then [] else enter c (spawned (some c) rest)
  | some argv, (.and, c) :: rest => fire argv ++ if Runs argv then
      if σ argv.places = 0 then enter c (spawned (some c) rest)
      else enter (argv ++ c.tail) (spawned (some (argv ++ c.tail)) rest)
    else []
  | some argv, (.or, c) :: rest => fire argv ++ if Runs argv then
      if σ argv.places = 0 then spawned none rest else enter c (spawned (some c) rest)
    else []

/-! ## The processes of the shell -/

/-- Every program can be spawned and returns its status, and no call fails. -/
def World.ofStatus : World :=
  ⟨fun _ _ => true, fun _ => true, fun _ => true, fun _ => true, fun c => .returns (σ c.places),
    fun _ _ => some [], fun _ => [],
    fun _ _ => 0⟩

/-- It has nothing more to do for the line. -/
def Proc.idle (pr : Proc) : Prop :=
  pr.pc = .waitRight ∧ pr.rightpipe = none ∨ pr.pc = .exit ∨ pr.pc = .gone ∨ pr.pc = .fault ∨ pr.pc = .waitLine 1 ∨
    pr.pc = .prompt

/-- It waits for a message, with no file to close. -/
def Proc.waits (pr : Proc) : Prop := (∃ c, pr.pc = .answerOr c) ∨ (∃ c, pr.pc = .answerAnd c) ∨ ∃ c, pr.pc = .status c

/-- The command `argv` of a process, `echo` having dealt with the arguments before `i`. -/
structure Alike (i : Nat) (argv c : Cmd) : Prop where
  places : argv.places = c.places
  prog : argv.prog = c.prog
  plain : ∀ j w, i ≤ j → argv[j]? = some w → w.text.head? ≠ some '`'

/-- **`b` is running the command `c`**: `act` is its program while that runs, `k` what is left to do, and `Y` what it
still spawns. -/
inductive Job (s : Shell) (b a : Nat) (cond : Bool) (c : Cmd) : List Nat → Nat → List (List Place) → Prop where
  | before (pr : Proc) (i : Nat) : s.procs b = some pr → pr.parent = a → pr.rightpipe = none → pr.cond = cond →
      (pr.pc = .run ∧ i = 1 ∨ pr.pc = .args i ∧ 1 ≤ i ∨ pr.pc = .spawn) → Alike i pr.argv c → c ≠ [] →
      c.length < maxArgs → Job s b a cond c [] pr.way (fire c)
  | status (pr x : Proc) (p k : Nat) : s.procs b = some pr → pr.parent = a → pr.rightpipe = none → pr.cond = cond →
      pr.pc = .status p → s.procs p = some x → x.parent = b → Runs c →
      (x.pc = .main ∧ σ x.argv.places = σ c.places ∧ k = 7 ∨ x.pc = .report (σ c.places) ∧ k = 6) →
      Job s b a cond c [p] k []
  | forward (pr : Proc) : s.procs b = some pr → pr.parent = a → pr.rightpipe = none → pr.cond = cond →
      pr.pc = .forward (σ c.places) → Runs c → Job s b a cond c [] 5 []

/-- **Whose turn it is after `b`**: `n` tokens are still to be read, and `X` is spawned then. -/
inductive Turn (s : Shell) (b : Nat) (c : Cmd) : Bool → Nat → List (List Place) → Prop where
  | self : b = 1 → Turn s b c false 0 []
  | left (q : Proc) (d : Cmd) (rest : Rest) : b ≠ 1 → s.procs 1 = some q → q.pc = .waitLeft b → q.rightpipe = none →
      Reads q.scan (d.map .word ++ tokensOf rest) → d ≠ [] → Plain d → (∀ x ∈ rest, x.2 ≠ [] ∧ Plain x.2) →
      Turn s b c false (d.length + (tokensOf rest).length + 1) (enter d (spawned σ (some d) rest))
  | or (q : Proc) (d : Cmd) (rest : Rest) : b ≠ 1 → s.procs 1 = some q → q.pc = .answerOr b → q.rightpipe = none →
      Reads q.scan (d.map .word ++ tokensOf rest) → d ≠ [] → Plain d → (∀ x ∈ rest, x.2 ≠ [] ∧ Plain x.2) →
      Turn s b c true (d.length + (tokensOf rest).length + 1)
        (if σ c.places = 0 then spawned σ none rest else enter d (spawned σ (some d) rest))
  | and (q : Proc) (d : Cmd) (rest : Rest) : b ≠ 1 → s.procs 1 = some q → q.pc = .answerAnd b → q.rightpipe = none →
      Reads q.scan (d.map .word ++ tokensOf rest) → d ≠ [] → Plain d → (∀ x ∈ rest, x.2 ≠ [] ∧ Plain x.2) →
      q.argv = c → Plain c → c.length ≤ maxArgs →
      Turn s b c true (d.length + (tokensOf rest).length + 1)
        (if σ c.places = 0 then enter d (spawned σ (some d) rest)
          else enter (c ++ d.tail) (spawned σ (some (c ++ d.tail)) rest))

/-- What is spawned after `c` is: nothing, when its process faults or owes a status that it does not have. -/
def after (c : Cmd) (cond : Bool) (X : List (List Place)) : List (List Place) :=
  if Faults c ∨ cond = true ∧ ¬Runs c then [] else X

/-- **Where the line is**: `X` is still to be spawned, and `n` and `m` measure the way there. -/
inductive Phase (s : Shell) : Nat → Nat → List (List Place) → Prop where
  | parse (q : Proc) (c : Cmd) (rest : Rest) : s.procs 1 = some q → q.pc = .parse → q.rightpipe = none →
      Reads q.scan (c.map .word ++ tokensOf rest) → q.argv ++ c ≠ [] → q.argv.length ≤ maxArgs → Plain (q.argv ++ c) →
      (∀ x ∈ rest, x.2 ≠ [] ∧ Plain x.2) → (∀ p pr, p ≠ 1 → s.procs p = some pr → pr.idle) →
      Phase s (c.length + (tokensOf rest).length + 1) 0 (enter (q.argv ++ c) (spawned σ (some (q.argv ++ c)) rest))
  | job (b a : Nat) (c : Cmd) (cond : Bool) (act : List Nat) (k n : Nat) (X Y : List (List Place)) :
      Job σ s b a cond c act k Y → (b ≠ 1 → a = 1) → Turn σ s b c cond n X →
      (∀ p pr, p ≠ 1 → p ≠ b → p ∉ act → s.procs p = some pr → pr.idle) → Phase s n (k + 1) (Y ++ after c cond X)
  | left (q y : Proc) (b m : Nat) (c : Cmd) (rest : Rest) : s.procs 1 = some q → q.pc = .waitLeft b →
      q.rightpipe = none →
      Reads q.scan (c.map .word ++ tokensOf rest) → c ≠ [] → Plain c → (∀ x ∈ rest, x.2 ≠ [] ∧ Plain x.2) →
      b ≠ 1 → s.procs b = some y →
      (y.pc = .waitRight ∧ y.rightpipe = none ∧ m = 3 ∨ y.pc = .exit ∧ m = 2 ∨ y.pc = .gone ∧ m = 1) →
      (∀ p pr, p ≠ 1 → p ≠ b → s.procs p = some pr → pr.idle) →
      Phase s (c.length + (tokensOf rest).length + 1) m (enter c (spawned σ (some c) rest))
  | skipOr (q : Proc) (c : Cmd) (rest : Rest) : s.procs 1 = some q → q.pc = .skipOr → q.rightpipe = none →
      Reads q.scan (c.map .word ++ tokensOf rest) → (∀ x ∈ rest, x.2 ≠ [] ∧ Plain x.2) →
      (∀ p pr, p ≠ 1 → s.procs p = some pr → pr.idle) →
      Phase s (c.length + (tokensOf rest).length + 1) 0 (spawned σ none rest)
  | skipAnd (q : Proc) (c : Cmd) (rest : Rest) : s.procs 1 = some q → q.pc = .skipAnd → q.rightpipe = none →
      Reads q.scan (c.map .word ++ tokensOf rest) → c ≠ [] → Plain (q.argv ++ c) → q.argv ≠ [] →
        q.argv.length ≤ maxArgs →
      (∀ x ∈ rest, x.2 ≠ [] ∧ Plain x.2) → (∀ p pr, p ≠ 1 → s.procs p = some pr → pr.idle) →
      Phase s (c.length + (tokensOf rest).length + 1) 0
        (enter (q.argv ++ c.tail) (spawned σ (some (q.argv ++ c.tail)) rest))
  | ended (n m : Nat) : (∀ p pr, s.procs p = some pr → pr.idle ∨ p = 1 ∧ (pr.waits ∨
      ∃ b y, pr.pc = .waitLeft b ∧ s.procs b = some y ∧ y.pc = .fault)) → Phase s n m []

/-- Where the programs spawned so far have their words. -/
def Shell.places (s : Shell) : List (List Place) := s.trace.map Cmd.places

@[simp] theorem places_set (s : Shell) (p : Nat) (pr : Proc) : (s.set p pr).places = s.places := rfl
@[simp] theorem places_add (s : Shell) (pr : Proc) : (s.add pr).places = s.places := rfl
@[simp] theorem places_post (s : Shell) (m : Sent) : (s.post m).places = s.places := rfl
@[simp] theorem places_log (s : Shell) (argv : Cmd) : (s.log argv).places = s.places ++ [argv.places] := by
  simp [Shell.places, Shell.log]

/-! ## Commands that run -/

theorem Runs.not_faults {c : Cmd} (h : Runs c) : ¬Faults c := by
  rintro (hf | hf)
  · have := h.2.1
    omega
  · exact h.2.2.2.2 hf

theorem fire_of_runs {c : Cmd} (h : Runs c) : fire c = [c.places] := if_pos h

theorem fire_of_not {c : Cmd} (h : ¬Runs c) : fire c = [] := if_neg h

theorem after_of_runs {c : Cmd} (h : Runs c) (cond : Bool) (X : List (List Place)) : after c cond X = X := by
  unfold after
  rw [if_neg]
  rintro (hf | ⟨-, hr⟩)
  · exact h.not_faults hf
  · exact hr h

theorem Alike.length {i : Nat} {argv c : Cmd} (h : Alike i argv c) : argv.length = c.length := by
  simpa [Cmd.places] using congrArg List.length h.places

theorem Alike.refl {c : Cmd} (h : Plain c) : Alike 1 c c :=
  ⟨rfl, rfl, fun _ _ _ hw => h _ (List.mem_of_getElem? hw)⟩

theorem Alike.mono {i j : Nat} {argv c : Cmd} (h : Alike i argv c) (hij : i ≤ j) : Alike j argv c :=
  ⟨h.places, h.prog, fun k w hk hw => h.plain k w (by omega) hw⟩

theorem Alike.stripQuote {i : Nat} {argv c : Cmd} (h : Alike i argv c) (hi : 1 ≤ i) :
    Alike (i + 1) (stripQuote argv i) c := by
  refine ⟨?_, ?_, fun j w hj hw => ?_⟩
  · rw [← h.places]
    unfold Cmd.places Mos.Sh.stripQuote
    apply List.ext_getElem?
    intro j
    simp only [List.getElem?_map, List.getElem?_modify]
    by_cases hij : i = j <;> simp [hij, Function.comp_def]
  · rw [← h.prog]
    unfold Cmd.prog Mos.Sh.stripQuote
    have h0 : i ≠ 0 := by omega
    simp [List.head?_eq_getElem?, h0]
  · have hij : i ≠ j := by omega
    simp only [Mos.Sh.stripQuote, List.getElem?_modify, hij, if_false, Option.map_eq_map,
      Option.map_id_fun', id_eq] at hw
    exact h.plain j w (by omega) hw

/-! ## Processes that have nothing more to do -/

variable {σ} {s s' : Shell} {p : Nat}

theorem idle_step {W : World} {pr : Proc} (hpr : s.procs p = some pr) (h : pr.idle) (hs : s.step W p = some s') :
    ∃ pc, s' = s.set p { pr with pc := pc } ∧ ({ pr with pc := pc } : Proc).idle ∧
      (pr.pc = .waitRight ∧ pc = .exit ∨ pr.pc = .exit ∧ pc = .gone ∨ pr.pc = .waitLine 1 ∧ pc = .prompt) := by
  unfold Shell.step at hs
  rw [hpr, Option.bind_some] at hs
  rcases h with ⟨h, hr⟩ | h | h | h | h | h
  · simp only [h, Option.ite_none_right_eq_some, Option.some.injEq] at hs
    exact ⟨.exit, hs.2.symm, .inr (.inl rfl), .inl ⟨h, rfl⟩⟩
  · simp only [h, Option.some.injEq] at hs
    exact ⟨.gone, hs.symm, .inr (.inr (.inl rfl)), .inr (.inl ⟨h, rfl⟩)⟩
  · simp [h] at hs
  · simp [h] at hs
  · simp only [h, Option.ite_none_right_eq_some, Option.some.injEq] at hs
    exact ⟨.prompt, hs.2.symm, .inr (.inr (.inr (.inr (.inr rfl)))), .inr (.inr ⟨h, rfl⟩)⟩
  · simp [h] at hs

theorem Job.frame {b a : Nat} {cond : Bool} {c : Cmd} {act : List Nat} {k : Nat} {Y : List (List Place)}
    (h : Job σ s b a cond c act k Y) (hb : s'.procs b = s.procs b) (hact : ∀ r ∈ act, s'.procs r = s.procs r) :
    Job σ s' b a cond c act k Y := by
  cases h with
  | before pr i hpr => exact .before pr i (hb.trans hpr) ‹_› ‹_› ‹_› ‹_› ‹_› ‹_› ‹_›
  | status pr x p k hpr _ _ _ _ hx =>
    exact .status pr x p k (hb.trans hpr) ‹_› ‹_› ‹_› ‹_› ((hact p (List.mem_singleton_self p)).trans hx) ‹_› ‹_› ‹_›
  | forward pr hpr => exact .forward pr (hb.trans hpr) ‹_› ‹_› ‹_› ‹_› ‹_›

theorem Turn.frame {b : Nat} {c : Cmd} {cond : Bool} {n : Nat} {X : List (List Place)} (h : Turn σ s b c cond n X)
    (h1 : b ≠ 1 → s'.procs 1 = s.procs 1) : Turn σ s' b c cond n X := by
  cases h with
  | self hb => exact .self hb
  | left q d rest hb hq => exact .left q d rest hb ((h1 hb).trans hq) ‹_› ‹_› ‹_› ‹_› ‹_› ‹_›
  | or q d rest hb hq => exact .or q d rest hb ((h1 hb).trans hq) ‹_› ‹_› ‹_› ‹_› ‹_› ‹_›
  | and q d rest hb hq => exact .and q d rest hb ((h1 hb).trans hq) ‹_› ‹_› ‹_› ‹_› ‹_› ‹_› ‹_› ‹_› ‹_›

theorem Job.busy {b a : Nat} {cond : Bool} {c : Cmd} {act : List Nat} {k : Nat} {Y : List (List Place)}
    (h : Job σ s b a cond c act k Y) {r : Nat} {pr : Proc} (hr : r = b ∨ r ∈ act) (hpr : s.procs r = some pr) :
    ¬pr.idle := by
  have hidle : pr.idle → pr.pc = .waitRight ∨ pr.pc = .exit ∨ pr.pc = .gone ∨ pr.pc = .fault ∨ pr.pc = .waitLine 1 ∨
      pr.pc = .prompt := fun h => h.imp_left And.left
  intro hi
  have hi := hidle hi
  cases h with
  | before x i hx _ _ _ hpc =>
    rcases hr with rfl | hr
    · cases hx.symm.trans hpr
      rcases hpc with ⟨h, -⟩ | ⟨h, -⟩ | h <;> simp [h] at hi
    · cases hr
  | status x y q k hx _ _ _ hpc hy _ _ hst =>
    rcases hr with rfl | hr
    · cases hx.symm.trans hpr
      simp [hpc] at hi
    · rw [List.mem_singleton] at hr
      subst hr
      cases hy.symm.trans hpr
      rcases hst with ⟨h, -⟩ | ⟨h, -⟩ <;> simp [h] at hi
  | forward x hx _ _ _ hpc =>
    rcases hr with rfl | hr
    · cases hx.symm.trans hpr
      simp [hpc] at hi
    · cases hr

/-! ## The steps of a command under way -/

/-- What a step of `b`, or of its program, does. -/
inductive JobStep (σ : List Place → Int) (s s' : Shell) (b a : Nat) (cond : Bool) (c : Cmd) (act : List Nat) (k : Nat)
    (Y : List (List Place)) : Prop where
  | goesOn (act' : List Nat) (k' : Nat) (Y' : List (List Place)) : Job σ s' b a cond c act' k' Y' → k' < k →
      s'.places ++ Y' = s.places ++ Y → (∀ r ∈ act', r ∈ act ∨ r = s.count) →
      (∀ r, r ≠ b → r ∉ act' → s'.procs r = s.procs r ∧ r ∉ act ∨ r ≠ 1 ∧ ∀ pr, s'.procs r = some pr → pr.idle) →
      JobStep σ s s' b a cond c act k Y
  | ends (pr : Proc) (pc : Pc) : Y = [] → act = [] → s' = s.set b { pr with pc := pc } → pr.rightpipe = none →
      pc = .waitRight ∨ pc = .exit → ¬Faults c → (cond = true → ¬Runs c) → 3 ≤ k → JobStep σ s s' b a cond c act k Y
  | faults (pr : Proc) : Y = [] → act = [] → s' = s.set b { pr with pc := .fault } → Faults c →
      JobStep σ s s' b a cond c act k Y
  | delivers (pr q : Proc) : Y = [] → act = [] → cond = true → Runs c → pr.rightpipe = none →
      (s.procs a).bind (·.receive (σ c.places)) = some q →
      s' = ((s.set a q).set b { pr with pc := .waitRight }).post (b, a, σ c.places) → JobStep σ s s' b a cond c act k Y

theorem runs_iff_of_alike {i : Nat} {argv c : Cmd} (h : Alike i argv c) (hn : c ≠ []) (hl : c.length < maxArgs) :
    Runs c ↔ argv.prog ≠ history ∧ argv.prog ≠ jobs ∧ ¬((argv.prog = kill ∨ argv.prog = fg) ∧ argv.length = 1) := by
  rw [h.prog, h.length]
  exact ⟨fun hr => hr.2.2, fun hr => ⟨hn, hl, hr⟩⟩

theorem job_before {b a : Nat} {cond : Bool} {c : Cmd} {pr : Proc} {i : Nat} (ho : Owed s) (hpr : s.procs b = some pr)
    (hpa : pr.parent = a) (hrp : pr.rightpipe = none) (hco : pr.cond = cond)
    (hpc : pr.pc = .run ∧ i = 1 ∨ pr.pc = .args i ∧ 1 ≤ i ∨ pr.pc = .spawn) (hal : Alike i pr.argv c) (hn : c ≠ [])
    (hl : c.length < maxArgs) (hs : s.step (.ofStatus σ) b = some s') :
    JobStep σ s s' b a cond c [] pr.way (fire c) := by
  have hne : s.count ≠ b := Nat.ne_of_gt (ho.lt _ _ hpr)
  have hset : ∀ (x : Proc) r, r ≠ b → (s.set b x).procs r = s.procs r := fun x r hr => s.set_ne x hr
  unfold Shell.step at hs
  rw [hpr, Option.bind_some] at hs
  rcases hpc with ⟨hpc, rfl⟩ | ⟨hpc, hi⟩ | hpc
  · simp only [hpc, Option.some.injEq] at hs
    subst hs
    by_cases he : pr.argv.prog = echo
    · refine .goesOn [] _ _
        (.before _ 1 (s.set_same _ _) hpa hrp hco (.inr (.inl ⟨by simp [he], Nat.le_refl _⟩)) hal hn hl) ?_
        rfl nofun (fun r hr _ => .inl ⟨hset _ r hr, nofun⟩)
      simp [Proc.way, hpc, he]
      omega
    · refine .goesOn [] _ _ (.before _ 1 (s.set_same _ _) hpa hrp hco (.inr (.inr (by simp [he]))) hal hn hl) ?_ rfl
        nofun (fun r hr _ => .inl ⟨hset _ r hr, nofun⟩)
      simp [Proc.way, hpc, he]
  · simp only [hpc, Option.some.injEq] at hs
    subst hs
    unfold Shell.echoArgs
    cases hw : pr.argv[i]? with
    | none =>
      refine .goesOn [] _ _ (.before _ i (s.set_same _ _) hpa hrp hco (.inr (.inr rfl)) hal hn hl) ?_ rfl
        nofun (fun r hr _ => .inl ⟨hset _ r hr, nofun⟩)
      simp [Proc.way, hpc]
    | some w =>
      have hlt : i < pr.argv.length := (List.getElem?_eq_some_iff.1 hw).1
      dsimp only
      split
      · refine .goesOn [] _ _ (.before _ (i + 1) (s.set_same _ _) hpa hrp hco (.inr (.inl ⟨rfl, by omega⟩))
          (hal.stripQuote hi) hn hl) ?_ rfl nofun (fun r hr _ => .inl ⟨hset _ r hr, nofun⟩)
        simp only [Proc.way, hpc, length_stripQuote]
        omega
      · rw [if_neg (hal.plain i w (Nat.le_refl _) hw)]
        refine .goesOn [] _ _ (.before _ (i + 1) (s.set_same _ _) hpa hrp hco (.inr (.inl ⟨rfl, by omega⟩))
          (hal.mono (by omega)) hn hl) ?_ rfl nofun (fun r hr _ => .inl ⟨hset _ r hr, nofun⟩)
        simp only [Proc.way, hpc]
        omega
  · simp only [hpc, Option.some.injEq] at hs
    subst hs
    have hruns := runs_iff_of_alike hal hn hl
    have hway : pr.way = 8 := by simp [Proc.way, hpc]
    have hfault : (pr.argv.prog = kill ∨ pr.argv.prog = fg) ∧ pr.argv.length = 1 ↔ Faults c := by
      rw [hal.prog, hal.length]
      exact ⟨.inr, fun h => h.resolve_left (by omega)⟩
    unfold Shell.runcmd
    split
    · rename_i hh
      have hno : ¬Runs c := fun h => (hruns.1 h).1 hh
      refine .ends pr .exit (fire_of_not hno) rfl rfl hrp (.inr rfl) (fun hf => ?_) (fun _ => hno) (by omega)
      have := (hfault.2 hf).1
      rw [hh] at this
      revert this
      decide
    · split
      · rename_i hj
        have hno : ¬Runs c := fun h => (hruns.1 h).2.1 hj
        refine .ends pr .waitRight (fire_of_not hno) rfl rfl hrp (.inl rfl) (fun hf => ?_) (fun _ => hno) (by omega)
        have := (hfault.2 hf).1
        rw [hj] at this
        revert this
        decide
      · split
        · rename_i hk
          have hf := hfault.1 hk
          exact .faults pr (fire_of_not fun h => h.not_faults hf) rfl rfl hf
        · rename_i hh hj hk
          have hr : Runs c := hruns.2 ⟨hh, hj, hk⟩
          rw [if_pos (show (World.ofStatus σ).spawns pr.argv = true from rfl)]
          refine .goesOn [s.count] 7 [] (.status { pr with pc := .status s.count }
            { pr with parent := b, pc := .main, cond := false, back := false } s.count 7 ?_ hpa hrp hco rfl ?_ rfl hr
            (.inl ⟨rfl, congrArg σ hal.places, rfl⟩)) (by omega) ?_ (fun r hr => .inr (by simpa using hr))
            (fun r hr hra => .inl ⟨?_, nofun⟩)
          · exact Shell.set_same _ _ _
          · rw [Shell.log_procs, Shell.set_ne _ _ hne, s.add_same]
          · rw [fire_of_runs hr, ← hal.places]
            simp
          · rw [Shell.log_procs, Shell.set_ne _ _ hr, s.add_ne _ (fun h => hra (by simp [h]))]

/-- **The steps of a command under way.** -/
theorem job_step {b a : Nat} {cond : Bool} {c : Cmd} {act : List Nat} {k : Nat} {Y : List (List Place)} (ho : Owed s)
    (h : Job σ s b a cond c act k Y) (h1 : 1 ∉ act) (hp : p = b ∨ p ∈ act) (hs : s.step (.ofStatus σ) p = some s') :
    JobStep σ s s' b a cond c act k Y := by
  cases h with
  | before pr i hpr hpa hrp hco hpc hal hn hl =>
    obtain rfl : p = b := by simpa using hp
    exact job_before ho hpr hpa hrp hco hpc hal hn hl hs
  | status pr x q k hpr hpa hrp hco hpc hx hxp hr hst =>
    have hqb : q ≠ b := fun he => by
      rw [he, hpr] at hx
      cases hx
      rcases hst with ⟨h, -⟩ | ⟨h, -⟩ <;> simp [hpc] at h
    unfold Shell.step at hs
    rcases hp with rfl | hp
    · rw [hpr, Option.bind_some] at hs
      simp [hpc] at hs
    · rw [List.mem_singleton] at hp
      subst hp
      have hp1 : p ≠ 1 := fun h => h1 (by simp [h])
      rw [hx, Option.bind_some] at hs
      rcases hst with ⟨hm, hstat, rfl⟩ | ⟨hrep, rfl⟩
      · simp only [hm, World.ofStatus, Option.some.injEq] at hs
        subst hs
        refine .goesOn [p] 6 []
          (.status pr _ p 6 ((s.set_ne _ hqb.symm).trans hpr) hpa hrp hco hpc (s.set_same _ _) hxp hr
          (.inr ⟨congrArg Pc.report hstat, rfl⟩)) (by omega) rfl (fun _ hr => .inl hr)
          (fun r _ hra => .inl ⟨s.set_ne _ fun h => hra (by simp [h]), hra⟩)
      · simp only [hrep] at hs
        unfold Shell.ipcSend at hs
        rw [hxp, hpr, Option.bind_some, show pr.receive (σ c.places) = some { pr with pc := .forward (σ c.places) } by
          simp [Proc.receive, hpc], Option.map_some, Option.some.injEq] at hs
        subst hs
        refine .goesOn [] 5 [] (.forward { pr with pc := .forward (σ c.places) } ?_ hpa hrp hco rfl hr) (by omega) rfl
          (fun _ hr => absurd hr List.not_mem_nil)
          (fun r hrb _ => ?_)
        · rw [Shell.post_procs, Shell.set_ne _ _ hqb.symm, Shell.set_same]
        · by_cases hrp' : r = p
          · refine .inr ⟨hrp' ▸ hp1, fun y hy => ?_⟩
            rw [hrp', Shell.post_procs, Shell.set_same] at hy
            cases hy
            exact .inr (.inl rfl)
          · refine .inl ⟨?_, by simpa using hrp'⟩
            rw [Shell.post_procs, Shell.set_ne _ _ hrp', Shell.set_ne _ _ hrb]
  | forward pr hpr hpa hrp hco hpc hr =>
    obtain rfl : p = b := by simpa using hp
    unfold Shell.step at hs
    rw [hpr, Option.bind_some] at hs
    simp only [hpc] at hs
    split at hs
    · rename_i hc
      unfold Shell.ipcSend at hs
      obtain ⟨q, hq, rfl⟩ := Option.map_eq_some_iff.1 hs
      subst hpa
      exact .delivers pr q rfl rfl (hco ▸ hc) hr hrp hq rfl
    · rename_i hc
      cases hs
      exact .ends pr .waitRight rfl rfl rfl hrp (.inl rfl) hr.not_faults (fun h => absurd (hco.trans h) hc) (by omega)

/-! ## Every step keeps the phase -/

/-- A step of `p` has nothing to do with the line any more. -/
def Passive (s : Shell) (p : Nat) : Prop :=
  ∃ pr, s.procs p = some pr ∧ pr.idle ∧ ∀ q, s.procs 1 = some q → q.pc ≠ .waitLeft p

/-- The phase after a step of `p`: what was to be spawned has been, or still is, and the line is nearer to its end. -/
def Advances (σ : List Place → Int) (s s' : Shell) (p n m : Nat) (X : List (List Place)) : Prop :=
  ∃ n' m' X', Phase σ s' n' m' X' ∧ s'.places ++ X' = s.places ++ X ∧ (n' < n ∨ n' = n ∧ m' < m ∨ Passive s p ∨ X = [])

theorem idle_set {r : Nat} {pr' x : Proc} (h : ∀ y, s.procs r = some y → y.idle) (hi : pr'.idle)
    (hx : (s.set p pr').procs r = some x) : x.idle := by
  by_cases hr : r = p
  · subst hr
    rw [s.set_same] at hx
    cases hx
    exact hi
  · exact h x (by rwa [s.set_ne _ hr] at hx)

theorem Turn.parser {b : Nat} {c : Cmd} {cond : Bool} {n : Nat} {X : List (List Place)} (h : Turn σ s b c cond n X)
    (hb : b ≠ 1) : ∃ q, s.procs 1 = some q ∧ q.rightpipe = none ∧
      (cond = false ∧ q.pc = .waitLeft b ∨ cond = true ∧ (q.pc = .answerOr b ∨ q.pc = .answerAnd b)) := by
  cases h with
  | self h => exact absurd h hb
  | left q d rest _ hq hpc hr => exact ⟨q, hq, hr, .inl ⟨rfl, hpc⟩⟩
  | or q d rest _ hq hpc hr => exact ⟨q, hq, hr, .inr ⟨rfl, .inl hpc⟩⟩
  | and q d rest _ hq hpc hr => exact ⟨q, hq, hr, .inr ⟨rfl, .inr hpc⟩⟩

theorem Job.proc {b a : Nat} {cond : Bool} {c : Cmd} {act : List Nat} {k : Nat} {Y : List (List Place)}
    (h : Job σ s b a cond c act k Y) : ∃ y, s.procs b = some y ∧ y.pc ≠ .gone ∧ ∀ x, y.pc ≠ .waitLeft x := by
  cases h with
  | before y i hy _ _ _ hpc => exact ⟨y, hy, by rcases hpc with ⟨h, -⟩ | ⟨h, -⟩ | h <;> simp [h]⟩
  | status y x q k hy _ _ _ hpc => exact ⟨y, hy, by simp [hpc]⟩
  | forward y hy _ _ _ hpc => exact ⟨y, hy, by simp [hpc]⟩

theorem Job.act_pc {b a : Nat} {cond : Bool} {c : Cmd} {act : List Nat} {k : Nat} {Y : List (List Place)}
    (h : Job σ s b a cond c act k Y) {r : Nat} (hr : r ∈ act) :
    ∃ x, s.procs r = some x ∧ (x.pc = .main ∨ ∃ res, x.pc = .report res) := by
  cases h with
  | before | forward => cases hr
  | status pr x q k _ _ _ _ _ hx _ _ hst =>
    rw [List.mem_singleton] at hr
    subst hr
    exact ⟨x, hx, hst.imp And.left fun h => ⟨_, h.1⟩⟩

/-- The end of a command that has nothing left to do: its process is idle, and the parser waits for it or goes on. -/
theorem ended_of_idle {b : Nat} {pr : Proc} {n m : Nat} (hi : pr.idle)
    (hw : b ≠ 1 → ∃ q, s.procs 1 = some q ∧ (q.waits ∨ q.pc = .waitLeft b ∧ pr.pc = .fault))
    (hall : ∀ r x, r ≠ 1 → r ≠ b → s.procs r = some x → x.idle) : Phase σ (s.set b pr) n m [] := by
  refine .ended n m fun r x hx => ?_
  by_cases hrb : r = b
  · subst hrb
    rw [s.set_same] at hx
    cases hx
    exact .inl hi
  · rw [s.set_ne _ hrb] at hx
    by_cases hr1 : r = 1
    · subst hr1
      obtain ⟨q, hq, hw⟩ := hw (Ne.symm hrb)
      cases hq.symm.trans hx
      exact .inr ⟨rfl, hw.imp_right fun h => ⟨b, pr, h.1, s.set_same _ _, h.2⟩⟩
    · exact .inl (hall r x hr1 hrb hx)

theorem after_true (c : Cmd) (X : List (List Place)) : after c true X = if Runs c then X else [] := by
  unfold after
  by_cases h : Runs c
  · rw [if_pos h, if_neg]
    rintro (hf | ⟨-, hr⟩)
    · exact h.not_faults hf
    · exact hr h
  · rw [if_neg h, if_pos (.inr ⟨rfl, h⟩)]

theorem after_false (c : Cmd) (X : List (List Place)) : after c false X = if Faults c then [] else X := by
  simp [after]

theorem phase_job {b a : Nat} {c : Cmd} {cond : Bool} {act : List Nat} {k n : Nat} {X Y : List (List Place)}
    (ho : Owed s) (h : Job σ s b a cond c act k Y) (ha : b ≠ 1 → a = 1) (ht : Turn σ s b c cond n X)
    (hall : ∀ r x, r ≠ 1 → r ≠ b → r ∉ act → s.procs r = some x → x.idle) (hp : p = b ∨ p ∈ act)
    (hs : s.step (.ofStatus σ) p = some s') : Advances σ s s' p n (k + 1) (Y ++ after c cond X) := by
  have h1act : 1 ∉ act := fun h1 => by
    by_cases hb : b = 1
    · cases h with
      | before | forward => cases h1
      | status pr x q k hpr _ _ _ hpc hx _ _ hst =>
        rw [List.mem_singleton] at h1
        cases (hb ▸ hpr).symm.trans (h1 ▸ hx)
        rcases hst with ⟨h, -⟩ | ⟨h, -⟩ <;> simp [hpc] at h
    · obtain ⟨q, hq, -, hpc⟩ := ht.parser hb
      obtain ⟨x, hx, hxp⟩ := h.act_pc h1
      cases hq.symm.trans hx
      rcases hxp with hxp | ⟨res, hxp⟩ <;> rcases hpc with ⟨-, hpc⟩ | ⟨-, hpc | hpc⟩ <;> simp [hxp] at hpc
  -- the parser of a process that gives up waits for a status that will not come
  have hwaits : cond = true → b ≠ 1 → ∃ q, s.procs 1 = some q ∧ q.waits := fun hc hb => by
    obtain ⟨q, hq, -, hpc⟩ := ht.parser hb
    refine ⟨q, hq, ?_⟩
    rcases hpc with ⟨h, -⟩ | ⟨-, h | h⟩
    · simp [hc] at h
    · exact .inl ⟨_, h⟩
    · exact .inr (.inl ⟨_, h⟩)
  cases job_step ho h h1act hp hs with
  | goesOn act' k' Y' hj hk htr hsub hfr =>
    have hframe : b ≠ 1 → s'.procs 1 = s.procs 1 := fun hb => by
      have h1lt : 1 < s.count := by
        obtain ⟨q, hq, -⟩ := ht.parser hb
        exact ho.lt _ _ hq
      refine ((hfr 1 (Ne.symm hb) (fun h1 => ?_)).resolve_right (fun h => h.1 rfl)).1
      rcases hsub 1 h1 with h1 | h1
      · exact h1act h1
      · omega
    refine ⟨n, k' + 1, Y' ++ after c cond X, .job b a c cond act' k' n X Y' hj ha (ht.frame hframe) ?_, ?_,
      .inr (.inl ⟨rfl, by omega⟩)⟩
    · intro r x hr1 hrb hra hx
      rcases hfr r hrb hra with ⟨heq, hract⟩ | ⟨-, hidle⟩
      · exact hall r x hr1 hrb hract (heq ▸ hx)
      · exact hidle x hx
    · rw [← List.append_assoc, htr, List.append_assoc]
  | ends pr pc hY hact hs' hrp hpc hnf hnr hk =>
    subst hY hact hs'
    have hidle : ({ pr with pc := pc } : Proc).idle := hpc.imp (fun h => ⟨h, hrp⟩) .inl
    cases ht with
    | self hb =>
      refine ⟨0, 0, [], ended_of_idle hidle (fun h => absurd hb h)
        (fun r x hr1 hrb => hall r x hr1 hrb List.not_mem_nil), ?_,
        .inr (.inl ⟨rfl, by omega⟩)⟩
      simp [after_false]
    | left q d rest hb hq hqp hqr hreads hd hpl hrest =>
      refine ⟨_, if pc = .waitRight then 3 else 2, enter d (spawned σ (some d) rest),
        .left q { pr with pc := pc } b _ d rest ((s.set_ne _ hb.symm).trans hq) hqp hqr hreads hd hpl hrest hb
          (s.set_same _ _) ?_ (fun r x hr1 hrb hx =>
            hall r x hr1 hrb List.not_mem_nil ((s.set_ne _ hrb).symm.trans hx)), ?_,
        .inr (.inl ⟨rfl, ?_⟩)⟩
      · rcases hpc with rfl | rfl
        · exact .inl ⟨rfl, hrp, rfl⟩
        · exact .inr (.inl ⟨rfl, rfl⟩)
      · simp [after_false, hnf]
      · split <;> omega
    | or q d rest hb | and q d rest hb =>
      have hX : ∀ X, after c true X = [] := fun X => by rw [after_true, if_neg (hnr rfl)]
      rw [hX]
      exact ⟨0, 0, [], ended_of_idle hidle (fun hb => (hwaits rfl hb).imp fun q h => ⟨h.1, .inl h.2⟩)
        (fun r x hr1 hrb => hall r x hr1 hrb List.not_mem_nil), rfl, .inr (.inr (.inr rfl))⟩
  | faults pr hY hact hs' hf =>
    subst hY hact hs'
    have hX : after c cond X = [] := if_pos (.inl hf)
    rw [hX]
    refine ⟨0, 0, [], ended_of_idle (.inr (.inr (.inr (.inl rfl)))) (fun hb => ?_)
      (fun r x hr1 hrb => hall r x hr1 hrb List.not_mem_nil), rfl, .inr (.inr (.inr rfl))⟩
    obtain ⟨q, hq, -, hpc⟩ := ht.parser hb
    refine ⟨q, hq, ?_⟩
    rcases hpc with ⟨-, h⟩ | ⟨-, h | h⟩
    · exact .inr ⟨h, rfl⟩
    · exact .inl (.inl ⟨_, h⟩)
    · exact .inl (.inr (.inl ⟨_, h⟩))
  | delivers pr q' hY hact hc hr hrp hq' hs' =>
    subst hY hact hc
    have hb : b ≠ 1 := by
      cases ht <;> assumption
    obtain rfl := ha hb
    have h1 : s'.procs 1 = some q' := by rw [hs', Shell.post_procs, Shell.set_ne _ _ hb.symm, Shell.set_same]
    have hothers : ∀ r x, r ≠ 1 → s'.procs r = some x → x.idle := fun r x hr1 hx => by
      rw [hs', Shell.post_procs] at hx
      by_cases hrb : r = b
      · subst hrb
        rw [Shell.set_same] at hx
        cases hx
        exact .inl ⟨rfl, hrp⟩
      · rw [Shell.set_ne _ _ hrb, Shell.set_ne _ _ hr1] at hx
        exact hall r x hr1 hrb List.not_mem_nil hx
    have htr : s'.places = s.places := by rw [hs']; rfl
    rw [after_of_runs hr]
    have hparse : ∀ (q : Proc) (d : Cmd) (rest : Rest), q' = q.again → q.rightpipe = none →
        Reads q.scan (d.map .word ++ tokensOf rest) → d ≠ [] → Plain d → (∀ x ∈ rest, x.2 ≠ [] ∧ Plain x.2) →
        Phase σ s' (d.length + (tokensOf rest).length + 1) 0 (enter d (spawned σ (some d) rest)) :=
      fun q d rest hq hqr hreads hd hpl hrest => by
        subst hq
        exact .parse q.again d rest h1 rfl hqr hreads hd (Nat.zero_le _) hpl hrest hothers
    cases ht with
    | or q d rest _ hq hqp hqr hreads hd hpl hrest =>
      rw [hq, Option.bind_some] at hq'
      simp only [Proc.receive, hqp, Option.some.injEq] at hq'
      refine ⟨_, 0, _, ?_, by rw [htr], .inr (.inl ⟨rfl, by omega⟩)⟩
      by_cases hz : σ c.places = 0
      · rw [if_pos hz] at hq' ⊢
        exact .skipOr q' d rest h1 (by rw [← hq']) (by rw [← hq']; exact hqr)
          (by rw [← hq']; exact hreads) hrest hothers
      · rw [if_neg hz] at hq' ⊢
        exact hparse q d rest hq'.symm hqr hreads hd hpl hrest
    | and q d rest _ hq hqp hqr hreads hd hpl hrest hargv hplc hlen =>
      rw [hq, Option.bind_some] at hq'
      simp only [Proc.receive, hqp, Option.some.injEq] at hq'
      refine ⟨_, 0, _, ?_, by rw [htr], .inr (.inl ⟨rfl, by omega⟩)⟩
      by_cases hz : σ c.places = 0
      · rw [if_pos hz] at hq' ⊢
        exact hparse q d rest hq'.symm hqr hreads hd hpl hrest
      · rw [if_neg hz] at hq' ⊢
        have hq'a : q'.argv = c := by rw [← hq']; exact hargv
        rw [← hq'a]
        exact .skipAnd q' d rest h1 (by rw [← hq']) (by rw [← hq']; exact hqr) (by rw [← hq']; exact hreads) hd
          (by
            rw [hq'a]
            intro w hw
            rcases List.mem_append.1 hw with hw | hw
            · exact hplc w hw
            · exact hpl w hw) (by rw [hq'a]; exact hr.1) (by rw [hq'a]; exact hlen) hrest hothers

/-! ### The parser -/

/-- The parser goes over to the process that runs the command, itself at the end of the line. -/
theorem phase_fork (child : Proc) (cond : Bool) {q y : Proc} {c : Cmd} {n N : Nat} {X : List (List Place)}
    (ho : Owed s) (hq : s.procs 1 = some q) (hchild : child.argv = c) (hpar : child.parent = 1)
    (hrp : child.rightpipe = none) (hcond : child.cond = cond) (hn : c ≠ []) (hpl : Plain c)
    (hw : y.waits ∨ y.pc = .waitLeft s.count)
    (ht : Turn σ ((s.add child.returned).set 1 y) s.count c cond n X)
    (hN : n < N) (hall : ∀ r x, r ≠ 1 → s.procs r = some x → x.idle) :
    Advances σ s ((s.add child.returned).set 1 y) 1 N 0 (fire c ++ after c cond X) := by
  have hne : (1 : Nat) ≠ s.count := Nat.ne_of_lt (ho.lt _ _ hq)
  have hb : ((s.add child.returned).set 1 y).procs s.count = some child.returned := by
    rw [Shell.set_ne _ _ hne.symm, s.add_same]
  have hrest : ∀ r x, r ≠ 1 → r ≠ s.count → ((s.add child.returned).set 1 y).procs r = some x → x.idle :=
    fun r x hr1 hrc hx => hall r x hr1 (by rwa [Shell.set_ne _ _ hr1, s.add_ne _ hrc] at hx)
  by_cases hlen : maxArgs ≤ c.length
  · have hret : child.returned.pc = .fault := by simp [Proc.returned, hchild, hn, hlen]
    have hf : Faults c := .inl hlen
    refine ⟨0, 0, [], .ended 0 0 fun r x hx => ?_, ?_, .inl (by omega)⟩
    · by_cases hr1 : r = 1
      · subst hr1
        rw [Shell.set_same] at hx
        cases hx
        exact .inr ⟨rfl, hw.imp_right fun h => ⟨_, _, h, hb, hret⟩⟩
      · by_cases hrc : r = s.count
        · subst hrc
          cases hb.symm.trans hx
          exact .inl (.inr (.inr (.inr (.inl hret))))
        · exact .inl (hrest r x hr1 hrc hx)
    · have hX : after c cond X = [] := if_pos (.inl hf)
      rw [fire_of_not fun h => h.not_faults hf, hX]
      rfl
  · have hret : child.returned = { child with pc := .run } := by simp [Proc.returned, hchild, hn, hlen]
    refine ⟨n, _, fire c ++ after c cond X, .job s.count 1 c cond [] _ n X (fire c)
      (.before _ 1 hb ?_ ?_ ?_ ?_ ?_ hn (by omega)) (fun _ => rfl) ht
      (fun r x hr1 hrc _ hx => hrest r x hr1 hrc hx), rfl, .inl hN⟩
    · simp [hpar]
    · rw [hret]; exact hrp
    · rw [hret]; exact hcond
    · exact .inl ⟨by rw [hret], rfl⟩
    · rw [hret, hchild]
      exact .refl hpl

theorem phase_parse {q : Proc} {c : Cmd} {rest : Rest} (ho : Owed s) (hq : s.procs 1 = some q) (hqp : q.pc = .parse)
    (hqr : q.rightpipe = none) (hreads : Reads q.scan (c.map .word ++ tokensOf rest)) (hne : q.argv ++ c ≠ [])
    (hlen : q.argv.length ≤ maxArgs) (hpl : Plain (q.argv ++ c)) (hrest : ∀ x ∈ rest, x.2 ≠ [] ∧ Plain x.2)
    (hall : ∀ r x, r ≠ 1 → s.procs r = some x → x.idle) (hs : s.step (.ofStatus σ) 1 = some s') :
    Advances σ s s' 1 (c.length + (tokensOf rest).length + 1) 0
      (enter (q.argv ++ c) (spawned σ (some (q.argv ++ c)) rest)) := by
  have hset : ∀ (x : Proc) r y, r ≠ 1 → (s.set 1 x).procs r = some y → y.idle :=
    fun x r y hr hy => hall r y hr (by rwa [s.set_ne _ hr] at hy)
  unfold Shell.step at hs
  rw [hq, Option.bind_some] at hs
  simp only [hqp, Option.some.injEq] at hs
  subst hs
  unfold Shell.parsecmd
  cases c with
  | cons w c =>
    obtain ⟨hnc, hw, hr⟩ := hreads.word
    simp only [hnc]
    split
    · rename_i hmax
      refine ⟨0, 0, [], .ended 0 0 fun r x hx => ?_, ?_, .inl (by simp)⟩
      · by_cases hr1 : r = 1
        · subst hr1
          rw [s.set_same] at hx
          cases hx
          exact .inl (.inr (.inl rfl))
        · exact .inl (hset _ r x hr1 hx)
      · rw [enter, if_pos (by simp only [List.length_append, List.length_cons]; omega)]
        rfl
    · rename_i hmax
      refine ⟨_, 0, _, .parse
        { q with cond := false, back := false, scan := q.scan.next, argv := q.argv ++ [q.scan.np1] }
        c rest (s.set_same _ _) hqp hqr hr ?_ ?_ ?_ hrest (hset _), ?_, .inl ?_⟩
      · simp
      · simp only [List.length_append, List.length_singleton]
        omega
      · simpa [hw] using hpl
      · simp [hw]
      · simp only [List.length_cons]
        omega
  | nil =>
    rw [List.append_nil] at hne hpl ⊢
    have henter : ∀ X, enter q.argv X = X := fun X => if_neg (by omega)
    rw [henter]
    cases rest with
    | nil =>
      have hnc : q.scan.nc = .eof := hreads
      simp only [hnc]
      by_cases hmax : maxArgs ≤ q.argv.length
      · refine ⟨0, 0, [], ended_of_idle (.inr (.inr (.inr (.inl ?_)))) (fun h => absurd rfl h)
          (fun r x hr1 _ hx => hall r x hr1 hx), ?_, .inl (by simp)⟩
        · simp [Proc.returned, hne, hmax]
        · have : fire q.argv = [] := fire_of_not fun h => h.not_faults (.inl hmax)
          simp [spawned, this]
      · have hret : ({ q with cond := false, back := false, scan := q.scan.next } : Proc).returned =
            { q with cond := false, back := false, scan := q.scan.next, pc := .run } := by
          simp [Proc.returned, hne, hmax]
        rw [hret]
        refine ⟨0, _, _, .job 1 q.parent q.argv false [] _ 0 [] (fire q.argv)
          (.before _ 1 (s.set_same _ _) rfl hqr rfl (.inl ⟨rfl, rfl⟩) (.refl hpl) hne (by omega))
          (fun h => absurd rfl h)
          (.self rfl) (fun r x hr1 _ _ hx => hset _ r x hr1 hx), ?_, .inl (by simp)⟩
        simp [spawned, after]
    | cons x rest =>
      obtain ⟨op, d⟩ := x
      obtain ⟨hnc, hr⟩ := hreads.sym
      obtain ⟨hd, hpd⟩ := hrest (op, d) (by simp)
      have hrest' : ∀ x ∈ rest, x.2 ≠ [] ∧ Plain x.2 := fun x hx => hrest x (by simp [hx])
      have hcount : s.count ≠ 1 := Nat.ne_of_gt (ho.lt _ _ hq)
      have hlt : d.length + (tokensOf rest).length + 1 < ([] : Cmd).length +
          (tokensOf ((op, d) :: rest)).length + 1 := by
        simp [tokensOf]
      cases op with
      | semi =>
        have hX : spawned σ (some q.argv) ((.semi, d) :: rest) =
            fire q.argv ++ after q.argv false (enter d (spawned σ (some d) rest)) := by
          rw [after_false]
          rfl
        rw [hnc, hX]
        exact phase_fork { q with cond := false, back := false, scan := q.scan.next, parent := 1 } false
          ho hq rfl rfl hqr rfl hne hpl (.inr rfl)
          (.left _ d rest hcount (Shell.set_same _ _ _) rfl hqr hr hd hpd hrest') hlt hall
      | or =>
        have hX : spawned σ (some q.argv) ((.or, d) :: rest) = fire q.argv ++ after q.argv true
            (if σ q.argv.places = 0 then spawned σ none rest else enter d (spawned σ (some d) rest)) := by
          rw [after_true]
          rfl
        rw [hnc, hX]
        exact phase_fork { q with cond := true, back := false, scan := q.scan.next, parent := 1 } true
          ho hq rfl rfl hqr rfl hne hpl (.inl (.inl ⟨_, rfl⟩))
          (.or _ d rest hcount (Shell.set_same _ _ _) rfl hqr hr hd hpd hrest') hlt hall
      | and =>
        have hX : spawned σ (some q.argv) ((.and, d) :: rest) = fire q.argv ++ after q.argv true
            (if σ q.argv.places = 0 then enter d (spawned σ (some d) rest)
              else enter (q.argv ++ d.tail) (spawned σ (some (q.argv ++ d.tail)) rest)) := by
          rw [after_true]
          rfl
        rw [hnc, hX]
        exact phase_fork { q with cond := true, back := false, scan := q.scan.next, parent := 1 } true
          ho hq rfl rfl hqr rfl hne hpl (.inl (.inr (.inl ⟨_, rfl⟩)))
          (.and _ d rest hcount (Shell.set_same _ _ _) rfl hqr hr hd hpd hrest' rfl hpl hlen) hlt hall

theorem phase_skipOr {q : Proc} {c : Cmd} {rest : Rest} (hq : s.procs 1 = some q) (hqp : q.pc = .skipOr)
    (hqr : q.rightpipe = none) (hreads : Reads q.scan (c.map .word ++ tokensOf rest))
    (hrest : ∀ x ∈ rest, x.2 ≠ [] ∧ Plain x.2) (hall : ∀ r x, r ≠ 1 → s.procs r = some x → x.idle)
    (hs : s.step (.ofStatus σ) 1 = some s') :
    Advances σ s s' 1 (c.length + (tokensOf rest).length + 1) 0 (spawned σ none rest) := by
  have hset : ∀ (x : Proc) r y, r ≠ 1 → (s.set 1 x).procs r = some y → y.idle :=
    fun x r y hr hy => hall r y hr (by rwa [s.set_ne _ hr] at hy)
  unfold Shell.step at hs
  rw [hq, Option.bind_some] at hs
  simp only [hqp, Option.some.injEq] at hs
  subst hs
  unfold Proc.skipOr
  cases c with
  | cons w c =>
    obtain ⟨hnc, -, hr⟩ := hreads.word
    rw [hnc]
    exact ⟨_, 0, _, .skipOr { q with scan := q.scan.next } c rest (s.set_same _ _) hqp hqr hr hrest (hset _), rfl,
      .inl (by simp only [List.length_cons]; omega)⟩
  | nil =>
    cases rest with
    | nil =>
      have hnc : q.scan.nc = .eof := hreads
      rw [hnc]
      exact ⟨0, 0, [], ended_of_idle (.inr (.inl rfl)) (fun h => absurd rfl h)
        (fun r x hr1 _ hx => hall r x hr1 hx), rfl,
        .inl (by simp)⟩
    | cons x rest =>
      obtain ⟨op, d⟩ := x
      obtain ⟨hnc, hr⟩ := hreads.sym
      obtain ⟨hd, hpd⟩ := hrest (op, d) (by simp)
      have hrest' : ∀ x ∈ rest, x.2 ≠ [] ∧ Plain x.2 := fun x hx => hrest x (by simp [hx])
      have hlt : d.length + (tokensOf rest).length + 1 < ([] : Cmd).length +
          (tokensOf ((op, d) :: rest)).length + 1 := by
        simp [tokensOf]
      cases op with
      | and =>
        rw [hnc]
        exact ⟨_, 0, _, .parse (Proc.again { q with scan := q.scan.next }) d rest (s.set_same _ _) rfl hqr hr hd
          (Nat.zero_le _) hpd
          hrest' (hset _), rfl, .inl hlt⟩
      | or =>
        rw [hnc]
        exact ⟨_, 0, _, .skipOr { q with scan := q.scan.next } d rest (s.set_same _ _) hqp hqr hr hrest' (hset _), rfl,
          .inl hlt⟩
      | semi =>
        rw [hnc]
        exact ⟨_, 0, _, .skipOr { q with scan := q.scan.next } d rest (s.set_same _ _) hqp hqr hr hrest' (hset _), rfl,
          .inl hlt⟩

/-- Case 'A' reads one word of the command it should skip, and goes on with the rest of it. -/
theorem phase_skipAnd {q : Proc} {c : Cmd} {rest : Rest} (hq : s.procs 1 = some q) (hqp : q.pc = .skipAnd)
    (hqr : q.rightpipe = none) (hreads : Reads q.scan (c.map .word ++ tokensOf rest)) (hc : c ≠ [])
    (hpl : Plain (q.argv ++ c)) (hne : q.argv ≠ []) (hlen : q.argv.length ≤ maxArgs)
    (hrest : ∀ x ∈ rest, x.2 ≠ [] ∧ Plain x.2) (hall : ∀ r x, r ≠ 1 → s.procs r = some x → x.idle)
    (hs : s.step (.ofStatus σ) 1 = some s') :
    Advances σ s s' 1 (c.length + (tokensOf rest).length + 1) 0
      (enter (q.argv ++ c.tail) (spawned σ (some (q.argv ++ c.tail)) rest)) := by
  unfold Shell.step at hs
  rw [hq, Option.bind_some] at hs
  simp only [hqp, Option.some.injEq] at hs
  subst hs
  unfold Proc.skipAnd
  cases c with
  | nil => exact absurd rfl hc
  | cons w c =>
    obtain ⟨hnc, -, hr⟩ := hreads.word
    rw [hnc]
    refine ⟨_, 0, _, .parse { q with scan := q.scan.next, pc := .parse } c rest
      (s.set_same _ _) rfl hqr hr (by simp [hne])
      hlen (fun v hv => hpl v ?_) hrest (fun r y hr hy => hall r y hr (by rwa [s.set_ne _ hr] at hy)), rfl,
      .inl (by simp only [List.length_cons]; omega)⟩
    rcases List.mem_append.1 hv with hv | hv
    · exact List.mem_append_left _ hv
    · exact List.mem_append_right _ (List.mem_cons_of_mem _ hv)

/-- A step of a process that is idle, in a state with nothing more to spawn. -/
theorem phase_ended {n m : Nat} (h : ∀ p pr, s.procs p = some pr → pr.idle ∨ p = 1 ∧ (pr.waits ∨
      ∃ b y, pr.pc = .waitLeft b ∧ s.procs b = some y ∧ y.pc = .fault)) {pr : Proc} (hpr : s.procs p = some pr)
    (hs : s.step (.ofStatus σ) p = some s') : Advances σ s s' p n m [] := by
  rcases h p pr hpr with hi | ⟨-, hw | ⟨b, y, hpc, hb, hy⟩⟩
  · obtain ⟨pc, rfl, hidle, hpc⟩ := idle_step hpr hi hs
    refine ⟨0, 0, [], .ended 0 0 fun r x hx => ?_, rfl, .inr (.inr (.inr rfl))⟩
    by_cases hrp : r = p
    · subst hrp
      rw [s.set_same] at hx
      cases hx
      exact .inl hidle
    · rw [s.set_ne _ hrp] at hx
      refine (h r x hx).imp_right fun ⟨h1, hw⟩ => ⟨h1, hw.imp_right fun ⟨b, y, hb, hyb, hyf⟩ => ⟨b, y, hb, ?_, hyf⟩⟩
      rw [s.set_ne _ fun hbp => ?_]
      · exact hyb
      · rw [hbp, hpr] at hyb
        cases hyb
        rcases hpc with ⟨h, -⟩ | ⟨h, -⟩ | ⟨h, -⟩ <;> simp [hyf] at h
  · unfold Shell.step at hs
    rw [hpr, Option.bind_some] at hs
    rcases hw with ⟨c, hpc⟩ | ⟨c, hpc⟩ | ⟨c, hpc⟩ <;> simp [hpc] at hs
  · unfold Shell.step at hs
    rw [hpr, Option.bind_some] at hs
    simp [hpc, Shell.isGone, hb, hy] at hs

/-- **Every step, of whichever process, keeps the phase.** -/
theorem phase_step {n m : Nat} {X : List (List Place)} (ho : Owed s) (h : Phase σ s n m X)
    (hs : s.step (.ofStatus σ) p = some s') : Advances σ s s' p n m X := by
  obtain ⟨pr, hpr⟩ : ∃ pr, s.procs p = some pr := by
    unfold Shell.step at hs
    obtain ⟨pr, hpr, -⟩ := Option.bind_eq_some_iff.1 hs
    exact ⟨pr, hpr⟩
  cases h with
  | parse q c rest hq hqp hqr hreads hne hlen hpl hrest hall =>
    by_cases hp : p = 1
    · subst hp
      exact phase_parse ho hq hqp hqr hreads hne hlen hpl hrest hall hs
    · have hi := hall p pr hp hpr
      obtain ⟨pc, rfl, hidle, -⟩ := idle_step hpr hi hs
      exact ⟨_, 0, _, .parse q c rest ((s.set_ne _ (Ne.symm hp)).trans hq) hqp hqr hreads hne hlen hpl hrest
        (fun r x hr hx => idle_set (fun y hy => hall r y hr hy) hidle hx), rfl,
        .inr (.inr (.inl ⟨pr, hpr, hi, fun q' hq' => by cases hq.symm.trans hq'; simp [hqp]⟩))⟩
  | job b a c cond act k _ X Y hj ha ht hall =>
    by_cases hp : p = b ∨ p ∈ act
    · exact phase_job ho hj ha ht hall hp hs
    · obtain ⟨hpb, hpa⟩ := not_or.1 hp
      have hp1 : p ≠ 1 ∨ b = 1 := by
        by_cases hb : b = 1
        · exact .inr hb
        · refine .inl fun hp1 => ?_
          obtain ⟨q, hq, -, hpc⟩ := ht.parser hb
          subst hp1
          unfold Shell.step at hs
          rw [hq, Option.bind_some] at hs
          obtain ⟨y, hy, hbusy, -⟩ := hj.proc
          rcases hpc with ⟨-, h⟩ | ⟨-, h | h⟩
          · simp [h, Shell.isGone, hy, hbusy] at hs
          · simp [h] at hs
          · simp [h] at hs
      have hp1' : p ≠ 1 := hp1.elim id fun hb hp1 => hpb (hp1.trans hb.symm)
      have hi := hall p pr hp1' hpb hpa hpr
      obtain ⟨pc, rfl, hidle, -⟩ := idle_step hpr hi hs
      refine ⟨_, k + 1, _,
        .job b a c cond act k n X Y (hj.frame (s.set_ne _ (Ne.symm hpb)) fun r hr => s.set_ne _ fun h => hpa (h ▸ hr))
        ha (ht.frame fun _ => s.set_ne _ (Ne.symm hp1'))
        (fun r x hr1 hrb hra hx => idle_set (fun y hy => hall r y hr1 hrb hra hy) hidle hx), rfl,
        .inr (.inr (.inl ⟨pr, hpr, hi, fun q hq hpc => ?_⟩))⟩
      cases ht with
      | self hb =>
        subst hb
        obtain ⟨y, hy, -, hno⟩ := hj.proc
        cases hy.symm.trans hq
        exact hno p hpc
      | left q' d rest _ hq' hqp =>
        cases hq'.symm.trans hq
        rw [hqp] at hpc
        exact hpb (Pc.waitLeft.inj hpc).symm
      | or q' d rest _ hq' hqp =>
        cases hq'.symm.trans hq
        simp [hqp] at hpc
      | and q' d rest _ hq' hqp =>
        cases hq'.symm.trans hq
        simp [hqp] at hpc
  | left q y b m c rest hq hqp hqr hreads hc hpl hrest hb hy hyp hall =>
    have hyi : y.idle := by
      rcases hyp with ⟨h, hr, -⟩ | ⟨h, -⟩ | ⟨h, -⟩
      · exact .inl ⟨h, hr⟩
      · exact .inr (.inl h)
      · exact .inr (.inr (.inl h))
    have hall' : ∀ r x, r ≠ 1 → s.procs r = some x → x.idle := fun r x hr1 hx => by
      by_cases hrb : r = b
      · subst hrb
        cases hy.symm.trans hx
        exact hyi
      · exact hall r x hr1 hrb hx
    by_cases hp : p = 1
    · subst hp
      unfold Shell.step at hs
      rw [hq, Option.bind_some] at hs
      simp only [hqp, Shell.isGone, hy, Option.ite_none_right_eq_some, Option.some.injEq] at hs
      obtain ⟨hg, rfl⟩ := hs
      have hg : y.pc = .gone := by simpa using hg
      have hm : m = 1 := by simpa [hg] using hyp
      exact ⟨_, 0, _, .parse q.again c rest (s.set_same _ _) rfl hqr hreads hc (Nat.zero_le _) hpl hrest
        (fun r x hr hx => hall' r x hr (by rwa [s.set_ne _ hr] at hx)), rfl, .inr (.inl ⟨rfl, by omega⟩)⟩
    · by_cases hpb : p = b
      · subst hpb
        obtain ⟨pc, rfl, hidle, hpc⟩ := idle_step hy hyi hs
        refine ⟨_, m - 1, _,
          .left q { y with pc := pc } p _ c rest ((s.set_ne _ (Ne.symm hp)).trans hq) hqp hqr hreads hc hpl
          hrest hb (s.set_same _ _) ?_ (fun r x hr1 hrb hx => hall r x hr1 hrb (by rwa [s.set_ne _ hrb] at hx)), rfl,
            ?_⟩
        · rcases hpc with ⟨h, rfl⟩ | ⟨h, rfl⟩ | ⟨h, -⟩
          · have hm : m = 3 := by simpa [h, and_assoc] using (by simpa [h] using hyp : y.rightpipe = none ∧ m = 3).2
            exact .inr (.inl ⟨rfl, by omega⟩)
          · have hm : m = 2 := by simpa [h] using hyp
            exact .inr (.inr ⟨rfl, by omega⟩)
          · simp [h] at hyp
        · exact .inr (.inl ⟨rfl, by rcases hyp with ⟨-, -, h⟩ | ⟨-, h⟩ | ⟨-, h⟩ <;> omega⟩)
      · have hi := hall' p pr hp hpr
        obtain ⟨pc, rfl, hidle, -⟩ := idle_step hpr hi hs
        exact ⟨_, m, _, .left q y b m c rest ((s.set_ne _ (Ne.symm hp)).trans hq) hqp hqr hreads hc hpl hrest hb
          ((s.set_ne _ (Ne.symm hpb)).trans hy) hyp
          (fun r x hr hrb hx => idle_set (fun z hz => hall r z hr hrb hz) hidle hx),
          rfl, .inr (.inr (.inl ⟨pr, hpr, hi, fun q' hq' hw => by
            cases hq.symm.trans hq'
            rw [hqp] at hw
            exact hpb (Pc.waitLeft.inj hw).symm⟩))⟩
  | skipOr q c rest hq hqp hqr hreads hrest hall =>
    by_cases hp : p = 1
    · subst hp
      exact phase_skipOr hq hqp hqr hreads hrest hall hs
    · have hi := hall p pr hp hpr
      obtain ⟨pc, rfl, hidle, -⟩ := idle_step hpr hi hs
      exact ⟨_, 0, _, .skipOr q c rest ((s.set_ne _ (Ne.symm hp)).trans hq) hqp hqr hreads hrest
        (fun r x hr hx => idle_set (fun y hy => hall r y hr hy) hidle hx), rfl,
        .inr (.inr (.inl ⟨pr, hpr, hi, fun q' hq' => by cases hq.symm.trans hq'; simp [hqp]⟩))⟩
  | skipAnd q c rest hq hqp hqr hreads hc hpl hne hlen hrest hall =>
    by_cases hp : p = 1
    · subst hp
      exact phase_skipAnd hq hqp hqr hreads hc hpl hne hlen hrest hall hs
    · have hi := hall p pr hp hpr
      obtain ⟨pc, rfl, hidle, -⟩ := idle_step hpr hi hs
      exact ⟨_, 0, _, .skipAnd q c rest ((s.set_ne _ (Ne.symm hp)).trans hq) hqp hqr hreads hc hpl hne hlen hrest
        (fun r x hr hx => idle_set (fun y hy => hall r y hr hy) hidle hx), rfl,
        .inr (.inr (.inl ⟨pr, hpr, hi, fun q' hq' => by cases hq.symm.trans hq'; simp [hqp]⟩))⟩
  | ended n m h => exact phase_ended h hpr hs

/-! ## The line is run to its end -/

theorem not_passive {pr : Proc} (hpr : s.procs p = some pr) (h : ¬pr.idle) : ¬Passive s p := by
  rintro ⟨x, hx, hi, -⟩
  cases hx.symm.trans hpr
  exact h hi

theorem job_runs {b a : Nat} {c : Cmd} {cond : Bool} {act : List Nat} {k n : Nat} {X Y : List (List Place)}
    (h : Job σ s b a cond c act k Y) (ha : b ≠ 1 → a = 1) (ht : Turn σ s b c cond n X) :
    ∃ p s', (p = b ∨ p ∈ act) ∧ s.step (.ofStatus σ) p = some s' := by
  cases h with
  | before pr i hpr _ _ _ hpc =>
    have hb : pr.before := by
      rcases hpc with ⟨h, -⟩ | ⟨h, -⟩ | h
      · exact .inl h
      · exact .inr (.inl ⟨i, h⟩)
      · exact .inr (.inr (.inr h))
    obtain ⟨s', hs⟩ := hb.runs (W := .ofStatus σ) hpr
    exact ⟨b, s', .inl rfl, hs⟩
  | status pr x q k hpr _ _ _ hpc hx hxp _ hst =>
    refine ⟨q, ?_⟩
    unfold Shell.step
    rw [hx, Option.bind_some]
    rcases hst with ⟨hm, -⟩ | ⟨hr, -⟩
    · simp only [hm]
      exact ⟨_, .inr (List.mem_singleton_self q), rfl⟩
    · simp only [hr]
      unfold Shell.ipcSend
      rw [hxp, hpr, Option.bind_some, show pr.receive (σ c.places) = some { pr with pc := .forward (σ c.places) } by
        simp [Proc.receive, hpc]]
      exact ⟨_, .inr (List.mem_singleton_self q), rfl⟩
  | forward pr hpr hpa _ hco hpc =>
    refine ⟨b, ?_⟩
    unfold Shell.step
    rw [hpr, Option.bind_some]
    simp only [hpc]
    split
    · rename_i hc
      rw [hc] at hco
      subst hco
      have hb : b ≠ 1 := by
        cases ht <;> assumption
      obtain ⟨q, hq, -, hqp⟩ := ht.parser hb
      obtain ⟨q', hq'⟩ : ∃ q', q.receive (σ c.places) = some q' := by
        rcases hqp with ⟨h, -⟩ | ⟨-, h | h⟩
        · cases h
        · exact ⟨_, by simp only [Proc.receive, h]; rfl⟩
        · exact ⟨_, by simp only [Proc.receive, h]; rfl⟩
      unfold Shell.ipcSend
      rw [hpa, ha hb, hq, Option.bind_some, hq']
      exact ⟨_, .inl trivial, rfl⟩
    · exact ⟨_, .inl trivial, rfl⟩

/-- **While something is to be spawned, somebody has a step that brings it nearer.** -/
theorem phase_runs {n m : Nat} {X : List (List Place)} (h : Phase σ s n m X) (hX : X ≠ []) :
    ∃ p s', s.step (.ofStatus σ) p = some s' ∧ ¬Passive s p := by
  cases h with
  | parse q c rest hq hqp =>
    refine ⟨1, s.parsecmd (.ofStatus σ) 1 q, ?_, not_passive hq (by simp [Proc.idle, hqp])⟩
    unfold Shell.step
    rw [hq, Option.bind_some]
    simp only [hqp]
  | job b a c cond act k _ X Y hj ha ht hall =>
    obtain ⟨p, s', hp, hs⟩ := job_runs hj ha ht
    obtain ⟨pr, hpr⟩ : ∃ pr, s.procs p = some pr := by
      unfold Shell.step at hs
      obtain ⟨pr, hpr, -⟩ := Option.bind_eq_some_iff.1 hs
      exact ⟨pr, hpr⟩
    exact ⟨p, s', hs, not_passive hpr (hj.busy hp hpr)⟩
  | left q y b m c rest hq hqp _ _ _ _ _ hb hy hyp =>
    have hb' : ¬Passive s b := fun ⟨_, _, _, hno⟩ => hno q hq hqp
    rcases hyp with ⟨h, hr, -⟩ | ⟨h, -⟩ | ⟨h, -⟩
    · refine ⟨b, s.set b { y with pc := .exit }, ?_, hb'⟩
      unfold Shell.step
      rw [hy, Option.bind_some]
      simp [h, hr]
    · refine ⟨b, s.set b { y with pc := .gone }, ?_, hb'⟩
      unfold Shell.step
      rw [hy, Option.bind_some]
      simp [h]
    · refine ⟨1, s.set 1 q.again, ?_, not_passive hq (by simp [Proc.idle, hqp])⟩
      unfold Shell.step
      rw [hq, Option.bind_some]
      simp [hqp, Shell.isGone, hy, h]
  | skipOr q c rest hq hqp =>
    refine ⟨1, s.set 1 q.skipOr, ?_, not_passive hq (by simp [Proc.idle, hqp])⟩
    unfold Shell.step
    rw [hq, Option.bind_some]
    simp only [hqp]
  | skipAnd q c rest hq hqp =>
    refine ⟨1, s.set 1 q.skipAnd, ?_, not_passive hq (by simp [Proc.idle, hqp])⟩
    unfold Shell.step
    rw [hq, Option.bind_some]
    simp only [hqp]
  | ended => exact absurd rfl hX

theorem phase_reaches : ∀ (n m : Nat) (s : Shell) (X : List (List Place)), Owed s → Phase σ s n m X →
    ∃ u, Shell.After (.ofStatus σ) s u ∧ u.places = s.places ++ X := by
  intro n
  induction n using Nat.strongRecOn with
  | _ n ihn =>
    intro m
    induction m using Nat.strongRecOn with
    | _ m ihm =>
      intro s X ho h
      by_cases hX : X = []
      · exact ⟨s, .start s rfl, by simp [hX]⟩
      · obtain ⟨p, s', hs, hact⟩ := phase_runs h hX
        obtain ⟨n', m', X', h', htr, hlt⟩ := phase_step ho h hs
        have hnext : ∃ u, Shell.After (.ofStatus σ) s' u ∧ u.places = s'.places ++ X' := by
          rcases hlt with hlt | ⟨rfl, hlt⟩ | hp | hp
          · exact ihn n' hlt m' s' X' (ho.step hs) h'
          · exact ihm m' hlt s' X' (ho.step hs) h'
          · exact absurd hp hact
          · exact absurd hp hX
        obtain ⟨u, hu, hpl⟩ := hnext
        exact ⟨u, Run.trans (.next s p s' (.start s rfl) trivial hs) hu, hpl.trans htr⟩

/-- **The programs spawned are `X`**: in every run they are the first of `X`, and they can still become all of it. -/
def Spawns (σ : List Place → Int) (line : List Char) (X : List (List Place)) : Prop :=
  ∀ t, Shell.Reached (.ofStatus σ) line t → t.places <+: X ∧ ∃ u, Shell.After (.ofStatus σ) t u ∧ u.places = X

theorem phase_start {line : List Char} {c : Cmd} {rest : Rest} (h : IsList line c rest) :
    Phase σ (Shell.start line) (c.length + (tokensOf rest).length + 1) 0 (enter c (spawned σ (some c) rest)) := by
  refine .parse (⟨0, .parse, scanLine line, [], none, false, false⟩ : Proc) c rest rfl rfl rfl h.reads h.nonempty.1
    (Nat.zero_le _) h.plain.1 (fun x hx => ⟨h.nonempty.2 x hx, h.plain.2 x hx⟩) (fun r x hr hx => ?_)
  unfold Shell.start at hx
  dsimp only at hx
  split at hx
  · cases hx
    exact .inr (.inr (.inr (.inr (.inl rfl))))
  · cases hx

/-- **The processes of the shell spawn what `spawned` says.** -/
theorem spawns_spawned {line : List Char} {c : Cmd} {rest : Rest} (h : IsList line c rest) :
    Spawns σ line (enter c (spawned σ (some c) rest)) := by
  intro t ht
  have hinv : Owed t ∧ ∃ n m X, Phase σ t n m X ∧ t.places ++ X = enter c (spawned σ (some c) rest) := by
    refine Run.invariant
      (fun t => Owed t ∧ ∃ n m X, Phase σ t n m X ∧ t.places ++ X = enter c (spawned σ (some c) rest))
      ?_ ?_ t ht
    · intro s hs
      rw [hs]
      exact ⟨Owed.start line, _, _, _, phase_start h, rfl⟩
    · rintro s p s' ⟨ho, n, m, X, hph, htr⟩ - hs
      obtain ⟨n', m', X', h', htr', -⟩ := phase_step ho hph hs
      exact ⟨ho.step hs, n', m', X', h', htr'.trans htr⟩
  obtain ⟨ho, n, m, X, hph, htr⟩ := hinv
  obtain ⟨u, hu, hpl⟩ := phase_reaches n m t X ho hph
  exact ⟨⟨X, htr⟩, u, hu, hpl.trans htr⟩

theorem spawns_unique {line : List Char} {X X' : List (List Place)} (h : Spawns σ line X) (h' : Spawns σ line X') :
    X = X' := by
  obtain ⟨-, u, hu, rfl⟩ := h _ (.start _ rfl)
  obtain ⟨-, u', hu', rfl⟩ := h' _ (.start _ rfl)
  have h1 : u.places <+: u'.places := (h' u hu).1
  have h2 : u'.places <+: u.places := (h u' hu').1
  exact h1.eq_of_length (Nat.le_antisymm h1.length_le h2.length_le)

end Mos.Sh
