import Mos.Spawned
/-!
# Redirections — the descriptors 0 and 1 of what the shell spawns

`parsecmd` opens the file of a redirection and has it take the place of descriptor 0 or 1 as soon as it has read it,
in the process that parses the line.  A command before an operator is run by a child, which has the descriptors of
that process at the fork; the process itself goes on with the next command, and keeps them.
-/
namespace Mos.Sh

/-! ## Descriptors -/

/-- What a descriptor refers to. -/
inductive File where
  /-- what the shell has there -/
  | shell (fd : Nat)
  /-- the file of a redirection -/
  | named (t : Tok) (w : Word)
  | pipe
deriving DecidableEq, Repr

/-- The descriptors of a process. -/
abbrev Fds := Nat → Option File

def maxFd : Nat := 32

namespace Fds

def close (T : Fds) (n : Nat) : Fds := Function.update T n none

/-- `fd_alloc` and `open`: the smallest descriptor that is free. -/
def openFd (T : Fds) (f : File) : Option (Nat × Fds) :=
  ((List.range (maxFd - 1)).find? fun n => (T n).isNone).map fun n => (n, Function.update T n (some f))

/-- `dup`: `newfdnum` is closed before the pages of `oldfdnum` are mapped there. -/
def dup (T : Fds) (oldfdnum newfdnum : Nat) : Option Fds :=
  (T oldfdnum).bind fun _ => (T.close newfdnum oldfdnum).map fun f =>
  Function.update (T.close newfdnum) newfdnum (some f)

end Fds

/-- The descriptor that a redirection is for. -/
def Tok.fd (t : Tok) : Nat := if t = .less then 0 else 1

/-- The last `open` of a redirection, `dup` and `close(fd)`.  What is opened to create and to truncate the file is
closed before. -/
def Fds.redirect (T : Fds) (t : Tok) (w : Word) : Option Fds :=
  (T.openFd (.named t w)).bind fun r => (r.2.dup r.1 t.fd).map fun T₂ => T₂.close r.1

/-! ## The shell with its descriptors -/

/-- The shell, the descriptors of its processes, and the programs spawned so far with theirs. -/
structure Wired where
  shell : Shell
  fds : Nat → Fds
  started : List (Cmd × Fds)

namespace Wired

/-- `fork` and `spawn`: the new process has `theirs`, the pages of descriptors being shared, and `p` has `ours`. -/
def forked (t : Wired) (p : Nat) (ours theirs : Fds) : Nat → Fds :=
  Function.update (Function.update t.fds t.shell.count theirs) p ours

/-- `runcmd` gets to `spawn`, and that succeeds. -/
def spawns (W : World) (pr : Proc) : Prop :=
  pr.argv.prog ≠ history ∧ pr.argv.prog ≠ jobs ∧ ¬((pr.argv.prog = kill ∨ pr.argv.prog = fg) ∧ pr.argv.length = 1) ∧
    W.spawns pr.argv = true

instance (W : World) (pr : Proc) : Decidable (spawns W pr) := by unfold spawns; infer_instance

/-- The descriptors after a step of `p`; the open of a redirection that succeeds has found one that is free.  The ends
of a pipe that have taken their place are closed before anything is spawned. -/
def tables (W : World) (t : Wired) (p : Nat) (pr : Proc) : Option (Nat → Fds) :=
  let T := t.fds p
  let redirect (tok : Tok) :=
    if pr.scan.next.nc = .word ∧ W.redirects tok pr.scan.next.np1
    then (T.redirect tok pr.scan.next.np1).map (Function.update t.fds p)
    else some t.fds
  match pr.pc with
  | .parse =>
    match pr.scan.nc with
    | .less => redirect .less
    | .greater => redirect .greater
    | .append => redirect .append
    | .bar =>
      if !W.pipes pr.argv then some t.fds
      else if !W.forks pr.argv then some (Function.update t.fds p (Function.update T 1 (some .pipe)))
      else some (t.forked p (Function.update T 1 (some .pipe)) (Function.update T 0 (some .pipe)))
    | .semi => some (if W.forks pr.argv then t.forked p T T else t.fds)
    | .or => some (if W.forks pr.argv then t.forked p T T else t.fds)
    | .and => some (if W.forks pr.argv then t.forked p T T else t.fds)
    | .amp => some (if W.forks pr.argv then t.forked p T T else t.fds)
    | _ => some t.fds
  | .args i => some (
    if (pr.argv[i]?.bind fun w => w.text.head?) = some '`' ∧ W.pipes pr.argv ∧ W.forks pr.argv
    then t.forked p T (Function.update T 1 (some .pipe)) else t.fds)
  -- `close_all`, here or in `exit`
  | .spawn => some (if spawns W pr then t.forked p (fun _ => none) T else Function.update t.fds p fun _ => none)
  | _ => some t.fds

/-- The programs spawned after a step. -/
def starts (W : World) (t : Wired) (p : Nat) (pr : Proc) : List (Cmd × Fds) :=
  if pr.pc = .spawn ∧ spawns W pr then t.started ++ [(pr.argv, t.fds p)] else t.started

def step (W : World) (t : Wired) (p : Nat) : Option Wired :=
  (t.shell.procs p).bind fun pr => (t.shell.step W p).bind fun s => (t.tables W p pr).map fun fds =>
    ⟨s, fds, t.starts W p pr⟩

/-- The shell has `T`, and has forked the process that runs the line. -/
def start (T : Fds) (line : List Char) : Wired := ⟨Shell.start line, fun _ => T, []⟩

/-- The states that are reached with the line. -/
def Reached (W : World) (T : Fds) (line : List Char) : Wired → Prop := Reach (· = start T line) (step W)

end Wired

/-! ## Lists of commands with redirections -/

inductive Redir where
  | less
  | greater
  | append
deriving DecidableEq, Repr

def Redir.tok : Redir → Tok
  | .less => .less
  | .greater => .greater
  | .append => .append

/-- A word of a command, or a redirection in it. -/
inductive Item where
  | word (w : Word)
  | redir (t : Redir) (w : Word)
deriving DecidableEq, Repr

namespace Item

def tokens : Item → List Token
  | word w => [.word w]
  | redir t w => [.sym t.tok, .word w]

def word? : Item → Option Word
  | word w => some w
  | redir _ _ => none

/-- The file that the item puts at a descriptor. -/
def file (n : Nat) : Item → Option File
  | word _ => none
  | redir t w => if t.tok.fd = n then some (.named t.tok w) else none

end Item

abbrev Command := List Item

namespace Command

def tokens (c : Command) : List Token := c.flatMap Item.tokens

/-- The words, without the redirections. -/
def words (c : Command) : Cmd := c.filterMap Item.word?

/-- **The file that a descriptor is redirected to**: the last one of its kind. -/
def target (c : Command) (n : Nat) : Option File := (c.filterMap (Item.file n)).getLast?

/-- What is left of a command when its first token is skipped. -/
def skipped : Command → Command
  | [] => []
  | .word _ :: c => c
  | .redir _ w :: c => .word w :: c

end Command

inductive Sep where
  | and
  | or
  | semi
  | amp
deriving DecidableEq, Repr

def Sep.tok : Sep → Tok
  | .and => .and
  | .or => .or
  | .semi => .semi
  | .amp => .amp

/-- The commands after the first, each with the operator before it. -/
abbrev Commands := List (Sep × Command)

def Commands.tokens : Commands → List Token
  | [] => []
  | (op, c) :: rest => .sym op.tok :: (c.tokens ++ tokens rest)

/-- Every command has a program, and no word of it is to be replaced by what it prints. -/
def Proper (cs : List Command) : Prop := ∀ d ∈ cs, d.words ≠ [] ∧ Plain (wordsOf d.tokens)

/-- **The line is the command `c` and then `rest`.** -/
structure IsLine (line : List Char) (c : Command) (rest : Commands) : Prop where
  reads : Reads (scanLine line) (c.tokens ++ rest.tokens)
  proper : Proper (c :: rest.map Prod.snd)

/-- Two commands of the line with the same program are one. -/
def Distinct (cs : List Command) : Prop := ∀ c ∈ cs, ∀ d ∈ cs, c.words.head? = d.words.head? → c = d

/-- **Every program has the files of its own command**, and what the shell has where that has none. -/
def Wired.Scoped (T : Fds) (cs : List Command) (t : Wired) : Prop :=
  ∀ x ∈ t.started, ∀ c ∈ cs, x.1.head? = c.words.head? → ∀ n < 2, x.2 n = (c.target n).or (T n)

/-! ## When no redirection gets out -/

/-- `c`, with the words `x` of the commands that case 'A' has skipped one token of, has what is its own at each
descriptor, after `past`. -/
def Keeps (past c x : Command) : Prop :=
  ∀ n < 2, x.target n = none ∧ (past.target n ≠ none → c.target n ≠ none)

instance (past c x : Command) : Decidable (Keeps past c x) := by unfold Keeps; infer_instance

/-- **No redirection gets out of its command**, from an operator on, with any status of any program: `past` has been
read before `c`, and `none` says that case 'O' is skipping.  A command that gets to `spawn` redirects itself what one
before it has redirected. -/
def Confined (past : Command) : Option (Command × Command) → Commands → Prop
  | none, [] => True
  | none, (.and, d) :: rest => Confined past (some (d, [])) rest
  | none, (.or, _) :: rest => Confined past none rest
  | none, (.semi, _) :: rest => Confined past none rest
  | none, (.amp, _) :: rest => Confined past none rest
  | some (c, x), [] => Runs (Command.words (c ++ x)) → Keeps past c x
  | some (c, x), (.semi, d) :: rest => (Runs (Command.words (c ++ x)) → Keeps past c x) ∧
      (¬Faults (Command.words (c ++ x)) → Confined (past ++ (c ++ x)) (some (d, [])) rest)
  | some (c, x), (.amp, d) :: rest => (Runs (Command.words (c ++ x)) → Keeps past c x) ∧
      ((Command.words (c ++ x)).length ≤ maxArgs → Confined (past ++ (c ++ x)) (some (d, [])) rest)
  | some (c, x), (.or, d) :: rest => Runs (Command.words (c ++ x)) →
      Keeps past c x ∧ Confined (past ++ (c ++ x)) none rest ∧ Confined (past ++ (c ++ x)) (some (d, [])) rest
  | some (c, x), (.and, d) :: rest => Runs (Command.words (c ++ x)) →
      Keeps past c x ∧ Confined (past ++ (c ++ x)) (some (d, [])) rest ∧ Confined past (some (c, x ++ d.skipped)) rest

/-! ## Tables -/

namespace Fds

theorem redirect_eq {T T' : Fds} {t : Redir} {w : Word} (h : ∀ n < 2, T n ≠ none) (hr : T.redirect t.tok w = some T') :
    T' = Function.update T t.tok.fd (some (.named t.tok w)) := by
  unfold redirect openFd at hr
  obtain ⟨⟨fd, T₁⟩, hopen, hr⟩ := Option.bind_eq_some_iff.1 hr
  obtain ⟨n, hn, he⟩ := Option.map_eq_some_iff.1 hopen
  cases he
  have hfree : T fd = none := by simpa using List.find?_some hn
  have hlt : t.tok.fd < 2 := by cases t <;> decide
  have hne : fd ≠ t.tok.fd := fun he => h _ hlt (he ▸ hfree)
  unfold dup close at hr
  simp only [Function.update_self, Option.bind_some, Function.update_of_ne hne, Option.map_some,
    Option.some.injEq] at hr
  rw [← hr]
  funext m
  by_cases hm : m = fd
  · rw [hm, Function.update_self, Function.update_of_ne hne, hfree]
  · rw [Function.update_of_ne hm]
    by_cases hmt : m = t.tok.fd
    · rw [hmt, Function.update_self, Function.update_self]
    · rw [Function.update_of_ne hmt, Function.update_of_ne hmt, Function.update_of_ne hm, Function.update_of_ne hmt]

end Fds

/-- The descriptors after the redirections of some items. -/
def Command.wiring (T : Fds) (c : Command) : Fds := fun n => (c.target n).or (T n)

namespace Command

variable {T : Fds} {c d : Command}

@[simp] theorem words_append (c d : Command) : words (c ++ d) = words c ++ words d := List.filterMap_append

@[simp] theorem words_word (w : Word) (c : Command) : words (.word w :: c) = w :: words c := rfl

@[simp] theorem words_redir (t : Redir) (w : Word) (c : Command) : words (.redir t w :: c) = words c := rfl

@[simp] theorem tokens_word (w : Word) (c : Command) : tokens (.word w :: c) = .word w :: tokens c := rfl

@[simp] theorem tokens_redir (t : Redir) (w : Word) (c : Command) :
    tokens (.redir t w :: c) = .sym t.tok :: .word w :: tokens c := rfl

theorem tokens_append (c d : Command) : tokens (c ++ d) = tokens c ++ tokens d := List.flatMap_append

@[simp] theorem target_nil (n : Nat) : target [] n = none := rfl

theorem target_append (c d : Command) (n : Nat) : target (c ++ d) n = (target d n).or (target c n) := by
  unfold target
  rw [List.filterMap_append, List.getLast?_append]

theorem wiring_append (T : Fds) (c d : Command) : wiring T (c ++ d) = wiring (wiring T c) d := by
  funext n
  simp only [wiring, target_append, Option.or_assoc]

theorem wiring_word (T : Fds) (w : Word) : wiring T [.word w] = T := rfl

theorem wiring_redir (T : Fds) (t : Redir) (w : Word) :
    wiring T [.redir t w] = Function.update T t.tok.fd (some (.named t.tok w)) := by
  funext n
  unfold wiring target
  by_cases hn : n = t.tok.fd
  · subst hn
    simp [Item.file]
  · rw [Function.update_of_ne hn]
    simp [Item.file, Ne.symm hn]

theorem wiring_open (h : ∀ n < 2, T n ≠ none) (c : Command) : ∀ n < 2, wiring T c n ≠ none := by
  intro n hn hc
  unfold wiring at hc
  exact h n hn (Option.or_eq_none_iff.1 hc).2

/-- **What `Keeps` keeps.** -/
theorem wiring_keeps {past x : Command} (h : Keeps past c x) :
    ∀ n < 2, wiring T (past ++ (c ++ x)) n = (c.target n).or (T n) := by
  intro n hn
  obtain ⟨hx, hpast⟩ := h n hn
  unfold wiring
  rw [target_append, target_append, hx, Option.none_or, Option.or_assoc]
  cases hc : c.target n with
  | some f => rfl
  | none =>
    have hp : past.target n = none := by
      by_contra hne
      exact hpast hne hc
    rw [hp]
    rfl

end Command

theorem mem_wordsOf {c : Command} {w : Word} (h : w ∈ c.words) : w ∈ wordsOf c.tokens := by
  induction c with
  | nil => cases h
  | cons x c ih =>
    cases x with
    | word v =>
      rw [Command.words_word] at h
      rw [Command.tokens_word]
      rcases List.mem_cons.1 h with rfl | h
      · exact List.mem_cons_self
      · exact List.mem_cons_of_mem _ (ih h)
    | redir r v =>
      rw [Command.words_redir] at h
      rw [Command.tokens_redir]
      exact List.mem_cons_of_mem _ (ih h)

theorem words_plain {c : Command} (h : Plain (wordsOf c.tokens)) : Plain c.words := fun w hw => h w (mem_wordsOf hw)

end Mos.Sh
