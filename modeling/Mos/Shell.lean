import Mos.Gettoken
import Mos.Lib.Run
/-!
# Shell — `parsecmd` and `runcmd` of `user/sh.c`, over all the processes they fork

The shell has read a line and forked the process that runs it.  A step is taken by one process: it reads a token of the
line (its own copy of it, from where its parent was at the fork), makes a system call that changes what the others see
(`fork`, `spawn`, the two halves of a message, its own end), has a reply of the file server in `close_all`, or goes on
after a wait.  A process that waits, or that offers a message nobody receives yet, has no step.
-/
namespace Mos.Sh

/-- The arguments of a command: `argv`. -/
abbrev Cmd := List Word

/-- `argv[0]` -/
def Cmd.prog (argv : Cmd) : List Char := (argv.head?.map Word.text).getD []

/-! ## What the shell does not decide -/

/-- How a program that was spawned ends. -/
inductive Ending where
  /-- `main` returns. -/
  | returns (res : Int)
  /-- It calls `exit`. -/
  | exits
  /-- It calls `user_panic`. -/
  | panics
deriving DecidableEq, Repr

/-- The outcomes of the library calls that the shell makes, each at the command it makes them for; the calls return. -/
structure World where
  /-- The `open`s and the `dup` of a redirection to this word. -/
  redirects : Tok → Word → Bool
  pipes : Cmd → Bool
  forks : Cmd → Bool
  spawns : Cmd → Bool
  ends : Cmd → Ending
  /-- What the backquoted argument `i` of `echo` prints, when it can be read. -/
  output : Cmd → Nat → Option (List Char)
  /-- The files that are open when a command has been spawned, each with the number of its pages. -/
  files : Cmd → List Nat
  /-- What the file server replies to `close_all`, with these requests left. -/
  replies : Cmd → List Nat → Int

/-! ## Processes -/

/-- Where a process is. -/
inductive Pc where
  /-- the loop of `parsecmd` -/
  | parse
  /-- `wait(my_env_id)` in case ';' -/
  | waitLeft (child : Nat)
  /-- `ipc_recv` in case 'O' -/
  | answerOr (child : Nat)
  /-- `ipc_recv` in case 'A' -/
  | answerAnd (child : Nat)
  /-- case 'O', after status 0 -/
  | skipOr
  /-- case 'A', after another status -/
  | skipAnd
  /-- `runcmd`, `parsecmd` has returned a command -/
  | run
  /-- the loop over the arguments of `echo` -/
  | args (i : Nat)
  /-- it reads what its backquoted argument prints -/
  | output (i : Nat)
  /-- from the comparison with `history` to `spawn` -/
  | spawn
  /-- `close_all` after `spawn`: `ipc_recv` of a reply, with so many requests left for each open file -/
  | closing (child : Nat) (todo : List Nat)
  /-- `ipc_recv` after `spawn` -/
  | status (child : Nat)
  /-- the same, when the status has been received as the last reply, and the reply is still to come -/
  | late (todo : List Nat)
  /-- when the status has been received as another reply: a request to the server, which has its reply to send -/
  | jammed
  /-- `if (flag_next_is_condition)`, it sends `res` on -/
  | forward (res : Int)
  /-- `wait(rightpipe)` -/
  | waitRight
  /-- `exit` -/
  | exit
  /-- a spawned program runs -/
  | main
  /-- `ipc_send(parent_id, res, 0, 0)` of `libmain` and `_user_panic` -/
  | report (res : Int)
  /-- destroyed -/
  | gone
  /-- It stored outside `argv`, or loaded through a null pointer. -/
  | fault
  /-- the shell itself: `wait(r)` -/
  | waitLine (child : Nat)
  /-- and its next line -/
  | prompt
deriving DecidableEq, Repr

structure Proc where
  parent : Nat
  pc : Pc
  scan : Scan
  argv : Cmd
  rightpipe : Option Nat
  /-- `flag_next_is_condition` -/
  cond : Bool
  /-- `flag_is_in_back` -/
  back : Bool

/-- A message: sender, receiver and value. -/
abbrev Sent := Nat × Nat × Int

structure Shell where
  procs : Nat → Option Proc
  count : Nat
  /-- The programs spawned so far. -/
  trace : List Cmd
  sent : List Sent

namespace Shell

def set (s : Shell) (p : Nat) (pr : Proc) : Shell := { s with procs := Function.update s.procs p (some pr) }

/-- `fork` and `spawn`: the process `pr` is made. -/
def add (s : Shell) (pr : Proc) : Shell := { s.set s.count pr with count := s.count + 1 }

/-- A program is spawned. -/
def log (s : Shell) (argv : Cmd) : Shell := { s with trace := s.trace ++ [argv] }

/-- A message is received. -/
def post (s : Shell) (m : Sent) : Shell := { s with sent := s.sent ++ [m] }

/-- `wait`: the environment is free, or it is another one. -/
def isGone (s : Shell) (p : Nat) : Bool := (s.procs p).all (fun pr => pr.pc == .gone)

/-- `main` has forked the process that runs the line. -/
def start (line : List Char) : Shell where
  procs p :=
    if p = 0 then some ⟨0, .waitLine 1, scanLine line, [], none, false, false⟩
    else if p = 1 then some ⟨0, .parse, scanLine line, [], none, false, false⟩
    else none
  count := 2
  trace := []
  sent := []

end Shell

/-! ## `parsecmd` -/

/-- `MAXARGS` -/
def maxArgs : Nat := 128

/-- `parsecmd` has returned `argc`; `runcmd` stores `argv[argc] = 0`. -/
def Proc.returned (pr : Proc) : Proc :=
  if pr.argv = [] then { pr with pc := .exit }
  else if maxArgs ≤ pr.argv.length then { pr with pc := .fault }
  else { pr with pc := .run }

/-- `return parsecmd(argv, rightpipe)` -/
def Proc.again (pr : Proc) : Proc := { pr with pc := .parse, argv := [] }

/-- A redirection: the word after it is read, and opened. -/
def Proc.redirect (W : World) (pr : Proc) (t : Tok) : Proc :=
  if pr.scan.nc = .word ∧ W.redirects t pr.scan.np1 then { pr with scan := pr.scan.next }
  else { pr with scan := pr.scan.next, pc := .exit }

/-- One turn of the loop, by the process `p`. -/
def Shell.parsecmd (W : World) (s : Shell) (p : Nat) (pr₀ : Proc) : Shell :=
  let t := pr₀.scan.np1
  let pr := { pr₀ with cond := false, back := false, scan := pr₀.scan.next }
  let child := { pr with parent := p }
  match pr₀.scan.nc with
  | .eof => s.set p pr.returned
  | .word =>
    if maxArgs ≤ pr.argv.length then s.set p { pr with pc := .exit } else s.set p { pr with argv := pr.argv ++ [t] }
  | .less => s.set p (pr.redirect W .less)
  | .greater => s.set p (pr.redirect W .greater)
  | .append => s.set p (pr.redirect W .append)
  | .bar =>
    if !W.pipes pr.argv then s.set p { pr with pc := .exit }
    -- a failed `fork` is not checked: there is nothing to wait for then
    else if !W.forks pr.argv then s.set p pr.returned
    else (s.add child.again).set p { pr with rightpipe := some s.count }.returned
  | .semi =>
    if !W.forks pr.argv then s.set p { pr with pc := .exit }
    else (s.add child.returned).set p { pr with pc := .waitLeft s.count }
  | .or =>
    if !W.forks pr.argv then s.set p { pr with pc := .exit }
    else (s.add { child with cond := true }.returned).set p { pr with pc := .answerOr s.count }
  | .and =>
    if !W.forks pr.argv then s.set p { pr with pc := .exit }
    else (s.add { child with cond := true }.returned).set p { pr with pc := .answerAnd s.count }
  | .amp =>
    if !W.forks pr.argv then s.set p { pr with pc := .exit }
    else (s.add { child with back := true }.returned).set p pr.again
  | .lparen => s.set p pr
  | .rparen => s.set p pr

/-- One turn of the loop of case 'O'. -/
def Proc.skipOr (pr : Proc) : Proc :=
  match pr.scan.nc with
  | .eof => { pr with scan := pr.scan.next, pc := .exit }
  | .and => { pr with scan := pr.scan.next }.again
  | _ => { pr with scan := pr.scan.next }

/-- Case 'A' has no loop: any other token leaves the `switch`. -/
def Proc.skipAnd (pr : Proc) : Proc :=
  match pr.scan.nc with
  | .eof => { pr with scan := pr.scan.next, pc := .exit }
  | .or => { pr with scan := pr.scan.next }.again
  | _ => { pr with scan := pr.scan.next, pc := .parse }

/-! ## `close_all` -/

/-- The requests of `file_close` for a file of `n` pages: each page is dirty, and the file is closed. -/
def requests (files : List Nat) : List Nat := files.map (· + 1)

/-- A request has the reply `r`: when it is an error, `file_close` returns without its others. -/
def closed (r : Int) : List Nat → List Nat
  | [] => []
  | n :: todo => if n ≤ 1 ∨ r < 0 then todo else (n - 1) :: todo

/-- `close_all`, from where so many requests are left. -/
def Pc.closes (child : Nat) (todo : List Nat) : Pc := if todo = [] then .status child else .closing child todo

/-! ## Messages -/

/-- `ipc_recv` returns `res` to the receiver; the one in `fsipc` does not look at who has sent it. -/
def Proc.receive (pr : Proc) (res : Int) : Option Proc :=
  match pr.pc with
  | .answerOr _ => some (if res = 0 then { pr with pc := .skipOr } else pr.again)
  | .answerAnd _ => some (if res = 0 then pr.again else { pr with pc := .skipAnd })
  | .status _ => some { pr with pc := .forward res }
  | .closing _ todo => some { pr with pc := if closed res todo = [] then .late todo else .jammed }
  | _ => none

/-- `ipc_send` to the parent.  While the parent does not receive, the sender yields and tries again; when the parent is
gone, `user_assert` fails, and `_user_panic` has the same send to make. -/
def Shell.ipcSend (s : Shell) (p : Nat) (pr : Proc) (res : Int) (after : Pc) : Option Shell :=
  ((s.procs pr.parent).bind (·.receive res)).map fun q =>
    ((s.set pr.parent q).set p { pr with pc := after }).post (p, pr.parent, res)

/-! ## `runcmd` -/

/-- `argv[i]` without its double quote: every character moves one place down. -/
def stripQuote (argv : Cmd) (i : Nat) : Cmd := argv.modify i fun w => { w with text := w.text.tail }

/-- `argv[i] = outbuf`, which every earlier backquoted argument points to as well. -/
def putOutput (argv : Cmd) (i : Nat) (out : List Char) : Cmd :=
  (argv.set i ⟨.outbuf, out⟩).map fun w => if w.place = .outbuf then { w with text := out } else w

/-- One turn of the loop over the arguments of `echo`. -/
def Shell.echoArgs (W : World) (s : Shell) (p : Nat) (pr : Proc) (i : Nat) : Shell :=
  match pr.argv[i]? with
  | none => s.set p { pr with pc := .spawn }
  | some w =>
    if w.text.head? = some '"' then s.set p { pr with pc := .args (i + 1), argv := stripQuote pr.argv i }
    else if w.text.head? = some '`' then
      if !W.pipes pr.argv || !W.forks pr.argv then s.set p { pr with pc := .exit }
      -- the child runs the text, after a blank in place of the backquote, in a `runcmd` of its own
      else (s.add { pr with
          parent := p, pc := .parse, scan := scanLine (' ' :: w.text.tail), argv := [], rightpipe := none }).set p
        { pr with pc := .output i }
    else s.set p { pr with pc := .args (i + 1) }

def history : List Char := ['h', 'i', 's', 't', 'o', 'r', 'y']
def jobs : List Char := ['j', 'o', 'b', 's']
def kill : List Char := ['k', 'i', 'l', 'l']
def fg : List Char := ['f', 'g']
def echo : List Char := ['e', 'c', 'h', 'o']

/-- The rest of `runcmd`, up to `close_all`.  The job that `kill` or `fg` names is one of an earlier line; `fg` gets to
`spawn` when that job has ended.  Without a program that is spawned, nobody else has a message to send while the files
are closed. -/
def Shell.runcmd (W : World) (s : Shell) (p : Nat) (pr : Proc) : Shell :=
  if pr.argv.prog = history then s.set p { pr with pc := .exit }
  else if pr.argv.prog = jobs then s.set p { pr with pc := .waitRight }
  else if (pr.argv.prog = kill ∨ pr.argv.prog = fg) ∧ pr.argv.length = 1 then s.set p { pr with pc := .fault }
  else if W.spawns pr.argv then
    let program : Proc := { pr with parent := p, pc := .main, cond := false, back := false }
    ((s.add program).set p { pr with pc := .closes s.count (requests (W.files pr.argv)) }).log pr.argv
  else s.set p { pr with pc := .waitRight }

/-! ## Steps -/

def Shell.step (W : World) (s : Shell) (p : Nat) : Option Shell :=
  (s.procs p).bind fun pr =>
    match pr.pc with
    | .parse => some (s.parsecmd W p pr)
    | .waitLeft c => if s.isGone c then some (s.set p pr.again) else none
    | .answerOr _ => none
    | .answerAnd _ => none
    | .skipOr => some (s.set p pr.skipOr)
    | .skipAnd => some (s.set p pr.skipAnd)
    | .run => some (s.set p { pr with pc := if pr.argv.prog = echo then .args 1 else .spawn })
    | .args i => some (s.echoArgs W p pr i)
    -- the pipe may be read to its end as soon as nobody holds its other side; when that is, is left open
    | .output i => some (match W.output pr.argv i with
      | none => s.set p { pr with pc := .exit }
      | some out => s.set p { pr with pc := .args (i + 1), argv := putOutput pr.argv i out })
    | .spawn => some (s.runcmd W p pr)
    | .closing c todo => some (s.set p { pr with pc := .closes c (closed (W.replies pr.argv todo) todo) })
    | .status _ => none
    | .late todo => some (s.set p { pr with pc := .forward (W.replies pr.argv todo) })
    | .jammed => none
    | .forward res => if pr.cond then s.ipcSend p pr res .waitRight else some (s.set p { pr with pc := .waitRight })
    | .waitRight =>
      if pr.rightpipe.all s.isGone then some (s.set p { pr with pc := .exit }) else none
    | .exit => some (s.set p { pr with pc := .gone })
    | .main => some (s.set p { pr with pc := match W.ends pr.argv with
      | .returns res => .report res
      | .exits => .exit
      | .panics => .report (-1) })
    | .report res => s.ipcSend p pr res .exit
    | .gone => none
    | .fault => none
    | .waitLine c => if s.isGone c then some (s.set p { pr with pc := .prompt }) else none
    | .prompt => none

/-- The states of the shell that runs `line`. -/
def Shell.Reached (W : World) (line : List Char) : Shell → Prop := Reach (· = Shell.start line) (Shell.step W)

/-- The states that follow `s`. -/
def Shell.After (W : World) (s : Shell) : Shell → Prop := Reach (· = s) (Shell.step W)

end Mos.Sh
