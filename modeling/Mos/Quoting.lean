import Mos.Tokenizer
import Mos.StatusDelivery
/-!
# Quoting — the arguments of a simple command with quoted strings

A quoted string is a token from its opening quote on.  The loop of `runcmd` over the arguments of `echo` drops the
quote; for every other program it is passed to `spawn` with the rest.
-/
namespace Mos.Sh

/-! ## What is meant -/

namespace Lexeme

/-- A string between double quotes. -/
def isString (t : Lexeme) : Bool := t.text.head? == some '"'

/-- **The argument that a word or a string stands for.** -/
def argument (t : Lexeme) : List Char := if t.isString then t.text.tail else t.text

/-- The word that `gettoken` returns. -/
def word (t : Lexeme) : Word := ⟨.line t.start, t.text⟩

end Lexeme

/-- A line that is one command, of words and double-quoted strings. -/
structure SimpleCommand (line : List Char) (ts : List Lexeme) : Prop where
  lexes : Lexemes 0 line ts true
  nonempty : ts ≠ []
  plain : ∀ t ∈ ts, t.tok = .word ∧ t.text.head? ≠ some '`'

/-- **Whatever is spawned gets the arguments that are meant.** -/
def ArgumentsKept (line : List Char) (ts : List Lexeme) : Prop :=
  ∀ (W : World) (s : Shell), Shell.Reached W line s → ∀ argv ∈ s.trace, argv.map Word.text = ts.map Lexeme.argument

/-- The program, as it is written. -/
def program (ts : List Lexeme) : List Char := Cmd.prog (ts.map Lexeme.word)

/-- **When the quotes are dropped**: there are none, or they are arguments of `echo`; or nothing is spawned. -/
def QuotesDropped (ts : List Lexeme) : Prop :=
  (∀ t ∈ ts, t.isString = false) ∨ program ts = echo ∨ maxArgs ≤ ts.length ∨ program ts = history ∨ program ts = jobs

/-! ## Lexemes are the tokens that are read -/

theorem gettoken_skip {s : List Char} : ∀ {w : List Char} {pos : Nat}, (∀ c ∈ w, isSpace c = true) →
    _gettoken pos (w ++ s) = _gettoken (pos + w.length) s
  | [], _, _ => rfl
  | c :: w, pos, hw => by
    have hlen : pos + (c :: w).length = pos + 1 + w.length := by
      rw [List.length_cons]
      omega
    show (if isSpace c = true then _gettoken (pos + 1) (w ++ s) else _) = _
    rw [if_pos (hw c List.mem_cons_self), gettoken_skip fun x hx => hw x (List.mem_cons_of_mem _ hx), hlen]

theorem gettoken_word {text shown rest : List Char} {tok : Tok} (pos : Nat) (h : Munch tok text shown rest)
    (hw : tok = .word) :
    _gettoken pos (text ++ rest) = ⟨.word, ⟨.line pos, shown⟩, pos + text.length, rest⟩ := by
  cases h with
  | quoted q body rest hq hbody =>
    have hspan : (body ++ q :: rest).takeWhile (· != q) = body ∧
        (body ++ q :: rest).dropWhile (· != q) = q :: rest := by
      have hall : ∀ c ∈ body, (c != q) = true := fun c hc => bne_iff_ne.2 fun h => hbody (h ▸ hc)
      rw [List.takeWhile_append_of_pos hall, List.dropWhile_append_of_pos hall]
      simp
    have hlen : pos + (q :: (body ++ [q])).length = pos + body.length + 2 := by simp [Nat.add_assoc]
    rw [List.cons_append, List.append_assoc, List.singleton_append, hlen]
    rcases Buffer.isQuote_cases hq with rfl | rfl
    · show quoted '"' pos (body ++ '"' :: rest) = _
      unfold quoted
      rw [hspan.1, hspan.2]
      rfl
    · show quoted '`' pos (body ++ '`' :: rest) = _
      unfold quoted
      rw [hspan.1, hspan.2]
      rfl
  | double c rest hd => rcases Buffer.isDouble_cases hd with rfl | rfl | rfl <;> cases hw
  | single c rest hs hd => exact absurd hw (Buffer.isSymbol_plain hs).2.2.2
  | word c w rest hc hq hword hstop =>
    obtain ⟨hspace, hsym⟩ := Buffer.inWord_plain hc
    have hne : ∀ q, isQuote q = true → c ≠ q := fun q hiq h => by rw [h, hiq] at hq; cases hq
    have hdbl : ∀ d, isSymbol d = true → c ≠ d := fun d hd h => by rw [h, hd] at hsym; cases hsym
    have hspan : (w ++ rest).takeWhile inWord = w ∧ (w ++ rest).dropWhile inWord = rest := by
      rw [List.takeWhile_append_of_pos hword, List.dropWhile_append_of_pos hword]
      cases rest with
      | nil => exact ⟨by simp, rfl⟩
      | cons d rest =>
        exact ⟨by rw [List.takeWhile_cons_of_neg (by rw [hstop d rfl]; exact Bool.false_ne_true), List.append_nil],
          List.dropWhile_cons_of_neg (by rw [hstop d rfl]; exact Bool.false_ne_true)⟩
    have hlen : pos + (c :: w).length = pos + 1 + w.length := by
      rw [List.length_cons]
      omega
    rw [List.cons_append]
    unfold _gettoken
    rw [if_neg (by rw [hspace]; exact Bool.false_ne_true), if_neg (hne _ rfl), if_neg (hne _ rfl),
      if_neg fun h => hdbl _ rfl h.1,
      if_neg fun h => hdbl _ rfl h.1, if_neg fun h => hdbl _ rfl h.1, if_neg (by rw [hsym]; exact Bool.false_ne_true),
        hspan.1, hspan.2, hlen]

/-- **The words of a command are read one after the other.** -/
theorem reads_words :
    ∀ {ts : List Lexeme} {pos : Nat} {s : List Char}, Lexemes pos s ts true → (∀ t ∈ ts, t.tok = .word) →
    Reads (_gettoken pos s) (ts.map fun t => .word t.word)
  | [], pos, s, h, _ => by
    cases h with
    | done _ w hw =>
      have h : _gettoken pos (s ++ []) = _gettoken (pos + s.length) [] := gettoken_skip hw
      rw [List.append_nil] at h
      rw [h]
      rfl
  | t :: ts, pos, s, h, hts => by
    cases h with
    | token _ w tok text shown rest ts _ hw hm hrest =>
      have hword : tok = .word := hts _ List.mem_cons_self
      rw [gettoken_skip hw, gettoken_word _ hm hword]
      exact ⟨Tok.noConfusion, if_pos rfl, reads_words hrest fun x hx => hts x (List.mem_cons_of_mem _ hx)⟩

/-! ## The arguments -/

/-- `argv[j]` when the loop over the arguments is at `i`. -/
def argAt (i j : Nat) (t : Lexeme) : Word := if 1 ≤ j ∧ j < i then ⟨.line t.start, t.argument⟩ else t.word

/-- `argv` when the loop is at `i`. -/
def argvAt (ts : List Lexeme) (i : Nat) : Cmd := ts.mapIdx (argAt i)

theorem getElem?_argvAt (ts : List Lexeme) (i j : Nat) : (argvAt ts i)[j]? = ts[j]?.map (argAt i j) :=
  List.getElem?_mapIdx

theorem argAt_ahead {i j : Nat} (h : ¬(1 ≤ j ∧ j < i)) (t : Lexeme) : argAt i j t = t.word := if_neg h

theorem argAt_behind {i j : Nat} (h1 : 1 ≤ j) (h : j < i) (t : Lexeme) : argAt i j t = ⟨.line t.start, t.argument⟩ :=
  if_pos ⟨h1, h⟩

theorem argAt_other {i j : Nat} (h : j ≠ i) (t : Lexeme) : argAt (i + 1) j t = argAt i j t := by
  unfold argAt
  by_cases hj : 1 ≤ j ∧ j < i
  · rw [if_pos hj, if_pos ⟨hj.1, Nat.lt_succ_of_lt hj.2⟩]
  · rw [if_neg hj, if_neg (by omega)]

theorem argvAt_one (ts : List Lexeme) : argvAt ts 1 = ts.map Lexeme.word := by
  refine List.ext_getElem? fun j => ?_
  rw [getElem?_argvAt, List.getElem?_map]
  exact congrArg (fun f => Option.map f _) (funext fun t => argAt_ahead (by omega) t)

theorem stripQuote_argvAt {ts : List Lexeme} {i : Nat} {t : Lexeme} (hi : ts[i]? = some t) (h1 : 1 ≤ i)
    (hs : t.isString = true) :
    stripQuote (argvAt ts i) i = argvAt ts (i + 1) := by
  refine List.ext_getElem? fun j => ?_
  unfold stripQuote
  rw [List.getElem?_modify, getElem?_argvAt, getElem?_argvAt]
  by_cases hij : i = j
  · subst hij
    rw [hi, Option.map_some, Option.map_some, argAt_ahead (by omega), argAt_behind h1 (Nat.lt_succ_self _)]
    unfold Lexeme.argument
    rw [if_pos hs]
    exact congrArg some (if_pos rfl)
  · cases ts[j]? with
    | none => rfl
    | some t => exact congrArg some ((if_neg hij).trans (argAt_other (Ne.symm hij) t).symm)

theorem argvAt_succ {ts : List Lexeme} {i : Nat} {t : Lexeme} (hi : ts[i]? = some t) (hs : t.isString = false) :
    argvAt ts i = argvAt ts (i + 1) := by
  refine List.ext_getElem? fun j => ?_
  rw [getElem?_argvAt, getElem?_argvAt]
  by_cases hij : j = i
  · subst hij
    rw [hi, Option.map_some, Option.map_some, argAt_ahead (by omega)]
    unfold argAt Lexeme.argument
    rw [hs]
    split <;> rfl
  · cases ts[j]? with
    | none => rfl
    | some t => exact congrArg some (argAt_other hij t).symm

/-- **Behind the loop** the arguments are those that are meant, when the program is no string. -/
theorem argvAt_end {ts : List Lexeme} {i : Nat} (hi : ts.length ≤ i) (hp : ∀ t, ts[0]? = some t → t.isString = false) :
    (argvAt ts i).map Word.text = ts.map Lexeme.argument := by
  refine List.ext_getElem? fun j => ?_
  rw [List.getElem?_map, getElem?_argvAt, List.getElem?_map]
  cases hj : ts[j]? with
  | none => rfl
  | some t =>
    refine congrArg some ?_
    have hlt : j < ts.length := (List.getElem?_eq_some_iff.1 hj).1
    by_cases h1 : 1 ≤ j
    · rw [argAt_behind h1 (by omega)]
    · obtain rfl : j = 0 := by omega
      have hs := hp t hj
      rw [argAt_ahead (by omega)]
      unfold Lexeme.argument
      rw [hs]
      rfl

theorem words_meant {ts : List Lexeme} (h : ∀ t ∈ ts, t.isString = false) :
    (ts.map Lexeme.word).map Word.text = ts.map Lexeme.argument := by
  rw [List.map_map]
  refine List.map_congr_left fun t ht => ?_
  unfold Lexeme.argument
  rw [Function.comp_apply, h t ht]
  rfl

theorem string_not_meant {ts : List Lexeme} {t : Lexeme} (ht : t ∈ ts) (hs : t.isString = true) :
    (ts.map Lexeme.word).map Word.text ≠ ts.map Lexeme.argument := by
  rw [List.map_map]
  intro h
  have heq : t.text = t.argument := List.map_inj_left.1 h t ht
  have hlen := congrArg List.length heq
  unfold Lexeme.argument at hlen
  unfold Lexeme.isString at hs
  rw [if_pos (show t.isString = true from hs), List.length_tail] at hlen
  have hnil : t.text = [] := List.length_eq_zero_iff.1 (by omega)
  rw [hnil] at hs
  cases hs

/-! ## Steps -/

/-- Where a process is that spawns nothing any more. -/
def Pc.quiet : Pc → Bool
  | .closing _ _ | .status _ | .late _ | .jammed | .forward _ | .waitRight | .exit | .main | .report
      _ | .gone | .fault | .waitLine _ | .prompt => true
  | _ => false

theorem Pc.closes_quiet (c : Nat) (todo : List Nat) : (Pc.closes c todo).quiet = true := by
  unfold Pc.closes
  split <;> rfl

/-- **The process of the line, until it gets to `spawn`.** -/
inductive Toward (ts : List Lexeme) (pr : Proc) : Prop where
  | parse (read rest : List Lexeme) : ts = read ++ rest → pr.pc = .parse → pr.argv = read.map Lexeme.word →
      Reads pr.scan (rest.map fun t => .word t.word) → Toward ts pr
  | run : pr.pc = .run → ts.length < maxArgs → pr.argv = ts.map Lexeme.word → Toward ts pr
  | args (i : Nat) : pr.pc = .args i → 1 ≤ i → ts.length < maxArgs → program ts = echo →
      pr.argv = argvAt ts i → Toward ts pr
  | spawn : pr.pc = .spawn → ts.length < maxArgs → (pr.argv.map Word.text = ts.map Lexeme.argument ∨
      pr.argv = ts.map Lexeme.word ∧ program ts ≠ echo) → Toward ts pr

/-- Nothing is spawned yet, or it had the arguments that are meant. -/
structure Meant (ts : List Lexeme) (s : Shell) : Prop where
  procs : ∀ p pr, s.procs p = some pr → pr.pc.quiet = true ∨ (p = 1 ∧ s.trace = [] ∧ Toward ts pr)
  trace : ∀ argv ∈ s.trace, argv.map Word.text = ts.map Lexeme.argument

variable {W : World} {ts : List Lexeme} {s s' : Shell} {p : Nat} {pr pr' : Proc}

theorem Meant.set (h : Meant ts s) (hpr : pr'.pc.quiet = true ∨ (p = 1 ∧ s.trace = [] ∧ Toward ts pr')) :
    Meant ts (s.set p pr') := by
  refine ⟨fun q x hx => ?_, h.trace⟩
  by_cases hq : q = p
  · subst hq
    rw [Shell.set_same] at hx
    cases hx
    exact hpr
  · rw [Shell.set_ne _ _ hq] at hx
    exact h.procs q x hx

theorem Proc.receive_quiet {q q' : Proc} {res : Int} (h : q.pc.quiet = true ∨ Toward ts q)
    (hr : q.receive res = some q') : q'.pc.quiet = true := by
  unfold Proc.receive at hr
  rcases h with h | h
  · split at hr
    · rename_i hpc
      rw [hpc] at h
      cases h
    · rename_i hpc
      rw [hpc] at h
      cases h
    · cases hr
      rfl
    · cases hr
      dsimp only
      split <;> rfl
    · cases hr
  · cases h with
    | parse _ _ _ hpc _ _ => rw [hpc] at hr; cases hr
    | run hpc _ _ => rw [hpc] at hr; cases hr
    | args i hpc _ _ _ _ => rw [hpc] at hr; cases hr
    | spawn hpc _ _ => rw [hpc] at hr; cases hr

theorem Meant.send (h : Meant ts s) {res : Int} {after : Pc} (ha : after.quiet = true)
    (hs : s.ipcSend p pr res after = some s') :
    Meant ts s' := by
  unfold Shell.ipcSend at hs
  obtain ⟨q', hq', rfl⟩ := Option.map_eq_some_iff.1 hs
  obtain ⟨q, hq, hrecv⟩ := Option.bind_eq_some_iff.1 hq'
  have hquiet : q'.pc.quiet = true := Proc.receive_quiet ((h.procs _ _ hq).imp_right fun h => h.2.2) hrecv
  have hparent : Meant ts (s.set pr.parent q') := h.set (.inl hquiet)
  have h' : Meant ts ((s.set pr.parent q').set p { pr with pc := after }) := hparent.set (.inl ha)
  exact ⟨h'.procs, h'.trace⟩

/-- **A process that is past `spawn`.** -/
theorem Meant.quiet_step (h : Meant ts s) (hpr : s.procs p = some pr) (hq : pr.pc.quiet = true)
    (hs : s.step W p = some s') : Meant ts s' := by
  unfold Shell.step at hs
  rw [hpr, Option.bind_some] at hs
  cases hpc : pr.pc with
  | closing c todo =>
    rw [hpc] at hs
    cases hs
    exact h.set (.inl (Pc.closes_quiet _ _))
  | status c => rw [hpc] at hs; cases hs
  | late todo =>
    rw [hpc] at hs
    cases hs
    exact h.set (.inl rfl)
  | jammed => rw [hpc] at hs; cases hs
  | forward res =>
    rw [hpc] at hs
    dsimp only at hs
    split at hs
    · exact h.send rfl hs
    · cases hs
      exact h.set (.inl rfl)
  | waitRight =>
    rw [hpc] at hs
    dsimp only at hs
    split at hs
    · cases hs
      exact h.set (.inl rfl)
    · cases hs
  | exit =>
    rw [hpc] at hs
    cases hs
    exact h.set (.inl rfl)
  | main =>
    rw [hpc] at hs
    cases hs
    refine h.set (.inl ?_)
    dsimp only
    cases W.ends pr.argv <;> rfl
  | report res =>
    rw [hpc] at hs
    exact h.send rfl hs
  | gone => rw [hpc] at hs; cases hs
  | fault => rw [hpc] at hs; cases hs
  | waitLine c =>
    rw [hpc] at hs
    dsimp only at hs
    split at hs
    · cases hs
      exact h.set (.inl rfl)
    · cases hs
  | prompt => rw [hpc] at hs; cases hs
  | _ =>
    rw [hpc] at hq
    cases hq

/-- **One turn of `parsecmd`**: a word is read, or the command is there. -/
theorem parse_step (hts : ts ≠ []) (h : Toward ts pr) (hpc : pr.pc = .parse) :
    ∃ pr', s.parsecmd W p pr = s.set p pr' ∧ (pr'.pc.quiet = true ∧ maxArgs ≤ ts.length ∨ Toward ts pr') := by
  cases h with
  | parse read rest hsplit _ hargv hreads =>
    unfold Shell.parsecmd
    cases rest with
    | nil =>
      have hnc : pr.scan.nc = .eof := hreads
      rw [hnc]
      refine ⟨_, rfl, ?_⟩
      rw [List.append_nil] at hsplit
      subst hsplit
      unfold Proc.returned
      dsimp only
      rw [if_neg (by rw [hargv]; simpa using hts)]
      by_cases hmax : maxArgs ≤ pr.argv.length
      · rw [if_pos hmax]
        rw [hargv, List.length_map] at hmax
        exact .inl ⟨rfl, hmax⟩
      · rw [if_neg hmax]
        rw [hargv, List.length_map] at hmax
        exact .inr (.run rfl (Nat.not_le.1 hmax) hargv)
    | cons t rest =>
      obtain ⟨hnc, hnp, hnext⟩ := hreads.word
      rw [hnc]
      dsimp only
      by_cases hmax : maxArgs ≤ pr.argv.length
      · rw [if_pos hmax]
        refine ⟨_, rfl, .inl ⟨rfl, ?_⟩⟩
        rw [hargv, List.length_map] at hmax
        rw [hsplit, List.length_append]
        omega
      · rw [if_neg hmax]
        refine ⟨_, rfl, .inr (.parse (read ++ [t]) rest (by rw [hsplit]; simp) hpc ?_ hnext)⟩
        rw [List.map_append, ← hargv, hnp]
        rfl
  | run h _ _ => rw [hpc] at h; cases h
  | args i h _ _ _ _ => rw [hpc] at h; cases h
  | spawn h _ _ => rw [hpc] at h; cases h

theorem prog_argv {argv : Cmd} (h : argv = ts.map Lexeme.word) : argv.prog = program ts := by
  rw [h]
  rfl

theorem run_step (h : Toward ts pr) (hpc : pr.pc = .run) :
    Toward ts { pr with pc := if pr.argv.prog = echo then .args 1 else .spawn } := by
  cases h with
  | run _ hlen hargv =>
    rw [prog_argv hargv]
    by_cases he : program ts = echo
    · rw [if_pos he]
      exact .args 1 rfl (Nat.le_refl 1) hlen he (by rw [argvAt_one]; exact hargv)
    · rw [if_neg he]
      exact .spawn rfl hlen (.inr ⟨hargv, he⟩)
  | parse _ _ _ h _ _ => rw [hpc] at h; cases h
  | args i h _ _ _ _ => rw [hpc] at h; cases h
  | spawn h _ _ => rw [hpc] at h; cases h

theorem echo_plain (he : program ts = echo) : ∀ t, ts[0]? = some t → t.isString = false := by
  intro t ht
  cases ts with
  | nil => cases ht
  | cons x xs =>
    obtain rfl : x = t := Option.some.inj ht
    have hx : x.text = echo := he
    unfold Lexeme.isString
    rw [hx]
    rfl

theorem args_step (hplain : ∀ t ∈ ts, t.text.head? ≠ some '`') (h : Toward ts pr) {i : Nat} (hpc : pr.pc = .args i) :
    ∃ pr', s.echoArgs W p pr i = s.set p pr' ∧ Toward ts pr' := by
  cases h with
  | args j hj h1 hlen he hargv =>
    obtain rfl : j = i := by rw [hj] at hpc; exact Pc.args.inj hpc
    unfold Shell.echoArgs
    rw [hargv, getElem?_argvAt]
    cases hi : ts[j]? with
    | none =>
      have hend : ts.length ≤ j := List.getElem?_eq_none_iff.1 hi
      exact ⟨_, rfl, .spawn rfl hlen (.inl (argvAt_end hend (echo_plain he)))⟩
    | some t =>
      have hmem : t ∈ ts := List.mem_of_getElem? hi
      rw [Option.map_some, argAt_ahead (by omega)]
      dsimp only
      by_cases hs : t.isString = true
      · have hq : t.word.text.head? = some '"' := beq_iff_eq.1 hs
        rw [if_pos hq]
        exact ⟨_, rfl, .args (j + 1) rfl (by omega) hlen he (stripQuote_argvAt hi h1 hs)⟩
      · have hq : ¬t.word.text.head? = some '"' := fun h => hs (beq_iff_eq.2 h)
        have hb : ¬t.word.text.head? = some '`' := hplain t hmem
        rw [if_neg hq, if_neg hb]
        exact ⟨_, rfl, .args (j + 1) rfl (by omega) hlen he (argvAt_succ hi (Bool.eq_false_iff.2 hs))⟩
  | parse _ _ _ h _ _ => rw [hpc] at h; cases h
  | run h _ _ => rw [hpc] at h; cases h
  | spawn h _ _ => rw [hpc] at h; cases h

/-- **`spawn`**: what it gets is what is meant. -/
theorem spawn_step (h : Meant ts s) (hph : Toward ts pr) (hpc : pr.pc = .spawn) (htr : s.trace = [])
    (hd : QuotesDropped ts) : Meant ts (s.runcmd W 1 pr) := by
  cases hph with
  | spawn _ hlen hargs =>
    unfold Shell.runcmd
    by_cases hh : pr.argv.prog = history
    · rw [if_pos hh]
      exact h.set (.inl rfl)
    · rw [if_neg hh]
      by_cases hj : pr.argv.prog = jobs
      · rw [if_pos hj]
        exact h.set (.inl rfl)
      · rw [if_neg hj]
        by_cases hk : (pr.argv.prog = kill ∨ pr.argv.prog = fg) ∧ pr.argv.length = 1
        · rw [if_pos hk]
          exact h.set (.inl rfl)
        · rw [if_neg hk]
          by_cases hw : W.spawns pr.argv = true
          · rw [if_pos hw]
            have hmeant : pr.argv.map Word.text = ts.map Lexeme.argument := by
              rcases hargs with hargs | ⟨hargs, hne⟩
              · exact hargs
              · rw [prog_argv hargs] at hh hj
                rcases hd with hno | he | hmax | hh' | hj'
                · rw [hargs]
                  exact words_meant hno
                · exact absurd he hne
                · omega
                · exact absurd hh' hh
                · exact absurd hj' hj
            refine ⟨fun q x hx => .inl ?_, fun argv hm => ?_⟩
            · show x.pc.quiet = true
              rw [Shell.log_procs] at hx
              by_cases hq : q = 1
              · subst hq
                rw [Shell.set_same] at hx
                cases hx
                exact Pc.closes_quiet _ _
              · rw [Shell.set_ne _ _ hq] at hx
                by_cases hc : q = s.count
                · subst hc
                  rw [Shell.add_same] at hx
                  cases hx
                  rfl
                · rw [Shell.add_ne _ _ hc] at hx
                  exact (h.procs q x hx).resolve_right fun hx => hq hx.1
            · have hm : argv ∈ s.trace ++ [pr.argv] := hm
              rw [htr, List.nil_append] at hm
              rw [List.mem_singleton.1 hm]
              exact hmeant
          · rw [if_neg hw]
            exact h.set (.inl rfl)
  | parse _ _ _ h _ _ => rw [hpc] at h; cases h
  | run h _ _ => rw [hpc] at h; cases h
  | args i h _ _ _ _ => rw [hpc] at h; cases h

theorem Meant.step (hts : ts ≠ []) (hplain : ∀ t ∈ ts, t.text.head? ≠ some '`') (hd : QuotesDropped ts) (h : Meant ts s)
    (hs : s.step W p = some s') : Meant ts s' := by
  obtain ⟨pr, hpr, hrun⟩ := Option.bind_eq_some_iff.1 hs
  rcases h.procs p pr hpr with hq | ⟨rfl, htr, hph⟩
  · exact h.quiet_step hpr hq hs
  · cases hpc : pr.pc with
    | parse =>
      rw [hpc] at hrun
      cases hrun
      obtain ⟨pr', heq, hpr'⟩ := parse_step (W := W) (s := s) (p := 1) hts hph hpc
      rw [heq]
      exact h.set (hpr'.imp And.left fun hx => ⟨rfl, htr, hx⟩)
    | run =>
      rw [hpc] at hrun
      cases hrun
      exact h.set (.inr ⟨rfl, htr, run_step hph hpc⟩)
    | args i =>
      rw [hpc] at hrun
      cases hrun
      obtain ⟨pr', heq, hpr'⟩ := args_step (W := W) (s := s) (p := 1) hplain hph hpc
      rw [heq]
      exact h.set (.inr ⟨rfl, htr, hpr'⟩)
    | spawn =>
      rw [hpc] at hrun
      cases hrun
      exact spawn_step h hph hpc htr hd
    | _ =>
      cases hph with
      | parse _ _ _ h _ _ => rw [hpc] at h; cases h
      | run h _ _ => rw [hpc] at h; cases h
      | args i h _ _ _ _ => rw [hpc] at h; cases h
      | spawn h _ _ => rw [hpc] at h; cases h

/-- The process that runs the line. -/
def lineProc (line : List Char) : Proc := ⟨0, .parse, scanLine line, [], none, false, false⟩

theorem start_procs {line : List Char} {q : Nat} {x : Proc} (h : (Shell.start line).procs q = some x) :
    q = 0 ∧ x = { lineProc line with pc := .waitLine 1 } ∨ q = 1 ∧ x = lineProc line := by
  have h : (if q = 0 then some { lineProc line with pc := .waitLine 1 } else if q = 1 then some (lineProc line)
    else none) = some x := h
  by_cases h0 : q = 0
  · rw [if_pos h0] at h
    exact .inl ⟨h0, (Option.some.inj h).symm⟩
  · rw [if_neg h0] at h
    by_cases h1 : q = 1
    · rw [if_pos h1] at h
      exact .inr ⟨h1, (Option.some.inj h).symm⟩
    · rw [if_neg h1] at h
      cases h

theorem SimpleCommand.phase {line : List Char} (h : SimpleCommand line ts) : Toward ts (lineProc line) :=
  .parse [] ts rfl rfl rfl (reads_words h.lexes fun t ht => (h.plain t ht).1)

theorem SimpleCommand.start {line : List Char} (h : SimpleCommand line ts) : Meant ts (Shell.start line) := by
  refine ⟨fun q x hx => ?_, fun argv hm => absurd hm List.not_mem_nil⟩
  rcases start_procs hx with ⟨-, rfl⟩ | ⟨rfl, rfl⟩
  · exact .inl rfl
  · exact .inr ⟨rfl, rfl, h.phase⟩

/-! ## A run to `spawn` -/

theorem parsecmd_eof (h : pr.scan.nc = .eof) :
    s.parsecmd W p pr = s.set p { pr with cond := false, back := false, scan := pr.scan.next }.returned := by
  unfold Shell.parsecmd
  rw [h]

theorem parsecmd_word (h : pr.scan.nc = .word) (hmax : ¬maxArgs ≤ pr.argv.length) : s.parsecmd W p pr =
    s.set p { pr with cond := false, back := false, scan := pr.scan.next, argv := pr.argv ++ [pr.scan.np1] } := by
  unfold Shell.parsecmd
  rw [h]
  exact if_neg hmax

theorem step_parse (hpr : s.procs p = some pr) (hpc : pr.pc = .parse) : s.step W p = some (s.parsecmd W p pr) := by
  unfold Shell.step
  rw [hpr, Option.bind_some, hpc]

/-- **The words are read.** -/
theorem reaches_run {line : List Char} (hlen : ts.length < maxArgs) (hts : ts ≠ []) :
    ∀ {rest read : List Lexeme} {s : Shell} {pr : Proc},
    Shell.Reached W line s → s.trace = [] → s.procs 1 = some pr → ts = read ++ rest → pr.pc = .parse →
    pr.argv = read.map Lexeme.word →
    Reads pr.scan (rest.map fun t => .word t.word) →
    ∃ s' pr', Shell.Reached W line s' ∧ s'.trace = [] ∧ s'.procs 1 = some pr' ∧ pr'.pc = .run ∧
    pr'.argv = ts.map Lexeme.word
  | [], read, s, pr, hr, htr, hpr, hsplit, hpc, hargv, hreads => by
    rw [List.append_nil] at hsplit
    subst hsplit
    have hnil : pr.argv ≠ [] := by
      rw [hargv]
      simpa using hts
    have hmax : ¬maxArgs ≤ pr.argv.length := by
      rw [hargv, List.length_map]
      omega
    have hret : { pr with cond := false, back := false, scan := pr.scan.next }.returned =
        { pr with cond := false, back := false, scan := pr.scan.next, pc := .run } := by
      unfold Proc.returned
      rw [if_neg hnil, if_neg hmax]
    have hstep := (step_parse (W := W) hpr hpc).trans (congrArg some ((parsecmd_eof hreads).trans (congrArg _ hret)))
    exact ⟨_, _, .next s 1 _ hr trivial hstep, htr, Shell.set_same _ _ _, rfl, hargv⟩
  | t :: rest, read, s, pr, hr, htr, hpr, hsplit, hpc, hargv, hreads => by
    obtain ⟨hnc, hnp, hnext⟩ := hreads.word
    have hmax : ¬maxArgs ≤ pr.argv.length := by
      rw [hsplit, List.length_append] at hlen
      rw [hargv, List.length_map]
      omega
    have hstep := (step_parse (W := W) hpr hpc).trans (congrArg some (parsecmd_word hnc hmax))
    have hread : ts = (read ++ [t]) ++ rest := by rw [hsplit, List.append_assoc, List.singleton_append]
    refine reaches_run hlen hts (.next s 1 _ hr trivial hstep) htr (Shell.set_same _ _ _) hread hpc ?_ hnext
    rw [List.map_append, ← hargv, hnp]
    rfl

theorem runcmd_spawns (hh : pr.argv.prog ≠ history) (hj : pr.argv.prog ≠ jobs)
    (hk : ¬((pr.argv.prog = kill ∨ pr.argv.prog = fg) ∧ pr.argv.length = 1)) (hw : W.spawns pr.argv = true) :
    (s.runcmd W p pr).trace = s.trace ++ [pr.argv] := by
  unfold Shell.runcmd
  rw [if_neg hh, if_neg hj, if_neg hk, if_pos hw]
  rfl

/-- **A program that is not `echo` is spawned with its words.** -/
theorem reaches_spawn {line : List Char} (h : SimpleCommand line ts) (hlen : ts.length < maxArgs)
    (he : program ts ≠ echo) (hh : program ts ≠ history) (hj : program ts ≠ jobs)
    (hk : ¬((program ts = kill ∨ program ts = fg) ∧ ts.length = 1)) :
    ∃ s, Shell.Reached .calm line s ∧ s.trace = [ts.map Lexeme.word] := by
  obtain ⟨s, pr, hr, htr, hpr, hpc, hargv⟩ :=
    reaches_run hlen h.nonempty (.start _ rfl : Shell.Reached .calm line _) rfl
    (show (Shell.start line).procs 1 = some (lineProc line) from rfl) (List.nil_append ts).symm rfl rfl
    (reads_words h.lexes fun t ht => (h.plain t ht).1)
  have hprog : pr.argv.prog = program ts := prog_argv hargv
  have hstep : s.step .calm 1 = some (s.set 1 { pr with pc := .spawn }) := by
    unfold Shell.step
    rw [hpr, Option.bind_some, hpc]
    dsimp only
    rw [hprog, if_neg he]
  have hspawn : (s.set 1 { pr with pc := .spawn }).step .calm 1 =
      some ((s.set 1 { pr with pc := .spawn }).runcmd .calm 1 { pr with pc := .spawn }) := by
    unfold Shell.step
    rw [Shell.set_same, Option.bind_some]
  refine ⟨_, .next _ 1 _ (.next s 1 _ hr trivial hstep) trivial hspawn, ?_⟩
  have hlen' : pr.argv.length = ts.length := by rw [hargv, List.length_map]
  have hspawned : ((s.set 1 { pr with pc := .spawn }).runcmd .calm 1 { pr with pc := .spawn }).trace =
      s.trace ++ [pr.argv] :=
    runcmd_spawns (hprog ▸ hh) (hprog ▸ hj) (by rw [hprog, hlen']; exact hk) rfl
  rw [hspawned, htr, hargv]
  rfl

theorem string_program {t : Lexeme} {word : List Char} (hs : t.isString = true) (hw : word.head? ≠ some '"') :
    t.text ≠ word := by
  intro h
  rw [← h] at hw
  exact hw (beq_iff_eq.1 hs)

/-- **A command gets the arguments that are meant exactly when it has no quoted string, is `echo`, or nothing is
spawned.** -/
theorem arguments_kept_iff (line : List Char) (ts : List Lexeme) (h : SimpleCommand line ts) :
    ArgumentsKept line ts ↔ QuotesDropped ts := by
  constructor
  · intro hkept
    by_contra hd
    unfold QuotesDropped at hd
    push Not at hd
    obtain ⟨⟨t, ht, hs⟩, he, hlen, hh, hj⟩ := hd
    have hs : t.isString = true := by simpa using hs
    have hk : ¬((program ts = kill ∨ program ts = fg) ∧ ts.length = 1) := by
      rintro ⟨hp, hone⟩
      obtain ⟨x, rfl⟩ := List.length_eq_one_iff.1 hone
      obtain rfl := List.mem_singleton.1 ht
      exact hp.elim (string_program hs (by decide)) (string_program hs (by decide))
    obtain ⟨s, hr, htr⟩ := reaches_spawn h (Nat.not_le.1 (by simpa using hlen)) he hh hj hk
    exact string_not_meant ht hs (hkept .calm s hr _ (by rw [htr]; exact List.mem_singleton_self _))
  · intro hd W s hr
    have hinv := Run.invariant (Meant ts) (fun s hs => by obtain rfl : s = Shell.start line := hs; exact h.start)
      (fun s p s' hi _ hs => hi.step h.nonempty (fun t ht => (h.plain t ht).2) hd hs) s hr
    exact hinv.trace

/-- `cat "a b"` -/
def catLine : List Char := "cat \"a b\"".toList

def catLexemes : List Lexeme := [⟨.word, 0, "cat".toList⟩, ⟨.word, 4, "\"a b".toList⟩]

theorem catLine_simple : SimpleCommand catLine catLexemes := by
  refine ⟨?_, List.cons_ne_nil _ _, by decide⟩
  exact .token 0 [] .word ['c', 'a', 't'] _ [' ', '"', 'a', ' ', 'b', '"'] _ true (List.all_eq_true.1 rfl)
    (.word 'c' ['a', 't'] _ rfl rfl (List.all_eq_true.1 rfl) fun _ h => Option.some.inj h ▸ rfl)
    (.token 3 [' '] .word ['"', 'a', ' ', 'b', '"'] _ [] _ true (List.all_eq_true.1 rfl)
      (.quoted '"' ['a', ' ', 'b'] [] rfl (by decide)) (.done 9 [] (List.all_eq_true.1 rfl)))

theorem arguments_kept_cat : ArgumentsKept catLine catLexemes ↔ QuotesDropped catLexemes :=
  arguments_kept_iff _ _ catLine_simple

/-- **`cat` gets the opening quote.** -/
theorem arguments_kept_fails :
    ¬∀ (line : List Char) (ts : List Lexeme), SimpleCommand line ts → ArgumentsKept line ts := by
  intro hall
  obtain ⟨s, hr, htr⟩ := reaches_spawn catLine_simple (by decide +kernel) (by decide +kernel) (by decide +kernel)
      (by decide +kernel) (by decide +kernel)
  have h := hall catLine catLexemes catLine_simple .calm s hr _ (by rw [htr]; exact List.mem_singleton_self _)
  exact string_not_meant (t := ⟨.word, 4, "\"a b".toList⟩) (by decide +kernel) (by decide +kernel) h

end Mos.Sh
