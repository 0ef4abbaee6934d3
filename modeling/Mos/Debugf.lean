import Mos.Lib.While
import Mos.Lib.Writes
import Mos.Syscall
import Mos.Vprintfmt
/-!
# Debugf — console output through a buffer (`user/lib/debugf.c`)

`debug_output` collects strings in a buffer of `BUF_LEN` characters and hands the buffer to `syscall_print_cons` when
it is full; `debug_flush` hands over what is left.  The buffer is on the stack of a program, and a string that a
program passes lies below `UTOP`.  A copy that leaves the buffer or the string, and a panic, is `none`; what is done
to the buffer is kept in a list.
-/
namespace Mos.Libc

def bufLen : Nat := 1024

/-- What is done to the buffer. -/
inductive DebugEvent where
  /-- `n` characters are copied to `buf + dst`. -/
  | copied (dst n : Nat)
  /-- `pos` becomes `p`. -/
  | moved (p : Word)
  /-- The characters are handed to `syscall_print_cons`. -/
  | printed (cs : List Char)

/-- `struct debug_ctx` at an address, and what was done to it. -/
structure DebugCtx where
  addr : Word
  buf : Buf
  pos : Word
  events : List DebugEvent

namespace DebugCtx

/-- `ctx->pos = p` -/
def setPos (ctx : DebugCtx) (p : Word) : DebugCtx := { ctx with pos := p, events := ctx.events ++ [.moved p] }

/-- `memcpy(ctx->buf + ctx->pos, s, n)` -/
def memcpy (ctx : DebugCtx) (s : List Char) (n : Word) : Option DebugCtx :=
  if ctx.pos.toNat + n.toNat ≤ bufLen ∧ n.toNat ≤ s.length then
    some { ctx with
      buf := Put.apply ctx.buf ⟨ctx.pos.toNat, s.take n.toNat⟩
      events := ctx.events ++ [.copied ctx.pos.toNat n.toNat] }
  else none

end DebugCtx

/-- What `syscall_print_cons` returns. -/
def printCons (s num : Word) : Int := if s + num > utop ∨ s ≥ utop ∨ s > s + num then -eInval else 0

def debugFlush (ctx : DebugCtx) : Option DebugCtx :=
  if ctx.pos = 0 then some ctx
  else if printCons ctx.addr ctx.pos ≠ 0 ∨ bufLen < ctx.pos.toNat then none
  else some (DebugCtx.setPos { ctx with events := ctx.events ++ [.printed ((List.range ctx.pos.toNat).map ctx.buf)] } 0)

/-- `ctx`, `s` and `l` in the loop of `debug_output`. -/
structure Splitting where
  ctx : DebugCtx
  s : List Char
  l : Word

/-- The body of the loop. -/
def splitOff (x : Splitting) : Option Splitting :=
  let n := BitVec.ofNat 32 bufLen - x.ctx.pos
  (x.ctx.memcpy x.s n).bind fun ctx => (debugFlush (ctx.setPos (BitVec.ofNat 32 bufLen))).map fun ctx =>
  ⟨ctx, x.s.drop n.toNat, x.l - n⟩

/-- `debug_output`, its loop with at most `fuel` tests of the condition. -/
def debugOutput (fuel : Nat) (ctx : DebugCtx) (s : List Char) : Option DebugCtx :=
  (whileDo (fun x : Splitting => decide (x.ctx.pos + x.l > BitVec.ofNat 32 bufLen)) splitOff fuel
    ⟨ctx, s, BitVec.ofNat 32 s.length⟩).bind fun x => (x.ctx.memcpy x.s x.l).map fun ctx => ctx.setPos (ctx.pos + x.l)

/-! ## What is promised -/

/-- A string that a program passes. -/
structure UserText where
  chars : List Char
  below : chars.length ≤ utop.toNat

/-- What is done stays inside of the buffer. -/
def DebugEvent.Inside : DebugEvent → Prop
  | .copied dst n => dst + n ≤ bufLen
  | .moved p => p.toNat ≤ bufLen
  | .printed cs => cs.length ≤ bufLen

/-- What the console is handed, in order. -/
def printedText (events : List DebugEvent) : List Char :=
  events.flatMap fun
    | .printed cs => cs
    | _ => []

/-- The buffer with nothing in it. -/
def DebugCtx.empty (addr : Word) (junk : Buf) : DebugCtx := ⟨addr, junk, 0, []⟩

/-- **The text is on its way**: printed, or still in the buffer. -/
structure DebugCtx.Holds (ctx : DebugCtx) (text : List Char) : Prop where
  pos : ctx.pos.toNat ≤ bufLen
  text : printedText ctx.events ++ (List.range ctx.pos.toNat).map ctx.buf = text
  inside : ∀ e ∈ ctx.events, e.Inside

/-! ## The system call -/

theorem printCons_ok {s num : Word} (h0 : num ≠ 0) (h : s.toNat + num.toNat ≤ utop.toNat) : printCons s num = 0 := by
  have htop : utop.toNat < 2 ^ 32 := utop.isLt
  have hpos : 0 < num.toNat := Nat.pos_of_ne_zero fun h => h0 (BitVec.eq_of_toNat_eq h)
  have hsum : (s + num).toNat = s.toNat + num.toNat := by
    rw [BitVec.toNat_add]
    omega
  refine if_neg ?_
  rw [gt_iff_lt, ge_iff_le, gt_iff_lt, BitVec.lt_def, BitVec.le_def, BitVec.lt_def, hsum]
  omega

/-! ## The functions keep the text -/

section Keeping

variable {ctx : DebugCtx} {text s : List Char} {n : Word}

theorem printedText_append (es es' : List DebugEvent) : printedText (es ++ es') = printedText es ++ printedText es' :=
  List.flatMap_append

theorem bufLen_toNat : (BitVec.ofNat 32 bufLen).toNat = bufLen := rfl

/-- **Characters are put behind the text.** -/
theorem memcpy_holds (h : ctx.Holds text) (hn : ctx.pos.toNat + n.toNat ≤ bufLen) (hs : n.toNat ≤ s.length) {p : Word}
    (hp : p.toNat = ctx.pos.toNat + n.toNat) :
    ∃ ctx', ctx.memcpy s n = some ctx' ∧ ctx'.pos = ctx.pos ∧ ctx'.addr = ctx.addr ∧
      (ctx'.setPos p).Holds (text ++ s.take n.toNat) := by
  refine ⟨_, if_pos ⟨hn, hs⟩, rfl, rfl, ?_, ?_, ?_⟩
  · show p.toNat ≤ _
    omega
  · have hbuf : (List.range p.toNat).map (Put.apply ctx.buf ⟨ctx.pos.toNat, s.take n.toNat⟩) =
        (List.range ctx.pos.toNat).map ctx.buf ++ s.take n.toNat := by
      rw [hp, List.range_add, List.map_append, List.map_map]
      congr 1
      · refine List.map_congr_left fun j hj => Put.apply_outside (.inl (List.mem_range.1 hj))
      · refine List.ext_getElem (by rw [List.length_map, List.length_range, List.length_take]; omega) fun j h₁ h₂ => ?_
        rw [List.getElem_map, List.getElem_range]
        exact Put.apply_inside (w := ⟨ctx.pos.toNat, s.take n.toNat⟩) h₂
    show printedText (ctx.events ++ [.copied ctx.pos.toNat n.toNat] ++ [.moved p]) ++
      (List.range p.toNat).map (Put.apply ctx.buf ⟨ctx.pos.toNat, s.take n.toNat⟩) = _
    rw [printedText_append, printedText_append, hbuf, ← h.text]
    simp [printedText]
  · intro e he
    show e.Inside
    rcases List.mem_append.1 he with he | he
    · rcases List.mem_append.1 he with he | he
      · exact h.inside e he
      · rw [List.mem_singleton.1 he]
        exact hn
    · rw [List.mem_singleton.1 he]
      show p.toNat ≤ _
      omega

/-- **A flush prints what is in the buffer.** -/
theorem debugFlush_holds (h : ctx.Holds text) (ha : ctx.addr.toNat + bufLen ≤ utop.toNat) :
    ∃ ctx', debugFlush ctx = some ctx' ∧ ctx'.Holds text ∧ ctx'.pos = 0 ∧ ctx'.addr = ctx.addr := by
  unfold debugFlush
  by_cases h0 : ctx.pos = 0
  · exact ⟨ctx, if_pos h0, h, h0, rfl⟩
  · have hp := h.pos
    have hgood : ¬(printCons ctx.addr ctx.pos ≠ 0 ∨ bufLen < ctx.pos.toNat) := by
      rw [printCons_ok h0 (by omega)]
      omega
    refine ⟨DebugCtx.setPos { ctx with events := ctx.events ++ [.printed ((List.range ctx.pos.toNat).map ctx.buf)] } 0,
      (if_neg h0).trans (if_neg hgood), ⟨Nat.zero_le _, ?_, ?_⟩, rfl, rfl⟩
    · show printedText (ctx.events ++ [.printed ((List.range ctx.pos.toNat).map ctx.buf)] ++ [.moved 0]) ++ [] = _
      rw [printedText_append, printedText_append, ← h.text]
      simp [printedText]
    · intro e he
      rcases List.mem_append.1 he with he | he
      · rcases List.mem_append.1 he with he | he
        · exact h.inside e he
        · rw [List.mem_singleton.1 he]
          show ((List.range ctx.pos.toNat).map ctx.buf).length ≤ _
          rw [List.length_map, List.length_range]
          exact hp
      · rw [List.mem_singleton.1 he]
        exact Nat.zero_le _

/-- The loop of `debug_output` ends, with as much left as there is room for. -/
theorem splitting_holds :
    ∀ (fuel : Nat) {ctx : DebugCtx} {s : List Char} {l : Word} {text : List Char}, ctx.Holds text →
    ctx.addr.toNat + bufLen ≤ utop.toNat → l.toNat = s.length → s.length ≤ utop.toNat →
    s.length + (if ctx.pos.toNat = bufLen then 1 else 0) < fuel →
    ∃ y, whileDo (fun x : Splitting => decide (x.ctx.pos + x.l > BitVec.ofNat 32 bufLen)) splitOff fuel
    ⟨ctx, s, l⟩ = some y ∧
      (∃ done, s = done ++ y.s ∧ y.ctx.Holds (text ++ done)) ∧ y.l.toNat = y.s.length ∧ y.ctx.addr = ctx.addr ∧
      y.ctx.pos.toNat + y.s.length ≤ bufLen
  | 0, _, _, _, _, _, _, _, _, hf => absurd hf (Nat.not_lt_zero _)
  | fuel + 1, ctx, s, l, text, h, ha, hl, hs, hf => by
    have htop : utop.toNat + bufLen < 2 ^ 32 := by decide
    have hp : ctx.pos.toNat ≤ bufLen := h.pos
    have hsum : (ctx.pos + l).toNat = ctx.pos.toNat + s.length := by
      rw [BitVec.toNat_add]
      omega
    have hgo : ctx.pos + l > BitVec.ofNat 32 bufLen ↔ bufLen < ctx.pos.toNat + s.length := by
      rw [gt_iff_lt, BitVec.lt_def, hsum, bufLen_toNat]
    by_cases hin : ctx.pos.toNat + s.length ≤ bufLen
    · exact ⟨⟨ctx, s, l⟩, whileDo_done (decide_eq_false fun hg => absurd (hgo.1 hg) (Nat.not_lt.2 hin)),
        ⟨[], rfl, by rwa [List.append_nil]⟩, hl, rfl, hin⟩
    · have hn : (BitVec.ofNat 32 bufLen - ctx.pos).toNat = bufLen - ctx.pos.toNat := by
        rw [BitVec.toNat_sub_of_le (by rw [BitVec.le_def, bufLen_toNat]; exact hp), bufLen_toNat]
      obtain ⟨ctx₁, hcopy, -, haddr₁, hholds₁⟩ :=
        memcpy_holds (s := s) (n := BitVec.ofNat 32 bufLen - ctx.pos) h (by omega) (by omega)
        (p := BitVec.ofNat 32 bufLen) (by rw [bufLen_toNat]; omega)
      obtain ⟨ctx₂, hflush, hholds₂, hpos₂, haddr₂⟩ :=
        debugFlush_holds hholds₁ (by show ctx₁.addr.toNat + _ ≤ _; rw [haddr₁]; exact ha)
      replace haddr₂ : ctx₂.addr = ctx.addr := haddr₂.trans haddr₁
      have hsub : (l - (BitVec.ofNat 32 bufLen - ctx.pos)).toNat = s.length - (bufLen - ctx.pos.toNat) := by
        rw [BitVec.toNat_sub_of_le (by rw [BitVec.le_def]; omega), hl, hn]
      have hstep : splitOff ⟨ctx, s, l⟩ = some ⟨ctx₂, s.drop (BitVec.ofNat 32 bufLen - ctx.pos).toNat,
          l - (BitVec.ofNat 32 bufLen - ctx.pos)⟩ := by
        unfold splitOff
        simp only
        rw [hcopy, Option.bind_some, hflush]
        rfl
      -- the string gets shorter, unless the buffer was full
      have hless : s.length - (bufLen - ctx.pos.toNat) + 0 < fuel := by
        split at hf <;> omega
      have hzero : ¬ctx₂.pos.toNat = bufLen := by
        rw [hpos₂]
        decide
      obtain ⟨y, hrun, ⟨done, hdone, hholds⟩, hly, hay, hroom⟩ := splitting_holds fuel
        (s := s.drop (BitVec.ofNat 32 bufLen - ctx.pos).toNat) (l := l - (BitVec.ofNat 32 bufLen - ctx.pos)) hholds₂
        (by rw [haddr₂]; exact ha) (by rw [hsub, List.length_drop, hn]) (by rw [List.length_drop]; omega)
        (by rw [List.length_drop, hn, if_neg hzero]; exact hless)
      refine ⟨y, ?_, ⟨s.take (BitVec.ofNat 32 bufLen - ctx.pos).toNat ++ done, ?_, ?_⟩, hly, hay.trans haddr₂, hroom⟩
      · have hgoes := hgo.2 (Nat.not_le.1 hin)
        refine Eq.trans (whileDo_step ?_ hstep) hrun
        exact decide_eq_true hgoes
      · rw [List.append_assoc, ← hdone]
        exact (List.take_append_drop _ _).symm
      · rwa [← List.append_assoc]

/-- **`debug_output` keeps the text**, with the string behind it. -/
theorem debugOutput_holds {fuel : Nat} (h : ctx.Holds text) (ha : ctx.addr.toNat + bufLen ≤ utop.toNat)
    (hs : s.length ≤ utop.toNat) (hf : s.length + 1 < fuel) :
    ∃ ctx', debugOutput fuel ctx s = some ctx' ∧ ctx'.Holds (text ++ s) ∧ ctx'.addr = ctx.addr := by
  have htop : utop.toNat + bufLen < 2 ^ 32 := by decide
  have hl : (BitVec.ofNat 32 s.length).toNat = s.length := by
    rw [BitVec.toNat_ofNat]
    omega
  obtain ⟨⟨ctx₁, s₁, l₁⟩, hrun, ⟨done, hdone, hholds⟩, hl₁, haddr₁, hroom⟩ := splitting_holds fuel
    h ha hl hs (by split <;> omega)
  replace hl₁ : l₁.toNat = s₁.length := hl₁
  replace hroom : ctx₁.pos.toNat + s₁.length ≤ bufLen := hroom
  replace hholds : ctx₁.Holds (text ++ done) := hholds
  replace hdone : s = done ++ s₁ := hdone
  obtain ⟨ctx₂, hcopy, hpos₂, haddr₂, hholds₂⟩ := memcpy_holds (s := s₁) (n := l₁) hholds (by rw [hl₁]; exact hroom)
    (Nat.le_of_eq hl₁) (p := ctx₁.pos + l₁) (by rw [BitVec.toNat_add]; omega)
  refine ⟨ctx₂.setPos (ctx₁.pos + l₁), ?_, ?_, haddr₂.trans haddr₁⟩
  · unfold debugOutput
    rw [hrun, Option.bind_some, hcopy, Option.map_some, hpos₂]
  · rw [hl₁, List.take_length, List.append_assoc, ← hdone] at hholds₂
    exact hholds₂

theorem debugOutputs_holds (fuel : Nat) :
    ∀ (strings : List (List Char)) {ctx : DebugCtx} {text : List Char}, ctx.Holds text →
    ctx.addr.toNat + bufLen ≤ utop.toNat → (∀ s ∈ strings, s.length ≤ utop.toNat ∧ s.length + 1 < fuel) →
    ∃ ctx', strings.foldlM (debugOutput fuel) ctx = some ctx' ∧ ctx'.Holds (text ++ strings.flatten) ∧
    ctx'.addr = ctx.addr
  | [], ctx, text, h, _, _ => ⟨ctx, rfl, by rwa [List.flatten_nil, List.append_nil], rfl⟩
  | s :: strings, ctx, text, h, ha, hs => by
    obtain ⟨hbelow, hf⟩ := hs s List.mem_cons_self
    obtain ⟨ctx₁, h₁, hholds₁, haddr₁⟩ := debugOutput_holds h ha hbelow hf
    obtain ⟨ctx', hrun, hholds, haddr⟩ := debugOutputs_holds fuel strings hholds₁ (by rw [haddr₁]; exact ha)
      fun x hx => hs x (List.mem_cons_of_mem _ hx)
    refine ⟨ctx', ?_, ?_, haddr.trans haddr₁⟩
    · rw [List.foldlM_cons, h₁]
      exact hrun
    · rwa [List.flatten_cons, ← List.append_assoc]

theorem empty_holds (addr : Word) (junk : Buf) : (DebugCtx.empty addr junk).Holds [] :=
  ⟨Nat.zero_le _, rfl, fun _ he => absurd he List.not_mem_nil⟩

theorem DebugCtx.Holds.printed (h : ctx.Holds text) (hp : ctx.pos = 0) : printedText ctx.events = text := by
  have htext := h.text
  rw [hp] at htext
  exact (List.append_nil _).symm.trans htext

end Keeping

/-- **Nothing is lost**: whatever strings are passed to `debug_output`, after a flush the console was handed all of
their characters in their order, and every copy, every value of `pos` and every buffer that was handed over was inside
of the buffer. -/
theorem debug_output_complete (addr : Word) (junk : Buf) (strings : List UserText) (fuel : Nat)
    (ha : addr.toNat + bufLen ≤ utop.toNat) (hf : ∀ s ∈ strings, s.chars.length + 1 < fuel) :
    ∃ ctx, (strings.foldlM (fun ctx s => debugOutput fuel ctx s.chars) (DebugCtx.empty addr junk)).bind debugFlush =
    some ctx ∧
      printedText ctx.events = strings.flatMap UserText.chars ∧ ctx.pos = 0 ∧ ∀ e ∈ ctx.events, e.Inside := by
  obtain ⟨ctx₁, hrun, hholds₁, haddr⟩ := debugOutputs_holds fuel (strings.map UserText.chars) (empty_holds addr junk) ha
    (fun cs hcs => by
      obtain ⟨s, hs, rfl⟩ := List.mem_map.1 hcs
      exact ⟨s.below, hf s hs⟩)
  obtain ⟨ctx, hflush, hholds, hpos, -⟩ := debugFlush_holds hholds₁ (by rw [haddr]; exact ha)
  rw [List.foldlM_map] at hrun
  exact ⟨ctx, by rw [hrun, Option.bind_some, hflush], (hholds.printed hpos).trans (List.flatMap_def ..).symm,
    hpos, hholds.inside⟩

/-- A string of `n` characters. -/
def longText (n : Nat) (h : n ≤ utop.toNat) : UserText := ⟨List.replicate n 'x', by rwa [List.length_replicate]⟩

theorem debug_output_complete_full : ∃ ctx, ([longText 1024 (by decide), longText 2048 (by decide)].foldlM
        (fun ctx s => debugOutput 4096 ctx s.chars) (DebugCtx.empty (ustacktop - 2000) fun _ => 'J')).bind
        debugFlush = some ctx ∧
      printedText ctx.events = [longText 1024 (by decide), longText 2048 (by decide)].flatMap
        UserText.chars ∧ ctx.pos = 0 ∧
      ∀ e ∈ ctx.events, e.Inside := by
  refine debug_output_complete (ustacktop - 2000) (fun _ => 'J')
    [longText 1024 (by decide), longText 2048 (by decide)] 4096 (by decide)
    fun s hs => ?_
  rcases List.mem_cons.1 hs with rfl | hs
  · show (List.replicate 1024 'x').length + 1 < 4096
    rw [List.length_replicate]
    decide
  · rw [List.mem_singleton.1 hs]
    show (List.replicate 2048 'x').length + 1 < 4096
    rw [List.length_replicate]
    decide

/-! ## `vdebugf` -/

def vdebugf (fuel : Nat) (addr : Word) (junk : Buf) (fmt : List Char) (ap : List Arg) : Option DebugCtx :=
  (vprintfmt fuel junk (debugOutput fuel) (DebugCtx.empty addr junk) fmt ap).bind fun (ctx, _) => debugFlush ctx

/-- **`vdebugf` prints the formatted text.** -/
theorem vdebugf_prints {fuel : Nat} {addr : Word} (junk : Buf) {fmt text : List Char} {args args' : List Arg}
    (ha : addr.toNat + bufLen ≤ utop.toNat) (hnul : nul ∉ fmt) (htext : formatText fmt args = some (text, args'))
    (hlen : text.length ≤ utop.toNat) (hf : fmt.length < fuel) (hw : 2 ^ 31 + 34 ≤ fuel) :
    ∃ ctx, vdebugf fuel addr junk fmt args = some ctx ∧ printedText ctx.events = text ∧ ctx.pos = 0 := by
  obtain ⟨calls, hcalls, hprint⟩ := vprintfmt_calls junk hnul htext hf hw
  have htop : utop.toNat + 1 < 2 ^ 31 + 34 := by decide
  obtain ⟨ctx₁, hrun, hholds₁, haddr⟩ := debugOutputs_holds fuel calls (empty_holds addr junk) ha (fun cs hcs => by
    have hle : cs.length ≤ text.length := by
      rw [← hcalls]
      exact (List.sublist_flatten_of_mem hcs).length_le
    omega)
  obtain ⟨ctx, hflush, hholds, hpos, -⟩ := debugFlush_holds hholds₁ (by rw [haddr]; exact ha)
  refine ⟨ctx, ?_, (hholds.printed hpos).trans hcalls, hpos⟩
  unfold vdebugf
  rw [hprint, hrun, Option.map_some, Option.bind_some]
  exact hflush

end Mos.Libc
