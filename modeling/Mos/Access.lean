import Mos.Exchange
import Mos.Counter
import Mos.Serv
import Mos.Serving
/-!
# Access — who may use an open file

`open_lookup` is given the `envid` of a request and does not look at it: it asks `pageref` whether anyone but the server
has the page of the open file.  The counter of that page is the number of its mappings, so the answer is the right one
for an environment without the page exactly while nobody else has it either.
-/
namespace Mos

open Fallible

/-! ## The server in its machine -/

/-- `pageref(va)` in an environment. -/
def Kernel.pageref (k : Kernel) (e : EnvIx) (va : Word) : Nat :=
  match k.frameOf e va with
  | none => 0
  | some f => (k.pm.ppRef f).toNat

/-- The address `opentab[i].o_ff`. -/
def oFfVa (i : Nat) : Word := fileva + BitVec.ofNat 32 (i * pageSize)

/-- The machine, and the file server that runs in it as one environment. -/
structure FileWorld where
  kernel : Kernel
  server : Server

inductive WorldAct where
  | machine (a : Act)
  /-- The server handles a request; its own system calls are acts of the machine. -/
  | serve (rq : Fsreq)

namespace FileWorld

variable (fs : EnvIx)

/-- `pageref(opentab[i].o_ff)` -/
def refs (w : FileWorld) (i : Nat) : Nat := w.kernel.pageref fs (oFfVa i)

def step (w : FileWorld) : WorldAct → Option FileWorld
  | .machine a => (Mos.step w.kernel a).map fun k => { w with kernel := k }
  | .serve rq =>
    if w.kernel.curenv = some fs then (serveTable (w.refs fs) rq w.server).map
      fun r => { w with server := r.2 } else none

/-- The machine has booted, and the server is past `fs_init`. -/
def Init (w : FileWorld) : Prop :=
  Linked w.kernel ∧ ∃ s : Fs, (∀ b, s.mapped b = false) ∧ fsInit { s with super := false, bitmap := false } =
    some (.ok (), w.server.fs)

/-- No counter of a page overflows. -/
def Safe (w : FileWorld) : WorldAct → Prop
  | .machine a => MapSafe w.kernel a
  | .serve _ => True

/-- The environment has the page of the open file `i` mapped. -/
def Holds (w : FileWorld) (e : EnvIx) (i : Nat) : Prop :=
  (w.kernel.envs e).envStatus ≠ .free ∧
    ∃ f, w.kernel.frameOf fs (oFfVa i) = some f ∧ ∃ va < utop, w.kernel.frameOf e va = some f

/-- **A request of `e` for the open file `fileid` is guarded**: its handler gets to the open file only if `e` has the
page; otherwise it answers `-E_INVAL`, without a page, and leaves everything as it is. -/
structure Guarded (w : FileWorld) (e : EnvIx) (rq : Fsreq) (fileid : Word) : Prop where
  acts : (∃ i s, Serv.openLookup (w.refs fs) fileid w.server = some (.ok i, s)) → w.Holds fs e fileid.toNat
  refused : ¬w.Holds fs e fileid.toNat →
    serveTable (w.refs fs) rq w.server = some (.ok ⟨-eInval, .none⟩, w.server)

/-- The page of the open file `i` is mapped nowhere but in the server, at `o_ff`. -/
def Unshared (w : FileWorld) (i : Nat) : Prop :=
  ∀ f, w.kernel.frameOf fs (oFfVa i) = some f → mappings w.kernel f = 1

end FileWorld

/-! ## `open_lookup` -/

theorem openLookup_eq (refs : Nat → Nat) (fileid : Word) (s : Server) : Serv.openLookup refs fileid s =
    if fileid.toNat < maxOpen ∧ 1 < refs fileid.toNat then some (.ok fileid.toNat, s)
    else some (.error (-eInval), s) := by
  unfold Serv.openLookup
  generalize maxOpen = bound
  by_cases hi : bound ≤ fileid.toNat
  · have hno : ¬(fileid.toNat < bound ∧ 1 < refs fileid.toNat) := by omega
    simp only [if_pos hi, if_neg hno, Fallible.fail]
  · by_cases hr : refs fileid.toNat ≤ 1
    · have hno : ¬(fileid.toNat < bound ∧ 1 < refs fileid.toNat) := by omega
      simp only [if_neg hi, if_pos hr, if_neg hno, Fallible.fail]
    · have hyes : fileid.toNat < bound ∧ 1 < refs fileid.toNat := by omega
      simp only [if_neg hi, if_neg hr, if_pos hyes]
      rfl

/-- **A handler that does not find the open file** answers `-E_INVAL` and changes nothing. -/
theorem onOpen_refused {refs : Nat → Nat} {fileid : Word} {op : Nat → FsM ReplyPage} {s : Server}
    (h : Serv.openLookup refs fileid s = some (.error (-eInval), s)) :
    Serv.onOpen refs fileid op s = some (.ok ⟨-eInval, .none⟩, s) := by
  unfold Serv.onOpen Serv.answer
  have hbody : (attempt do
      let i ← Serv.openLookup refs fileid
      let s ← Fallible.read id
      let page ← Serv.onFs (op (s.oFile i))
      pure (⟨0, page⟩ : Reply)) s = some (.ok (.error (-eInval)), s) := by
    unfold attempt
    rw [bind_of_error h]
    rfl
  rw [bind_of_ok hbody]
  rfl

theorem serveTable_refused {refs : Nat → Nat} {rq : Fsreq} {fileid : Word} (hrq : rq.fileid = some fileid) {s : Server}
    (h : Serv.openLookup refs fileid s = some (.error (-eInval), s)) :
    serveTable refs rq s = some (.ok ⟨-eInval, .none⟩, s) := by
  cases rq with
  | map i offset =>
    cases hrq
    simp only [serveTable, Serv.serveMap]
    exact onOpen_refused h
  | setSize i size =>
    cases hrq
    simp only [serveTable, Serv.serveSetSize]
    exact onOpen_refused h
  | close i =>
    cases hrq
    simp only [serveTable, Serv.serveClose]
    exact onOpen_refused h
  | dirty i offset =>
    cases hrq
    simp only [serveTable, Serv.serveDirty]
    exact onOpen_refused h
  | _ => cases hrq

/-! ## Counting -/

namespace FileWorld

variable {fs : EnvIx} {w : FileWorld}

theorem oFfVa_lt {i : Nat} (h : i < maxOpen) : oFfVa i < utop := by
  have hbase : fileva.toNat = 0x60000000 := by decide
  have htop : utop.toNat = 0x7F400000 := by decide
  have hi : i < 1024 := h
  rw [BitVec.lt_def]
  unfold oFfVa pageSize
  rw [BitVec.toNat_add, BitVec.toNat_ofNat, hbase, htop]
  omega

theorem accounted (h : Run Init (step fs) Safe w) : Accounted w.kernel := by
  refine Run.invariant (fun w => Accounted w.kernel) (fun _ hi => Accounted.linked hi.1) ?_ w h
  intro w a w' hw hok hs
  cases a with
  | machine a =>
    obtain ⟨k, hk, rfl⟩ := Option.map_eq_some_iff.1 hs
    exact hw.step_safe hok hk
  | serve rq =>
    simp only [step] at hs
    split at hs
    · obtain ⟨r, -, rfl⟩ := Option.map_eq_some_iff.1 hs
      exact hw
    · cases hs

/-- **`pageref` is the number of the mappings.** -/
theorem refs_eq (h : Accounted w.kernel) (hrun : w.kernel.curenv = some fs) {i : Nat} (hi : i < maxOpen) :
    w.refs fs i = match w.kernel.frameOf fs (oFfVa i) with
      | none => 0
      | some f => mappings w.kernel f := by
  obtain ⟨g, hg⟩ := h.framed
  unfold refs Kernel.pageref
  cases hf : w.kernel.frameOf fs (oFfVa i) with
  | none => rfl
  | some f => exact hg.ref_frameOf (h.alive.running fs hrun) (oFfVa_lt hi) hf

theorem mappings_pos (h : Accounted w.kernel) (hrun : w.kernel.curenv = some fs) {i f : Nat} (hi : i < maxOpen)
    (hf : w.kernel.frameOf fs (oFfVa i) = some f) : 0 < mappings w.kernel f := by
  obtain ⟨g, hg⟩ := h.framed
  have hslot := slotOf_mem (hg.mem (h.alive.running fs hrun)) (pdx_lt_utop.2 (oFfVa_lt hi))
  unfold mappings
  rw [hg.dirs_eq]
  exact count_pos hslot hf

/-- **A request is guarded exactly while its environment has the page or the page is not shared.** -/
theorem access_by_descriptor (fs : EnvIx) (w : FileWorld) (h : Run Init (step fs) Safe w)
    (hrun : w.kernel.curenv = some fs) (e : EnvIx) (rq : Fsreq) (fileid : Word) (hrq : rq.fileid = some fileid) :
    w.Guarded fs e rq fileid ↔
      maxOpen ≤ fileid.toNat ∨ w.Holds fs e fileid.toNat ∨ w.Unshared fs fileid.toNat := by
  have hacc := accounted h
  have hlook := openLookup_eq (w.refs fs) fileid w.server
  constructor
  · intro hg
    by_contra hc
    rw [not_or, not_or] at hc
    obtain ⟨hlt, hno, hshared⟩ := hc
    have hlt' : fileid.toNat < maxOpen := Nat.lt_of_not_le hlt
    unfold Unshared at hshared
    push Not at hshared
    obtain ⟨f, hf, hne⟩ := hshared
    have hpos := mappings_pos hacc hrun hlt' hf
    have hrefs := refs_eq hacc hrun hlt'
    rw [hf] at hrefs
    have hrefs' : w.refs fs fileid.toNat = mappings w.kernel f := hrefs
    rw [if_pos ⟨hlt', by omega⟩] at hlook
    exact hno (hg.acts ⟨_, _, hlook⟩)
  · intro hc
    by_cases hholds : w.Holds fs e fileid.toNat
    · exact ⟨fun _ => hholds, fun hno => absurd hholds hno⟩
    · -- the open file is not found
      have hfails : Serv.openLookup (w.refs fs) fileid w.server = some (.error (-eInval), w.server) := by
        rw [hlook, if_neg]
        rintro ⟨hlt, href⟩
        rcases hc with hge | hh | hun
        · omega
        · exact hholds hh
        · rw [refs_eq hacc hrun hlt] at href
          cases hf : w.kernel.frameOf fs (oFfVa fileid.toNat) with
          | none =>
            rw [hf] at href
            have href' : 1 < 0 := href
            omega
          | some f =>
            rw [hf] at href
            have hone := hun f hf
            have href' : 1 < mappings w.kernel f := href
            omega
      refine ⟨?_, fun _ => serveTable_refused hrq hfails⟩
      rintro ⟨i, s, hi⟩
      rw [hfails] at hi
      cases hi

/-! ## The small machine -/

/-- A disk of five blocks: the super block, the bitmap, the root directory with the file "a", and the block of that
file. -/
def smallDisk (a : Nat) : Word :=
  if a = blockWords then fsMagic
  else if a = blockWords + 1 then 5
  else if a = FilePtr.fSize sRoot then 4096
  else if a = FilePtr.fType sRoot then ftypeDir
  else if a = FilePtr.fDirect sRoot 0 then 3
  else if a = 2 * blockWords then 0xFFFFFFE0
  else if a = 3 * blockWords then 0x61
  else if a = FilePtr.fSize (3 * blockWords) then 4
  else if a = FilePtr.fDirect (3 * blockWords) 0 then 4
  else 0

/-- The server before `fs_init`. -/
def bareFs : Fs where
  mem := fun _ => 0
  mapped := fun _ => false
  dirty := fun _ => false
  disk := smallDisk
  super := false
  bitmap := false
  pages := []

/-- The machine has booted, and the server is past `fs_init`. -/
def small : Option FileWorld :=
  (mipsInit smallBoard [emptyProgram]).bind fun k =>
    (fsInit bareFs).bind fun r =>
      if r.1.isOk then
        some { kernel := k, server := { fs := r.2, oFile := fun _ => 0, oMode := fun _ => 0, oFf := fun _ _ => 0 } }
      else none

theorem init_small (w : FileWorld) (h : small = some w) : w.Init := by
  obtain ⟨k, hk, hrest⟩ := Option.bind_eq_some_iff.1 h
  obtain ⟨⟨r, s⟩, hr, hsome⟩ := Option.bind_eq_some_iff.1 hrest
  cases r with
  | error e => cases hsome
  | ok u =>
    cases hsome
    exact ⟨Granted.linked_small k hk, bareFs, fun _ => rfl, hr⟩

/-- Environments 1 and 2 are children of environment 0; it has opened the file through the server, environment 1. -/
def opening : List WorldAct :=
  [.machine .tick, .machine (.exec stackFrame), .machine (.syscall .exofork 0), .machine (.syscall .exofork 0),
    .machine (.syscall (.setEnvStatus 4097 1) 0), .machine (.syscall (.setEnvStatus 6146 1) 0),
    .machine (.syscall (.ipcRecv 0x5FC00000) 0), .serve (.openFile [slash, 0x61] 0),
    .machine (.syscall (.memAlloc 0 fileva (pteD ||| pteLibrary)) 0),
    .machine (.syscall (.ipcTrySend 2048 0 fileva (pteD ||| pteLibrary)) 0)]

def safeB (w : FileWorld) : WorldAct → Bool
  | .machine a => Mailed.safeB { kernel := w.kernel, log := fun _ => [] } a
  | .serve _ => true

theorem safe_of_safeB (w : FileWorld) (a : WorldAct) (h : w.safeB a = true) : w.Safe a := by
  cases a with
  | machine a => exact Mailed.safe_of_safeB _ a h
  | serve rq => trivial

/-- The environment that opened the file is guarded. -/
theorem access_by_descriptor_opener : ∃ w : FileWorld, w.Holds 1 0 0 ∧ w.Guarded 1 0 (.map 0 0) 0 := by
  obtain ⟨w, hr, hw⟩ :=
    @Run.exists_of_exec FileWorld WorldAct Init (step 1) Safe safeB safe_of_safeB opening small init_small
    (fun w => decide (w.kernel.curenv = some 1) && decide ((w.kernel.envs 0).envStatus ≠ .free) &&
      (w.kernel.frameOf 1 (oFfVa 0)).isSome && decide (w.kernel.frameOf 0 0x5FC00000 = w.kernel.frameOf 1 (oFfVa 0)))
    (by decide +kernel)
  simp only [Bool.and_eq_true, decide_eq_true_eq] at hw
  obtain ⟨⟨⟨hrun, hlive⟩, hsome⟩, heq⟩ := hw
  obtain ⟨f, hf⟩ := Option.isSome_iff_exists.1 hsome
  have hholds : w.Holds 1 0 0 := ⟨hlive, f, hf, 0x5FC00000, by decide, heq.trans hf⟩
  exact ⟨w, hholds, (access_by_descriptor 1 w hr hrun 0 (.map 0 0) 0 rfl).2 (.inr (.inl hholds))⟩

/-- **An environment that never opened the file is given a block of it.** -/
theorem access_by_descriptor_fails :
    ¬∀ (fs : EnvIx) (w : FileWorld), Reach Init (step fs) w → w.kernel.curenv = some fs →
    ∀ (e : EnvIx) (rq : Fsreq) (fileid : Word), rq.fileid = some fileid → w.Guarded fs e rq fileid := by
  obtain ⟨w, hr, hw⟩ := @Run.exists_of_exec FileWorld WorldAct Init (step 1) (fun _ _ => True) (fun _ _ => true)
    (fun _ _ _ => trivial) opening small init_small
    (fun w => decide (w.kernel.curenv = some 1) &&
      (List.range utopEntries).all (fun i => (w.kernel.pm.table ((w.kernel.envs 2).envPgdir, i)).isNone) &&
      decide ((serveTable (w.refs 1) (.map 0 0) w.server).map (fun r => r.1.toOption) = some (some ⟨0, .block 4⟩)))
    (by decide +kernel)
  rw [Bool.and_eq_true, Bool.and_eq_true, decide_eq_true_eq, decide_eq_true_eq] at hw
  obtain ⟨⟨hrun, hempty⟩, hgiven⟩ := hw
  have hno : ¬w.Holds 1 2 0 := by
    rintro ⟨-, f, -, va, hva, hf⟩
    obtain ⟨pte, hpte, -⟩ := frame_eq_some hf
    obtain ⟨t, ht, -⟩ := table_of_pte hpte
    have hnone := List.all_eq_true.1 hempty (pdx va) (List.mem_range.2 (pdx_lt_utop.2 hva))
    have ht' : w.kernel.pm.table ((w.kernel.envs 2).envPgdir, pdx va) = some t := ht
    rw [ht'] at hnone
    cases hnone
  intro hall
  have hrefused := (hall 1 w hr hrun 2 (.map 0 0) 0 rfl).refused hno
  rw [hrefused] at hgiven
  cases hgiven

end FileWorld

end Mos
