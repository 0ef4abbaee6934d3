import Mos.Access
import Mos.FsStays
/-!
# Desk — the file server over a run of requests

The server takes one request after another; between them the clients get, share and give back the pages of the open
files, and write the blocks that they have.  A request is safe where it keeps the volume: then every open file is a file
of the volume in each state of the run, and the entry with it is in the cache.
-/
namespace Mos

open Fallible FilePtr Fs

/-! ## The server and its clients -/

/-- The server, and what the kernel says of the pages of the open files. -/
structure Desk where
  server : Server
  refs : Nat → Nat

inductive DeskAct where
  /-- A request is served; from then on the pages have these counters. -/
  | ask (rq : Fsreq) (refs : Nat → Nat)
  /-- A client writes a word of a block that it has. -/
  | write (a : Nat) (w : Word)

namespace Desk

/-- Only an open gives the page of an open file to someone new. -/
def shared (d : Desk) (refs : Nat → Nat) (page : ReplyPage) : Bool :=
  (List.range maxOpen).all fun i => decide (refs i ≤ 1) || decide (1 < d.refs i) || decide (page = .openFile i)

def step (d : Desk) : DeskAct → Option Desk
  | .ask rq refs => (serveTable d.refs rq d.server).bind fun r =>
    match r.1 with
    | .ok reply => if d.shared refs reply.page then some ⟨r.2, refs⟩ else none
    | .error _ => none
  | .write a w =>
    if d.server.fs.mapped (a / blockWords) then some { d with server := { d.server with fs := d.server.fs.put a w } }
    else none

/-- The volume is sound, and no file is open. -/
def Init (d : Desk) : Prop := Fs.Kept d.server.fs ∧ ∀ i < maxOpen, d.refs i ≤ 1

/-- The open file that a request names. -/
def Opens (d : Desk) (fileid : Word) : Prop := fileid.toNat < maxOpen ∧ 1 < d.refs fileid.toNat

def file (d : Desk) (fileid : Word) : Nat := d.server.oFile fileid.toNat

/-- No open file is below `f`. -/
def Apart (d : Desk) (f : Nat) : Prop :=
  ∀ i < maxOpen, 1 < d.refs i → ¬d.server.fs.vol.Below Inside f (d.server.oFile i)

end Desk

namespace Fs

/-- The file that an open gets: the one with the path, or a free entry of the directory that it is missing in. -/
def Target (s : Fs) (path : List (BitVec 8)) (f : Nat) : Prop :=
  (∃ p, s.resolve none sRoot (components path) = ⟨0, p, some f, []⟩) ∨
    ∃ d name, s.resolve none sRoot (components path) = ⟨-eNotFound, some d, none, name⟩ ∧ s.freeEntry d = some f

/-- **An open is safe**: a file that it creates has room, what `O_MKDIR` is for is a directory or empty, and what
`O_TRUNC` cuts down is empty, or no directory. -/
structure OpenSafe (s : Fs) (path : List (BitVec 8)) (omode : Word) : Prop where
  creatable : omode &&& oMkdir ≠ 0 ∨ omode &&& oCreat ≠ 0 → s.Creatable path
  mkdir : omode &&& oMkdir ≠ 0 → ∀ f, s.Target path f → s.IsDir f ∨ s.Bare f
  trunc : omode &&& oTrunc ≠ 0 → ∀ f, s.Target path f →
    s.Bare f ∨ (¬s.IsDir f ∧ omode &&& oMkdir = 0 ∧ s.Cuts f 0 ∧ false ∉ s.pages)

/-- The open may create a file with the name in the directory. -/
def Makes (s : Fs) (path : List (BitVec 8)) (omode : Word) (d : Nat) (name : List (BitVec 8)) : Prop :=
  (omode &&& oMkdir ≠ 0 ∨ omode &&& oCreat ≠ 0) ∧ s.resolve none sRoot (components path) =
  ⟨-eNotFound, some d, none, name⟩

/-- The directory that an open may create a file in. -/
def IsParent (s : Fs) (path : List (BitVec 8)) (omode : Word) (d : Nat) : Prop :=
  (omode &&& oMkdir ≠ 0 ∨ omode &&& oCreat ≠ 0) ∧ ∃ name, s.resolve none sRoot (components path) =
  ⟨-eNotFound, some d, none, name⟩

theorem Makes.isParent {s : Fs} {path : List (BitVec 8)} {omode : Word} {d : Nat} {name : List (BitVec 8)}
    (h : s.Makes path omode d name) : s.IsParent path omode d := h.imp_right fun hr => ⟨name, hr⟩

/-- The entry that an open goes on with, where it is there before. -/
def Meets (s : Fs) (path : List (BitVec 8)) (omode : Word) (f : Nat) : Prop :=
  (∃ p, s.resolve none sRoot (components path) = ⟨0, p, some f, []⟩) ∨ ∃ d name, s.Makes path omode d name ∧
  s.freeEntry d = some f

/-- **The words that an open may change**, but for the `f_dir` of the entries that it passes: those of a directory
that gets an entry with a name, the type of what is made a directory, and those of a file that is cut off. -/
def Opening (s : Fs) (path : List (BitVec 8)) (omode : Word) (a : Nat) : Prop :=
  (∃ d name, s.Makes path omode d name ∧ s.Names d a) ∨
    (omode &&& oMkdir ≠ 0 ∧ ∃ f, s.Meets path omode f ∧ ¬s.IsDir f ∧ a = fType f) ∨
    (omode &&& oTrunc ≠ 0 ∧ ∃ f, s.Meets path omode f ∧ s.Sizing f 0 a)

/-- A part of an open changes no words but these, and neither does what comes after it. -/
structure Conveys (path : List (BitVec 8)) (omode : Word) (s s' : Fs) : Prop where
  saves : Saves (fun a => s.Opening path omode a ∨ s'.Links a) s s'
  back : ∀ a, s'.Opening path omode a → s.Opening path omode a

/-- **The open spares a file**: it creates none in its entry, and is not for it with `O_MKDIR`, unless it is a
directory. -/
structure Spared (s : Fs) (path : List (BitVec 8)) (omode : Word) (e : Nat) : Prop where
  file : File s e
  slot : ∀ d, s.IsParent path omode d → s.freeEntry d ≠ some e
  target : ∀ p, s.resolve none sRoot (components path) = ⟨0, p, some e, []⟩ → omode &&& oMkdir = 0 ∨ s.IsDir e

/-- A part of the open has left the file alone, or created a file in it. -/
structure Spares (path : List (BitVec 8)) (omode : Word) (e : Nat) (s s' : Fs) : Prop where
  spared : s'.Spared path omode e
  name : s'.nameOf e = s.nameOf e
  type : s'.view (fType e) = s.view (fType e)
  left : SameFile e s s' ∨ (s.IsParent path omode e ∧ ¬s'.IsParent path omode e ∧ Retains e s s')
  lists : s.IsDir e → ∀ n ≠ [], ¬s.Makes path omode e n → s'.lookup e n = s.lookup e n
  makes : ∀ n, s'.Makes path omode e n → s.Makes path omode e n
  found : ∀ p, s'.resolve none sRoot (components path) = ⟨0, p, some e, []⟩ →
    s.resolve none sRoot (components path) = ⟨0, p, some e, []⟩

/-- The file, which is no directory, is opened with `O_TRUNC`, and has nothing in it. -/
structure CutOff (path : List (BitVec 8)) (omode : Word) (e : Nat) (s s' : Fs) : Prop where
  trunc : omode &&& oTrunc ≠ 0
  regular : ¬s.IsDir e
  opened : ∃ p, s.resolve none sRoot (components path) = ⟨0, p, some e, []⟩
  size : s'.view (fSize e) = 0

/-- **What an open leaves of a file**: all of it; a directory that a file is created in gets an entry for it, and at
most one block, and finds every other name as before; a regular file may be cut off. -/
structure Left (path : List (BitVec 8)) (omode : Word) (e : Nat) (s s' : Fs) : Prop where
  name : s'.nameOf e = s.nameOf e
  type : s'.view (fType e) = s.view (fType e)
  rest : SameFile e s s' ∨ (s.IsParent path omode e ∧ Retains e s s') ∨ CutOff path omode e s s'
  lists : s.IsDir e → ∀ n ≠ [], ¬s.Makes path omode e n → s'.lookup e n = s.lookup e n

theorem Spares.spares_left {path : List (BitVec 8)} {omode : Word} {e : Nat} {s s' : Fs}
    (h : Spares path omode e s s') :
    Left path omode e s s' := ⟨h.name, h.type, h.left.imp_right fun hp => .inl ⟨hp.1, hp.2.2⟩, h.lists⟩

end Fs

namespace Desk

/-- **The request keeps the volume.** -/
def AskSafe (d : Desk) : Fsreq → Prop
  | .openFile path omode => (0 : BitVec 8) ∉ path ∧ d.server.fs.OpenSafe path omode
  | .map fileid offset => d.Opens fileid →
    (d.server.fs.IsDir (d.file fileid) → offset.toNat / blockSize < d.server.fs.nblocks (d.file fileid)) ∧
      (nDirect ≤ offset.toNat / blockSize → d.server.fs.indirect (d.file fileid) = none → d.server.fs.Clean 1)
  | .setSize fileid size => d.Opens fileid →
    (size < d.server.fs.view (fSize (d.file fileid)) → d.server.fs.Trims (d.file fileid) size) ∧
      (d.server.fs.IsDir (d.file fileid) → size = 0 ∧ d.Apart (d.file fileid))
  | .remove path =>
    (0 : BitVec 8) ∉ path ∧ ∀ p f, d.server.fs.resolve none sRoot (components path) = ⟨0, p, some f, []⟩ →
      d.server.fs.Cuts f 0 ∧ false ∉ d.server.fs.pages ∧ d.Apart f
  | .close _ | .dirty _ _ | .sync => True

/-- **The step keeps the volume**: a client writes a block of a file that is no directory. -/
def Safe (d : Desk) : DeskAct → Prop
  | .ask rq _ => d.AskSafe rq
  | .write a _ => ∃ f i, File d.server.fs f ∧ ¬d.server.fs.IsDir f ∧ d.server.fs.blockAt f i = some (a / blockWords)

/-- **The volume is sound**, and every open file is one of its files, with its entry in the cache. -/
structure Inv (d : Desk) : Prop where
  kept : Fs.Kept d.server.fs
  files : ∀ i < maxOpen, 1 < d.refs i → File d.server.fs (d.server.oFile i) ∧ Fs.Held d.server.fs (d.server.oFile i)

end Desk

/-! ## Opening -/

variable {s s' : Fs} {d f : Nat} {srv srv' : Server} {refs : Nat → Nat} {path : List (BitVec 8)} {omode : Word}

namespace Fs

theorem Target.file (h : s.Target path f) : File s f := by
  rcases h with ⟨p, h⟩ | ⟨d, name, h, hfree⟩
  · exact (path_found h).file
  · have hd := (path_missing h).dir
    obtain ⟨i, hi, b, hb, hin⟩ := mem_listing.1 (List.mem_of_find?_eq_some hfree)
    exact .entry d i b f hd.file hd.isDir hi hb hin

section passes

variable {P : Nat → Prop} (h : Kept s) (hp : Passes P s s') (hP : ∀ f, P f → Entry s f)
include h hp hP

theorem Target.back (ht : s'.Target path f) : s.Target path f := by
  unfold Target at ht ⊢
  rw [passes_resolve h hp hP components_ne_nil none] at ht
  refine ht.imp_right fun ⟨d, name, hr, hfree⟩ => ⟨d, name, hr, ?_⟩
  rw [← passes_freeEntry h hp hP (path_missing hr).dir]
  exact hfree

theorem Creatable.passes (hc : s.Creatable path) : s'.Creatable path := by
  intro d name hr hfree
  rw [passes_resolve h hp hP components_ne_nil none] at hr
  have hd := (path_missing hr).dir
  rw [passes_freeEntry h hp hP hd] at hfree
  exact (hc d name hr hfree).passes h hp hP hd.file

theorem OpenSafe.passes (ho : s.OpenSafe path omode) : s'.OpenSafe path omode := by
  have hword : ∀ f, s.Target path f → ∀ k, 32 ≤ k → k < 45 → s'.view (f + k) = s.view (f + k) := fun f hf k _ h45 =>
    passes_word h hp hP hf.file (Nat.lt_trans h45 (by decide)) (Nat.ne_of_lt h45)
  have hdir : ∀ f, s.Target path f → (s'.IsDir f ↔ s.IsDir f) := fun f hf =>
    iff_of_eq (congrArg (· = ftypeDir) (hword f hf 33 (by decide) (by decide)))
  refine ⟨fun hm => (ho.creatable hm).passes h hp hP, fun hm f hf => ?_, fun ht f hf => ?_⟩
  · have hf := hf.back h hp hP
    exact (ho.mkdir hm f hf).imp (hdir f hf).2 fun hb => hb.congr fun k h32 h45 _ => hword f hf k h32 h45
  · have hf := hf.back h hp hP
    refine (ho.trunc ht f hf).imp (fun hb => hb.congr fun k h32 h45 _ => hword f hf k h32 h45) ?_
    rintro ⟨hnd, hm, hcuts, hpages⟩
    exact ⟨mt (hdir f hf).1 hnd, hm, hcuts.congr (hword f hf), fun hc => hpages (hp.pages.mem hc)⟩

theorem Makes.passes {name : List (BitVec 8)} (hm : s'.Makes path omode d name) : s.Makes path omode d name :=
  hm.imp_right fun hr => (passes_resolve h hp hP (@components_ne_nil path) none).symm.trans hr

theorem Meets.passes (hm : s'.Meets path omode f) : s.Meets path omode f := by
  refine hm.imp (fun ⟨p, hr⟩ => ⟨p, (passes_resolve h hp hP (@components_ne_nil path) none).symm.trans hr⟩)
    fun ⟨d, name, hmk, hfree⟩ => ?_
  have hmk := hmk.passes h hp hP
  exact ⟨d, name, hmk, (passes_freeEntry h hp hP (path_missing hmk.2).dir).symm.trans hfree⟩

end passes

theorem Meets.target (h : s.Meets path omode f) : s.Target path f :=
  h.imp_right fun ⟨d, name, hmk, hfree⟩ => ⟨d, name, hmk.2, hfree⟩

theorem Stays.links (h : Stays s s') {a : Nat} (ha : s.Links a) : s'.Links a := by
  obtain ⟨e, he, heq⟩ := ha
  exact ⟨e, h.file e he, heq⟩

theorem Conveys.refl (s : Fs) : Conveys path omode s s := ⟨.refl s _, fun _ => id⟩

theorem Conveys.trans {s'' : Fs} (h : Conveys path omode s s') (h' : Conveys path omode s' s'') (hst : Stays s' s'') :
    Conveys path omode s s'' :=
  ⟨(h.saves.mono fun _ ha => ha.imp_right hst.links).trans (h'.saves.mono fun a ha => ha.imp_left (h.back a)),
    fun a ha => h.back a (h'.back a ha)⟩

theorem Conveys.passes {P : Nat → Prop} (h : Kept s) (hp : Passes P s s') (hP : ∀ f, P f → Entry s f) :
    Conveys path omode s s' := by
  refine ⟨(passes_saves h hp hP).mono fun a ha => .inr ((h.stays_passes hp hP).links ha), fun a ha => ?_⟩
  rcases ha with ⟨d, name, hmk, ha⟩ | ⟨hm, f, hf, hd, rfl⟩ | ⟨ht, f, hf, ha⟩
  · have hmk := hmk.passes h hp hP
    have hd := (path_missing hmk.2).dir
    unfold Names at ha
    rw [passes_adds h hp hP hd, passes_freeEntry h hp hP hd] at ha
    exact .inl ⟨d, name, hmk, ha⟩
  · have hf := hf.passes h hp hP
    exact .inr (.inl ⟨hm, f, hf, mt (h.same_passes hp hP hf.target.file).dir.2 hd, rfl⟩)
  · have hf := hf.passes h hp hP
    have hsame := h.same_passes hp hP hf.target.file
    exact .inr (.inr ⟨ht, f, hf, (Sizing.congr hsame.size (h.passes hp hP).2.sNblocks hsame.holds).1 ha⟩)

/-- **What was made is found.** -/
theorem Made.resolve {name : List (BitVec 8)} (hm : Made d f name s s') (hmiss : Missing s d name)
    (hr : s.resolve none sRoot (components path) = ⟨-eNotFound, some d, none, name⟩) :
    s'.resolve none sRoot (components path) = ⟨0, some d, some f, []⟩ :=
  resolve_created components_ne_nil hmiss hm.isDir hm.lookup (fun x n hx => hm.lookups x n hx.file hx.isDir) .root hr

theorem OpenSafe.made {name : List (BitVec 8)} (ho : s.OpenSafe path omode) (hm : Made d f name s s')
    (hmiss : Missing s d name) (hr : s.resolve none sRoot (components path) = ⟨-eNotFound, some d, none, name⟩) :
    s'.OpenSafe path omode := by
  have hr' := hm.resolve hmiss hr
  have htarget : ∀ x, s'.Target path x → x = f := by
    rintro x (⟨p, hx⟩ | ⟨d', name', hx, -⟩)
    · cases hr'.symm.trans hx
      rfl
    · cases hr'.symm.trans hx
  refine ⟨fun _ d' name' hx => ?_, fun hmk x hx => ?_, fun ht x hx => ?_⟩
  · cases hr'.symm.trans hx
  · obtain rfl := htarget x hx
    rcases hm.fields with ⟨hfree, hsame⟩ | ⟨-, hzero⟩
    · have ht : s.Target path x := .inr ⟨d, name, hr, hfree⟩
      refine (ho.mkdir hmk x ht).imp (fun hd => ?_) fun hb => hb.congr fun k h32 h45 _ => hsame k h32 h45
      exact (hsame 33 (by decide) (by decide)).trans hd
    · exact .inr ⟨hzero 32 (by decide) (by decide), fun k h34 h45 => hzero k (by omega) h45⟩
  · obtain rfl := htarget x hx
    rcases hm.fields with ⟨hfree, hsame⟩ | ⟨-, hzero⟩
    · have hx : s.Target path x := .inr ⟨d, name, hr, hfree⟩
      refine (ho.trunc ht x hx).imp (fun hb => hb.congr fun k h32 h45 _ => hsame k h32 h45) ?_
      rintro ⟨hnd, hmk, hcuts, hnp⟩
      refine ⟨fun hd => hnd ?_, hmk, hcuts.congr hsame, fun hc => hnp (hm.pages.mem hc)⟩
      exact (hsame 33 (by decide) (by decide)).symm.trans hd
    · exact .inl ⟨hzero 32 (by decide) (by decide), fun k h34 h45 => hzero k (by omega) h45⟩

theorem Conveys.made {name : List (BitVec 8)} (h : Kept s) (hm : Made d f name s s') (hmiss : Missing s d name)
    (hr : s.resolve none sRoot (components path) = ⟨-eNotFound, some d, none, name⟩)
    (hbits : omode &&& oMkdir ≠ 0 ∨ omode &&& oCreat ≠ 0) : Conveys path omode s s' := by
  have hr' := hm.resolve hmiss hr
  have hmk : s.Makes path omode d name := ⟨hbits, hr⟩
  have hmeets : ∀ x, s'.Meets path omode x → x = f := by
    rintro x (⟨p, hx⟩ | ⟨d', name', ⟨-, hx⟩, -⟩)
    · cases hr'.symm.trans hx
      rfl
    · cases hr'.symm.trans hx
  refine ⟨hm.saves.mono fun a ha => ha.imp (fun ha => .inl ⟨d, name, hmk, ha⟩) hm.stays.links, fun a ha => ?_⟩
  rcases ha with ⟨d', name', ⟨-, hx⟩, -⟩ | ⟨hmkdir, x, hx, hd, rfl⟩ | ⟨ht, x, hx, ha⟩
  · cases hr'.symm.trans hx
  · obtain rfl := hmeets x hx
    rcases hm.fields with ⟨hfree, hsame⟩ | ⟨hnone, -⟩
    · refine .inr (.inl ⟨hmkdir, x, .inr ⟨d, name, hmk, hfree⟩, fun hdir => hd ?_, rfl⟩)
      exact (hsame 33 (by decide) (by decide)).trans hdir
    · exact .inl ⟨d, name, hmk, .inl (hm.added hnone 33 (by decide))⟩
  · obtain rfl := hmeets x hx
    rcases hm.fields with ⟨hfree, hsame⟩ | ⟨-, hzero⟩
    · refine .inr (.inr ⟨ht, x, .inr ⟨d, name, hmk, hfree⟩, ?_⟩)
      exact (Sizing.congr (hsame 32 (by decide) (by decide)) (hm.saves.sNblocks h.up hm.kept.up) (hm.holds hfree)).1 ha
    · exact absurd ha (Sizing.empty (hzero 32 (by decide) (by decide)))

theorem Spares.dir {e : Nat} (h : Spares path omode e s s') : s'.IsDir e ↔ s.IsDir e :=
  iff_of_eq (congrArg (· = ftypeDir) h.type)

theorem Spares.parent {e : Nat} (h : Spares path omode e s s') (hp : s'.IsParent path omode e) :
    s.IsParent path omode e := by
  obtain ⟨hbits, n, hr⟩ := hp
  exact (h.makes n ⟨hbits, hr⟩).isParent

theorem Spares.trans {e : Nat} {s'' : Fs} (h : Spares path omode e s s') (h' : Spares path omode e s' s'') :
    Spares path omode e s s'' := by
  refine ⟨h'.spared, h'.name.trans h.name, h'.type.trans h.type, ?_, fun hd n hn hno => ?_,
    fun n hm => h.makes n (h'.makes n hm),
    fun p hp => h.found p (h'.found p hp)⟩
  · rcases h.left with hsame | ⟨hp, hno, hret⟩
    · rcases h'.left with hsame' | ⟨hp', hno', hret'⟩
      · exact .inl (hsame.trans hsame')
      · exact .inr ⟨h.parent hp', hno', hsame.retains hret'⟩
    · rcases h'.left with hsame' | ⟨hp', -, -⟩
      · exact .inr ⟨hp, fun hc => hno (h'.parent hc), hret.same hsame'⟩
      · exact absurd hp' hno
  · exact (h'.lists (h.dir.2 hd) n hn fun hm => hno (h.makes n hm)).trans (h.lists hd n hn hno)

theorem Spared.refl {e : Nat} (h : s.Spared path omode e) : Spares path omode e s s :=
  ⟨h, rfl, rfl, .inl (.refl e s), fun _ _ _ _ => rfl, fun _ => id, fun _ hr => hr⟩

/-- A directory finds what it found, where it is the same, and the entries have their names. -/
theorem SameFile.finds {e : Nat} {n : List (BitVec 8)} (h : SameFile e s s') (he : File s e) (hd : s.IsDir e)
    (hnames : ∀ x, File s x → s'.nameOf x = s.nameOf x) : s'.lookup e n = s.lookup e n := by
  refine h.lookup fun x hx => hnames x ?_
  obtain ⟨i, hi, b, hb, hin⟩ := mem_listing.1 hx
  exact .entry e i b x he hd hi hb hin

theorem Spared.passes {P : Nat → Prop} {e : Nat} (hs : s.Spared path omode e) (h : Kept s) (hp : Passes P s s')
    (hP : ∀ f, P f → Entry s f) : Spares path omode e s s' := by
  have hres := passes_resolve h hp hP (@components_ne_nil path) none
  have hsame := h.same_passes hp hP hs.file
  have hmakes : ∀ d n, s'.Makes path omode d n → s.Makes path omode d n :=
    fun d n hd => hd.imp_right fun hr => hres.symm.trans hr
  refine ⟨⟨(h.stays_passes hp hP).file e hs.file, fun d hd hfree => ?_, fun p hr => ?_⟩, hsame.name,
    hsame.type, .inl hsame,
    fun hd n _ _ => hsame.finds hs.file hd fun x hx => (h.same_passes hp hP hx).name, hmakes e, fun p hr =>
      hres.symm.trans hr⟩
  · obtain ⟨hbits, name, hr⟩ := hd
    have hmk := hmakes d name ⟨hbits, hr⟩
    refine hs.slot d hmk.isParent ?_
    exact (passes_freeEntry h hp hP (path_missing hmk.2).dir).symm.trans hfree
  · rw [hres] at hr
    exact (hs.target p hr).imp_right hsame.dir.2

theorem Spared.made {e : Nat} {name : List (BitVec 8)} (hs : s.Spared path omode e) (hm : Made d f name s s')
    (hmiss : Missing s d name) (hr : s.resolve none sRoot (components path) = ⟨-eNotFound, some d, none, name⟩)
    (hbits : omode &&& oMkdir ≠ 0 ∨ omode &&& oCreat ≠ 0) : Spares path omode e s s' := by
  have hd : s.IsParent path omode d := ⟨hbits, name, hr⟩
  have hef : e ≠ f := by
    rintro rfl
    exact hm.new.elim (hs.slot d hd) fun hno => hno hs.file
  have hr' := hm.resolve hmiss hr
  have hsame : e ≠ d → SameFile e s s' := fun hed => hm.same e hs.file hed hef
  have hnone : ∀ x n, ¬s'.Makes path omode x n := by
    rintro x n ⟨-, hx⟩
    cases hr'.symm.trans hx
  have hnot : ∀ x, ¬s'.IsParent path omode x := fun x ⟨hb, n, hx⟩ => hnone x n ⟨hb, hx⟩
  refine ⟨⟨hm.file e hs.file, fun x hx => absurd hx (hnot x), fun p hx => ?_⟩, ?_, ?_, ?_,
    fun hdir n hn hno => hm.lookups e n hs.file hdir hn ?_, fun n hx => absurd hx (hnone e n), fun p hx => ?_⟩
  · cases hr'.symm.trans hx
    exact absurd rfl hef
  · by_cases hed : e = d
    · exact hed ▸ hm.dir.1
    · exact (hsame hed).name
  · by_cases hed : e = d
    · exact hed ▸ hm.dir.2
    · exact (hsame hed).type
  · by_cases hed : e = d
    · exact .inr ⟨hed ▸ hd, hnot e, hed ▸ hm.retains⟩
    · exact .inl (hsame hed)
  · rintro ⟨rfl, rfl⟩
    exact hno ⟨hbits, hr⟩
  · cases hr'.symm.trans hx
    exact absurd rfl hef

/-- **What a word of another entry** leaves alone. -/
theorem same_put {e k : Nat} {w : Word} (h : Kept s) (he : File s e) (hf : File s f) (hef : e ≠ f)
    (hk : k < fileWords) :
    SameFile e s (s.put (f + k) w) :=
  (put_edit w).same h.toOwned he fun _ ha => .inr (.inr (.inl ⟨f, hf, hef.symm, .inr ⟨k, hk, ha⟩⟩))

theorem Cutdown.same {e : Nat} (hc : Cutdown f s s') (h : Kept s) (he : File s e) (hf : File s f) (hef : e ≠ f) :
    SameFile e s s' := by
  refine hc.edit.same h.toOwned he ?_
  rintro a (hw | hw | hw)
  · exact .inl hw
  · exact .inr (.inr (.inl ⟨f, hf, hef.symm, .inl hw⟩))
  · exact .inr (.inr (.inl ⟨f, hf, hef.symm, .inr ⟨32, by decide, hw⟩⟩))

end Fs

namespace Serv

theorem onFs_run {α : Type} {x : FsM α} {r : Except Int α} (h : x srv.fs = some (r, s)) :
    onFs x srv = some (r, { srv with fs := s }) := by
  unfold onFs
  rw [h]
  rfl

theorem onFs_when {β : Type} {c : Prop} [Decidable c] {x : FsM Unit} {k : Unit → ServM β}
    (h : (if c then x else pure ()) srv.fs = some (.ok (), s)) :
    (if c then onFs x >>= k else k ()) srv = k () { srv with fs := s } := by
  by_cases hc : c
  · rw [if_pos hc] at h ⊢
    exact bind_of_ok (onFs_run h)
  · rw [if_neg hc] at h ⊢
    cases h
    rfl

theorem answer_ok {x : ServM Reply} {reply : Reply} (h : x srv = some (.ok reply, srv')) :
    answer x srv = some (.ok reply, srv') := by
  unfold answer
  rw [bind_attempt h]
  rfl

theorem answer_error {x : ServM Reply} {e : Int} (h : x srv = some (.error e, srv')) :
    answer x srv = some (.ok ⟨e, .none⟩, srv') := by
  unfold answer
  rw [bind_attempt h]
  rfl

/-- **`open_alloc`** walks no path. -/
theorem openAlloc_spec (refs : Nat → Nat) (srv : Server) : ∃ r srv', openAlloc refs srv = some (r, srv') ∧
    Passes Fs.nobody srv.fs srv'.fs ∧ srv'.oFile = srv.oFile ∧ ∀ i, r = .ok i → i < maxOpen ∧ refs i ≤ 1 := by
  unfold openAlloc
  cases hfind : (List.range maxOpen).find? fun i => decide (refs i ≤ 1) with
  | none => exact ⟨_, srv, rfl, .refl _ _, rfl, fun i hi => by cases hi⟩
  | some i =>
    have hi : i < maxOpen := List.mem_range.1 (List.mem_of_find?_eq_some hfind)
    have hr : refs i ≤ 1 := by simpa using List.find?_some hfind
    have htail : Passes Fs.nobody srv.fs { srv.fs with pages := srv.fs.pages.tail } :=
      ⟨fun _ _ => rfl, fun _ hf => hf.elim, fun _ hb => hb, fun _ => .inl, fun _ _ => rfl, rfl, rfl, rfl,
        List.tail_suffix _⟩
    by_cases h0 : refs i = 0
    · cases hp : srv.fs.pages.headD true with
      | true =>
        refine ⟨.ok i, { srv with
          fs := { srv.fs with pages := srv.fs.pages.tail }, oFf := Function.update srv.oFf i fun _ => 0 }, ?_,
          htail, rfl, fun j hj => by cases hj; exact ⟨hi, hr⟩⟩
        simp only [h0, if_true]
        exact (bind_of_ok (onFs_run (if_pos hp))).trans rfl
      | false =>
        refine ⟨.error (-eNoMem), { srv with fs := { srv.fs with pages := srv.fs.pages.tail } }, ?_, htail, rfl,
          fun j hj => by cases hj⟩
        simp only [h0, if_true]
        exact bind_of_error (onFs_run (if_neg (by rw [hp]; exact Bool.false_ne_true)))
    · refine ⟨.ok i, { srv with oFf := Function.update srv.oFf i fun _ => 0 }, ?_, .refl _ _, rfl,
        fun j hj => by cases hj; exact ⟨hi, hr⟩⟩
      simp only [h0, if_false]
      rfl

/-- **A part of an open** that opens no file: what it changes is the open's, and it spares what the open spares. -/
structure Onward (path : List (BitVec 8)) (omode : Word) (srv srv' : Server) : Prop where
  oFile : srv'.oFile = srv.oFile
  stays : Stays srv.fs srv'.fs
  conveys : Conveys path omode srv.fs srv'.fs
  spares : ∀ e, srv.fs.Spared path omode e → Spares path omode e srv.fs srv'.fs

namespace Onward

theorem refl (h : Fs.Kept srv.fs) : Onward path omode srv srv := ⟨rfl, .refl h, .refl _, fun _ he => he.refl⟩

theorem of_passes {P : Nat → Prop} (h : Fs.Kept srv.fs) (hp : Passes P srv.fs srv'.fs)
    (hP : ∀ f, P f → Entry srv.fs f) (hof : srv'.oFile = srv.oFile) : Onward path omode srv srv' :=
  ⟨hof, h.stays_passes hp hP, .passes h hp hP, fun _ he => he.passes h hp hP⟩

theorem trans {srv'' : Server} (h : Onward path omode srv srv') (h' : Onward path omode srv' srv'') :
    Onward path omode srv srv'' :=
  ⟨h'.oFile.trans h.oFile, h.stays.trans h'.stays, h.conveys.trans h'.conveys h'.stays,
    fun e he => (h.spares e he).trans (h'.spares e (h.spares e he).spared)⟩

end Onward

/-- **A file is created, or it is there**: the open is as safe as it was. -/
theorem createIf_spec (h : Fs.Kept srv.fs) (h0 : (0 : BitVec 8) ∉ path) (hs : srv.fs.OpenSafe path omode) {b : Bool}
    (hb : b = true → omode &&& oMkdir ≠ 0 ∨ omode &&& oCreat ≠ 0) :
    ∃ r srv', createIf b path srv = some (r, srv') ∧ Onward path omode srv srv' ∧
      (r = .ok () → srv'.fs.OpenSafe path omode) := by
  cases b with
  | false => exact ⟨_, srv, rfl, .refl h, fun _ => hs⟩
  | true =>
    obtain ⟨r, s₁, hrun, hres⟩ := fileCreate_spec h h0 (hs.creatable (hb rfl))
    unfold createIf
    simp only [if_true]
    rw [bind_attempt (onFs_run hrun)]
    rcases hres with ⟨d, f, name, rfl, hr, hmiss, hmade⟩ | ⟨e, rfl, hpass⟩
    · exact ⟨_, _, rfl, ⟨rfl, hmade.stays, .made h hmade hmiss hr (hb rfl), fun e he =>
        he.made hmade hmiss hr (hb rfl)⟩, fun _ => hs.made hmade hmiss hr⟩
    · have hon : Onward path omode srv { srv with fs := s₁ } := .of_passes h hpass (fun _ hf => hf) rfl
      by_cases he : e = -eFileExists
      · refine ⟨.ok (), { srv with fs := s₁ }, ?_, hon, fun _ => hs.passes h hpass fun _ hf => hf⟩
        simp only [he, if_true]
        rfl
      · refine ⟨.error e, { srv with fs := s₁ }, ?_, hon, fun hc => (by cases hc)⟩
        simp only [he, if_false]
        rfl

/-- What an open leaves: the volume, the file that it has opened, and the files that it spares. -/
structure Opened (refs : Nat → Nat) (path : List (BitVec 8)) (omode : Word) (srv srv' : Server)
    (reply : Reply) : Prop where
  stays : Stays srv.fs srv'.fs
  result : (∃ e, reply = ⟨e, .none⟩ ∧ srv'.oFile = srv.oFile) ∨ ∃ i f, i < maxOpen ∧ refs i ≤ 1 ∧
    reply = ⟨0, .openFile i⟩ ∧
    srv'.oFile = Function.update srv.oFile i f ∧ File srv'.fs f ∧ Fs.Held srv'.fs f
  saves : Saves (fun a => srv.fs.Opening path omode a ∨ srv'.fs.Links a) srv.fs srv'.fs
  spared : ∀ e, srv.fs.Spared path omode e → Left path omode e srv.fs srv'.fs

/-- An open that fails after this part. -/
theorem Onward.failed (h : Onward path omode srv srv') (e : Int) : Opened refs path omode srv srv' ⟨e, .none⟩ :=
  ⟨h.stays, .inl ⟨e, rfl, h.oFile⟩, h.conveys.saves, fun x hx => (h.spares x hx).spares_left⟩

theorem setDir_spec (h : Fs.Kept s) (hf : File s f) (hheld : Fs.Held s f) (ho : s.OpenSafe path omode)
    (ht : s.Target path f) :
    ∃ s', (if omode &&& oMkdir ≠ 0 then storeWord (fType f) ftypeDir else pure ()) s = some (.ok (), s') ∧ Stays s s' ∧
      (omode &&& oTrunc ≠ 0 → s'.Bare f ∨ (¬s'.IsDir f ∧ s'.Cuts f 0 ∧ false ∉ s'.pages)) ∧
      (Saves (fun a => omode &&& oMkdir ≠ 0 ∧ ¬s.IsDir f ∧ a = fType f) s s' ∧ ∀ a, s'.Sizing f 0 a → s.Sizing f 0 a) ∧
      (∀ e, File s e → s'.nameOf e = s.nameOf e) ∧
      ∀ e, File s e → (e = f → omode &&& oMkdir = 0 ∨ s.IsDir e) → SameFile e s s' := by
  by_cases hm : omode &&& oMkdir ≠ 0
  · rw [if_pos hm]
    have hedit : Fs.Edit (· = fType f) s (s.put (fType f) ftypeDir) := put_edit ftypeDir
    have hn := (put_free (s := s) ftypeDir (h.toOwned.touches_ne_super hf (.inl ⟨33, by decide, by decide, rfl⟩))
      (h.toOwned.touches_ne hf (.inl ⟨33, by decide, by decide, rfl⟩)).1).1
    have hsize : (s.put (fType f) ftypeDir).view (fSize f) = s.view (fSize f) :=
      hedit.view _ fun hc => absurd (Nat.add_left_cancel hc) (by decide)
    refine ⟨s.put (fType f) ftypeDir, rfl, makeDir_stays h hf hheld (ho.mkdir hm f ht),
      fun htr => .inl ?_, ⟨?_, fun a => ?_⟩,
      fun e he => ?_, fun e he hdir => ?_⟩
    · rcases ho.trunc htr f ht with hb | ⟨-, hm0, -⟩
      · refine hb.congr fun k _ _ hne => (put_edit ftypeDir).view _ fun heq => hne ?_
        exact Nat.add_left_cancel heq
      · exact absurd hm0 hm
    · refine (Saves.of_edit (put_changes (hheld 33 (by decide)) ftypeDir) fun a ha =>
        ha.1 ▸ h.toOwned.file_above hf 33).mono fun a ha => ?_
      exact ⟨hm, fun hd => ha.2 hd.symm, ha.1⟩
    · exact (Sizing.congr hsize hn (hedit.same_holds h.toOwned hf (by decide))).1
    · refine nameOf_congr fun k hk => (put_edit ftypeDir).view _ fun heq => ?_
      have hef := h.toOwned.word_sole he hf (Nat.lt_trans hk (by decide)) (show 33 < fileWords by decide) heq
      subst hef
      exact absurd (Nat.add_left_cancel heq) (Nat.ne_of_lt (Nat.lt_trans hk (by decide)))
    · by_cases hef : e = f
      · have hd : s.IsDir f := hef ▸ (hdir hef).resolve_left hm
        exact (putDir_quiet hheld hd).edit.same h.toOwned he fun _ => False.elim
      · exact same_put h he hf hef (by decide)
  · rw [if_neg hm]
    exact ⟨s, rfl, .refl h, fun htr => (ho.trunc htr f ht).imp_right fun ⟨hnd, _, hcuts, hp⟩ => ⟨hnd, hcuts, hp⟩,
      ⟨.refl s _, fun _ => id⟩, fun _ _ => rfl, fun e _ _ => .refl e s⟩

theorem cutOff_spec (h : Fs.Kept s) (hf : File s f) (hheld : Fs.Held s f)
    (ht : omode &&& oTrunc ≠ 0 → s.Bare f ∨ (¬s.IsDir f ∧ s.Cuts f 0 ∧ false ∉ s.pages)) :
    ∃ s', (if omode &&& oTrunc ≠ 0 then fileSetSize f 0 else pure ()) s = some (.ok (), s') ∧ Stays s s' ∧
      Saves (fun a => omode &&& oTrunc ≠ 0 ∧ s.Sizing f 0 a) s s' ∧ (∀ e, File s e → s'.nameOf e = s.nameOf e) ∧
      ∀ e, File s e → SameFile e s s' ∨
        (e = f ∧ omode &&& oTrunc ≠ 0 ∧ ¬s.IsDir e ∧ s'.view (fType e) = s.view (fType e) ∧
        s'.view (fSize e) = 0) := by
  by_cases hm : omode &&& oTrunc ≠ 0
  · rw [if_pos hm]
    have htrim : 0 < s.view (fSize f) → s.Trims f 0 := by
      intro hlt
      rcases ht hm with hb | ⟨-, hcuts, hp⟩
      · rw [hb.size] at hlt
        exact absurd hlt (by decide)
      · exact hcuts.trims hp
    obtain ⟨s', hrun, hres⟩ := fileSetSize_resizes h.toSound hf hheld (h.linked hf) htrim
    have hcut := h.resized hf (fun _ => rfl) hres
    have hview : ∀ k < 34, k ≠ 32 → s'.view (f + k) = s.view (f + k) := fun k hk hne =>
      hcut.view h.toOwned hf hf (Nat.lt_trans hk (by decide)) (.inr (.inl ⟨hk, hne⟩))
    have hname : s'.nameOf f = s.nameOf f :=
      nameOf_congr fun k hk => hview k (Nat.lt_trans hk (by decide)) (Nat.ne_of_lt hk)
    refine ⟨s', hrun, hcut.stays h hf fun hd => (ht hm).resolve_right fun hc => hc.1 hd,
      (hres.saves h.toOwned hf).mono fun a ha => ⟨hm, ha⟩, fun e he => ?_, fun e he => ?_⟩
    · by_cases hef : e = f
      · exact hef ▸ hname
      · exact (hcut.same h he hf hef).name
    · by_cases hef : e = f
      · subst hef
        rcases ht hm with hb | ⟨hnd, -⟩
        · refine .inl ⟨hname, hview 33 (by decide) (by decide), hres.size.trans hb.size.symm,
            funext fun w => hres.keeps w fun hc => ?_,
            fun _ i b hat => ?_⟩
          · have hlt := hc.1
            rw [hb.size] at hlt
            exact absurd hlt (by decide)
          · cases (hb.holds (.block i)).symm.trans hat
        · exact .inr ⟨rfl, hm, hnd, hview 33 (by decide) (by decide), hres.size⟩
      · exact .inl (hcut.same h he hf hef)
  · rw [if_neg hm]
    exact ⟨s, rfl, .refl h, .refl s _, fun _ _ => rfl, fun e _ => .inl (.refl e s)⟩

theorem opened_spec {f i : Nat} {t : Fs}
    (hdir : (if omode &&& oMkdir ≠ 0 then storeWord (fType f) ftypeDir else pure ()) srv.fs = some (.ok (), s))
    (hcut : (if omode &&& oTrunc ≠ 0 then fileSetSize f 0 else pure ()) s = some (.ok (), t)) :
    ∃ srv', (do
        if omode &&& oMkdir ≠ 0 then onFs (storeWord (fType f) ftypeDir)
        modify fun s => { s with oFile := Function.update s.oFile i f }
        if omode &&& oTrunc ≠ 0 then onFs (fileSetSize f 0)
        fillFilefd i f omode
        pure ⟨0, .openFile i⟩ : ServM Reply) srv = some (.ok ⟨0, .openFile i⟩, srv') ∧
      srv'.fs = t ∧ srv'.oFile = Function.update srv.oFile i f ∧
      fillFilefd i f omode { srv with fs := t, oFile := Function.update srv.oFile i f } = some (.ok (), srv') := by
  refine ⟨_, (onFs_when hdir).trans ((bind_of_ok rfl).trans ((onFs_when hcut).trans ((bind_of_ok rfl).trans rfl))),
    rfl, rfl, rfl⟩

/-- **`serve_open`** -/
theorem serveOpen_spec (refs : Nat → Nat) (h : Fs.Kept srv.fs) (h0 : (0 : BitVec 8) ∉ path)
    (hs : srv.fs.OpenSafe path omode) :
    ∃ reply srv', serveOpen refs path omode srv = some (.ok reply, srv') ∧ Opened refs path omode srv srv' reply := by
  unfold serveOpen
  obtain ⟨r, s₁, halloc, hp₁, hof₁, hi⟩ := openAlloc_spec refs srv
  have hon₁ : Onward path omode srv s₁ := .of_passes h hp₁ not_nobody hof₁
  have hs₁ := hs.passes h hp₁ not_nobody
  cases r with
  | error e => exact ⟨_, s₁, answer_error (bind_of_error halloc), hon₁.failed e⟩
  | ok i =>
    obtain ⟨hi, hri⟩ := hi i rfl
    obtain ⟨r, s₂, hmk, hon₂, hs₂⟩ := createIf_spec hon₁.stays.kept h0 hs₁ (b := omode &&& oMkdir != 0)
      fun hb => .inl (by simpa using hb)
    have hon₂ := hon₁.trans hon₂
    cases r with
    | error e => exact ⟨_, s₂, answer_error ((bind_of_ok halloc).trans (bind_of_error hmk)), hon₂.failed e⟩
    | ok u =>
      have hs₂ := hs₂ rfl
      obtain ⟨r, s₃, hcr, hon₃, hs₃⟩ := createIf_spec hon₂.stays.kept h0 hs₂ (b := omode &&& oCreat != 0)
        fun hb => .inr (by simpa using hb)
      have hon₃ := hon₂.trans hon₃
      cases r with
      | error e =>
        exact ⟨_, s₃, answer_error ((bind_of_ok halloc).trans ((bind_of_ok hmk).trans (bind_of_error hcr))),
          hon₃.failed e⟩
      | ok u =>
        have hs₃ := hs₃ rfl
        have hk₃ := hon₃.stays.kept
        obtain ⟨r, t, hopen, hp, hres⟩ := fileOpen_spec hk₃ h0
        have hont : Onward path omode srv { s₃ with fs := t } :=
          hon₃.trans (.of_passes hk₃ hp (fun _ hf => hf) rfl)
        have hstt : Stays srv.fs t := hont.stays
        have hso := hs₃.passes hk₃ hp fun _ hf => hf
        rcases hres with ⟨p, f, rfl, hr, hobj, hheld⟩ | ⟨e, rfl⟩
        · have hrt : t.resolve none sRoot (components path) = ⟨0, p, some f, []⟩ :=
            (passes_resolve hk₃ hp (fun _ hf => hf) components_ne_nil none).trans hr
          have htarget : t.Target path f := .inl ⟨p, hrt⟩
          have hf : File t f := htarget.file
          obtain ⟨t₂, hdir, hst₄, htr, ⟨hsave, hback⟩, hnames, hsd⟩ := setDir_spec hstt.kept hf hheld hso htarget
          obtain ⟨t₃, hcut, hst₅, hsave', hnames', hsc⟩ := cutOff_spec hst₄.kept (hst₄.file f hf) (hst₄.held hheld) htr
          have hst := hstt.trans (hst₄.trans hst₅)
          have hsaves : Saves (fun a => srv.fs.Opening path omode a ∨ t₃.Links a) srv.fs t₃ :=
            (hont.conveys.saves.mono fun a => Or.imp_right fun ha => hst₅.links (hst₄.links ha)).trans
              ((hsave.mono fun a ha => .inl (hont.conveys.back a (.inr (.inl ⟨ha.1, f, .inl ⟨p, hrt⟩, ha.2⟩)))).trans
                (hsave'.mono fun a ha =>
                  .inl (hont.conveys.back a (.inr (.inr ⟨ha.1, f, .inl ⟨p, hrt⟩, hback a ha.2⟩)))))
          obtain ⟨srv', hrest, hfs, hof, -⟩ := @opened_spec t₂ { s₃ with fs := t } omode f i t₃ hdir hcut
          refine ⟨⟨0, .openFile i⟩, srv',
            answer_ok ((bind_of_ok halloc).trans ((bind_of_ok hmk).trans ((bind_of_ok hcr).trans
            ((bind_of_ok (onFs_run hopen)).trans hrest)))),
            by rw [hfs]; exact hst, .inr ⟨i, f, hi, hri, rfl, ?_, ?_, ?_⟩,
              by rw [hfs]; exact hsaves, fun x hx => ?_⟩
          · rw [hof, ← hon₃.oFile]
          · rw [hfs]
            exact hst₅.file f (hst₄.file f hf)
          · rw [hfs]
            exact hst₅.held (hst₄.held hheld)
          · rw [hfs]
            have hxt := hont.spares x hx
            have hdirs := hsd x hxt.spared.file fun hxf => hxt.spared.target p (hxf ▸ hrt)
            have hx₂ : File t₂ x := hst₄.file x hxt.spared.file
            rcases hsc x hx₂ with hcuts | ⟨hxf, htrunc, hreg, htype, hsize⟩
            · have hlast := hdirs.trans hcuts
              refine ⟨hlast.name.trans hxt.name, hlast.type.trans hxt.type, ?_, fun hd n hn hno => ?_⟩
              · rcases hxt.left with hsame | ⟨hp, -, hret⟩
                · exact .inl (hsame.trans hlast)
                · exact .inr (.inl ⟨hp, hret.same hlast⟩)
              · have hdt := hxt.dir.2 hd
                have hd₂ := hdirs.dir.2 hdt
                exact (hcuts.finds hx₂ hd₂ hnames').trans
                  ((hdirs.finds hxt.spared.file hdt hnames).trans (hxt.lists hd n hn hno))
            · have hnd : ¬srv.fs.IsDir x := fun hd => hreg (hdirs.dir.2 (hxt.dir.2 hd))
              exact ⟨(hnames' x hx₂).trans (hdirs.name.trans hxt.name), htype.trans (hdirs.type.trans hxt.type),
                .inr (.inr ⟨htrunc, hnd, ⟨p, hxt.found p (hxf ▸ hrt)⟩, hsize⟩), fun hd => absurd hd hnd⟩
        · exact ⟨_, { s₃ with fs := t },
            answer_error ((bind_of_ok halloc).trans ((bind_of_ok hmk).trans ((bind_of_ok hcr).trans
            (bind_of_error (onFs_run hopen))))), hont.failed e⟩

/-! ## The other requests -/

/-- What a handler of an open file answers. -/
def replyOf : Except Int ReplyPage → Reply
  | .ok page => ⟨0, page⟩
  | .error e => ⟨e, .none⟩

/-- **A handler that finds the open file** answers what its function comes back with. -/
theorem onOpen_run {fileid : Word} {op : Nat → FsM ReplyPage} {r : Except Int ReplyPage} {t : Fs}
    (hopen : fileid.toNat < maxOpen ∧ 1 < refs fileid.toNat) (h : op (srv.oFile fileid.toNat) srv.fs = some (r, t)) :
    onOpen refs fileid op srv = some (.ok (replyOf r), { srv with fs := t }) := by
  have hlook : openLookup refs fileid srv = some (.ok fileid.toNat, srv) :=
    (openLookup_eq refs fileid srv).trans (if_pos hopen)
  unfold onOpen
  cases r with
  | ok page =>
    refine answer_ok ((bind_of_ok hlook).trans ?_)
    rw [bind_read, id_eq]
    exact bind_of_ok (onFs_run h)
  | error e =>
    refine answer_error ((bind_of_ok hlook).trans ?_)
    rw [bind_read, id_eq]
    exact bind_of_error (onFs_run h)

theorem onOpen_ok {fileid : Word} {x : Nat → FsM Unit} {t : Fs} (hopen : fileid.toNat < maxOpen ∧ 1 < refs fileid.toNat)
    (h : x (srv.oFile fileid.toNat) srv.fs = some (.ok (), t)) :
    onOpen refs fileid (fun f => x f >>= fun _ => pure .none) srv = some (.ok ⟨0, .none⟩, { srv with fs := t }) :=
  onOpen_run (r := .ok .none) hopen (bind_of_ok h)

theorem onOpen_error {fileid : Word} {x : Nat → FsM Unit} {e : Int} {t : Fs}
    (hopen : fileid.toNat < maxOpen ∧ 1 < refs fileid.toNat)
    (h : x (srv.oFile fileid.toNat) srv.fs = some (.error e, t)) :
    onOpen refs fileid (fun f => x f >>= fun _ => pure .none) srv = some (.ok ⟨e, .none⟩, { srv with fs := t }) :=
  onOpen_run (r := .error e) hopen (bind_of_error h)

theorem serveMap_run {fileid offset : Word} {r : Except Int Nat} {t : Fs}
    (hopen : fileid.toNat < maxOpen ∧ 1 < refs fileid.toNat)
    (h : fileGetBlock (srv.oFile fileid.toNat) (offset.toNat / blockSize) srv.fs = some (r, t)) :
    ∃ reply, serveMap refs fileid offset srv = some (.ok reply, { srv with fs := t }) ∧
    ∀ i, reply.page ≠ .openFile i := by
  unfold serveMap
  cases r with
  | ok blk => exact ⟨_, onOpen_run hopen (bind_of_ok h), fun i hc => by cases hc⟩
  | error e => exact ⟨_, onOpen_run hopen (bind_of_error h), fun i hc => by cases hc⟩

end Serv

namespace Desk

variable {d d' : Desk}

/-- What a request leaves: the volume is kept, and the files are open that were, or are given in the reply. -/
structure Served (d : Desk) (reply : Reply) (srv : Server) : Prop where
  kept : Fs.Kept srv.fs
  files : ∀ i < maxOpen, 1 < d.refs i ∨ reply.page = .openFile i → File srv.fs (srv.oFile i) ∧
    Fs.Held srv.fs (srv.oFile i)

theorem Inv.served (h : Inv d) {reply : Reply} (hpage : ∀ i, reply.page ≠ .openFile i) {t : Fs}
    (hst : Stays d.server.fs t) :
    Served d reply { d.server with fs := t } := by
  refine ⟨hst.kept, fun i hi hr => ?_⟩
  obtain ⟨hf, hheld⟩ := h.files i hi (hr.resolve_right (hpage i))
  exact ⟨hst.file _ hf, hst.held hheld⟩

theorem refused {rq : Fsreq} {fileid : Word} (hrq : rq.fileid = some fileid) (hno : ¬d.Opens fileid) :
    serveTable d.refs rq d.server = some (.ok ⟨-eInval, .none⟩, d.server) :=
  serveTable_refused hrq ((openLookup_eq d.refs fileid d.server).trans (if_neg hno))

/-- **A safe request is served.** -/
theorem Inv.ask (h : Inv d) {rq : Fsreq} (hs : d.AskSafe rq) :
    ∃ reply srv, serveTable d.refs rq d.server = some (.ok reply, srv) ∧ Served d reply srv := by
  have hnone : ∀ {e : Int} {i : Nat}, (⟨e, .none⟩ : Reply).page ≠ .openFile i := fun hc => by cases hc
  have hkept := h.kept
  -- a request for a file that is not open is refused, and one that is open is a file of the volume
  have hfile : ∀ {rq : Fsreq} {fileid : Word}, rq.fileid = some fileid →
      (d.Opens fileid → File d.server.fs (d.file fileid) →
      Fs.Held d.server.fs (d.file fileid) → ∃ reply srv, serveTable d.refs rq d.server = some (.ok reply, srv) ∧
        Served d reply srv) →
      ∃ reply srv, serveTable d.refs rq d.server = some (.ok reply, srv) ∧ Served d reply srv := by
    intro rq fileid hrq hyes
    by_cases hopen : d.Opens fileid
    · obtain ⟨hf, hheld⟩ := h.files _ hopen.1 hopen.2
      exact hyes hopen hf hheld
    · exact ⟨_, _, refused hrq hopen, h.served (fun _ => hnone) (.refl hkept)⟩
  cases rq with
  | openFile path omode =>
    obtain ⟨reply, srv, hrun, hst, hres, -⟩ := Serv.serveOpen_spec d.refs hkept hs.1 hs.2
    refine ⟨reply, srv, hrun, hst.kept, fun i hi hr => ?_⟩
    rcases hres with ⟨e, rfl, hof⟩ | ⟨j, f, hj, hrj, rfl, hof, hf, hheld⟩
    · obtain ⟨hf, hheld⟩ := h.files i hi (hr.resolve_right hnone)
      rw [hof]
      exact ⟨hst.file _ hf, hst.held hheld⟩
    · rw [hof]
      by_cases hij : i = j
      · subst hij
        rw [Function.update_self]
        exact ⟨hf, hheld⟩
      · obtain ⟨hfi, hheldi⟩ := h.files i hi (hr.resolve_right fun hc => hij (ReplyPage.openFile.inj hc).symm)
        rw [Function.update_of_ne hij]
        exact ⟨hst.file _ hfi, hst.held hheldi⟩
  | map fileid offset =>
    refine hfile rfl fun hopen hf hheld => ?_
    obtain ⟨hdir, hclean⟩ := hs hopen
    obtain ⟨r, t, hrun, hst⟩ := fileGetBlock_stays hkept hf hheld hdir hclean
    obtain ⟨reply, hserve, hpage⟩ := Serv.serveMap_run hopen hrun
    exact ⟨reply, _, hserve, h.served hpage hst⟩
  | setSize fileid size =>
    refine hfile rfl fun hopen hf hheld => ?_
    obtain ⟨htrim, hdir⟩ := hs hopen
    obtain ⟨t, hrun, hcut, -⟩ := fileSetSize_cuts hkept hf hheld htrim fun hd => (hdir hd).1
    refine ⟨_, _, Serv.onOpen_ok (x := fun f => fileSetSize f size) hopen hrun, hkept.cut hf hcut, fun i hi hr => ?_⟩
    have hri : 1 < d.refs i := hr.resolve_right hnone
    obtain ⟨hfi, hheldi⟩ := h.files i hi hri
    refine ⟨(hcut.file _ hfi).resolve_right fun hb => ?_, hcut.edit.held hheldi⟩
    exact (hdir (below_start hb).1).2 i hi hri hb
  | close fileid =>
    refine hfile rfl fun hopen hf hheld => ?_
    obtain ⟨t, hrun, hq⟩ := fileClose_quiet hkept hf hheld
    exact ⟨_, _, Serv.onOpen_ok (x := fileClose) hopen hrun, h.served (fun _ => hnone) (hkept.stays_quiet hq)⟩
  | dirty fileid offset =>
    refine hfile rfl fun hopen hf hheld => ?_
    obtain ⟨r, t, hrun, hq⟩ := fileDirty_quiet hkept.toOwned hf hheld offset
    cases r with
    | ok u =>
      exact ⟨_, _, Serv.onOpen_ok (x := fun f => fileDirty f offset) hopen hrun,
        h.served (fun _ => hnone) (hkept.stays_quiet hq)⟩
    | error e =>
      exact ⟨_, _, Serv.onOpen_error (x := fun f => fileDirty f offset) hopen hrun,
        h.served (fun _ => hnone) (hkept.stays_quiet hq)⟩
  | remove path =>
    obtain ⟨r, t, hrun, hrem⟩ := fileRemove_removes hkept hs.1 fun p f hr => ⟨(hs.2 p f hr).1, (hs.2 p f hr).2.1⟩
    have hserved : ∀ e, Served d ⟨e, .none⟩ { d.server with fs := t } := fun e => by
      refine ⟨hrem.kept, fun i hi hr => ?_⟩
      have hri : 1 < d.refs i := hr.resolve_right hnone
      obtain ⟨hfi, hheldi⟩ := h.files i hi hri
      refine ⟨(hrem.file _ hfi).resolve_right ?_, fun k hk => hrem.maps _ (hheldi k hk)⟩
      rintro ⟨p, f, hr, hb⟩
      exact (hs.2 p f hr).2.2 i hi hri hb
    cases r with
    | ok u => exact ⟨_, _, Serv.answer_ok (bind_of_ok (Serv.onFs_run hrun)), hserved 0⟩
    | error e => exact ⟨_, _, Serv.answer_error (bind_of_error (Serv.onFs_run hrun)), hserved e⟩
  | sync =>
    obtain ⟨t, hrun, hq⟩ := fsSync_quiet hkept.toOwned
    exact ⟨⟨0, .none⟩, _, bind_of_ok (Serv.onFs_run hrun), h.served (fun _ => hnone) (hkept.stays_quiet hq)⟩

/-- **A safe step keeps the volume.** -/
theorem Inv.step {a : DeskAct} (h : Inv d) (hs : d.Safe a) (ht : d.step a = some d') : Inv d' := by
  cases a with
  | ask rq refs =>
    obtain ⟨reply, srv, hrun, hserved⟩ := h.ask hs
    unfold Desk.step at ht
    simp only [hrun, Option.bind_some] at ht
    by_cases hsh : d.shared refs reply.page = true
    · rw [if_pos hsh] at ht
      cases ht
      refine ⟨hserved.kept, fun i hi hr => hserved.files i hi ?_⟩
      have hall := List.all_eq_true.1 hsh i (List.mem_range.2 hi)
      have hr : ¬refs i ≤ 1 := Nat.not_le.2 hr
      simpa [hr] using hall
    · rw [if_neg hsh] at ht
      cases ht
  | write a w =>
    unfold Desk.step at ht
    by_cases hm : d.server.fs.mapped (a / blockWords) = true
    · simp only [hm, if_true] at ht
      cases ht
      obtain ⟨f, i, hf, hreg, hb⟩ := hs
      obtain ⟨hk, hstill⟩ := h.kept.write hf hreg hb rfl (put_edit w)
      exact ⟨hk, fun j hj hr => ⟨(hstill.file _).2 (h.files j hj hr).1, (h.files j hj hr).2⟩⟩
    · simp only [hm] at ht
      cases ht

/-- **In every state of a safe run the volume is sound, and the open files are its files.** -/
theorem inv_run (h : Run Init step Safe d) : Inv d :=
  Run.invariant Inv (fun _ hd => ⟨hd.1, fun i hi hr => absurd hr (Nat.not_lt.2 (hd.2 i hi))⟩)
    (fun _ _ _ hi hs ht => hi.step hs ht) d h

end Desk

end Mos
