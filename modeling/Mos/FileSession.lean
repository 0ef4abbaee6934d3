import Mos.ByteArray
/-!
# FileSession — one client and one file

A run of `open`, `seek`, `write`, `read` and `close` beside an array of bytes: the array is changed by what a write
puts into it, and by nothing else.  Memory and the disk are not exhausted, and the file is not made smaller.
-/
namespace Mos

open Fallible FilePtr Fs Client

/-- A call of the client; the buffer is at `va`. -/
inductive FileCall where
  | openFile (omode : Word)
  | seek (offset : Word)
  | write (va : Word) (buf : List (BitVec 8))
  | read (va n : Word)
  | close

/-- The client, and the array of bytes. -/
structure FileSession where
  client : Client
  /-- The descriptor, and the mode that it was opened with. -/
  fd : Option (Word × Word)
  file : Contents
  offset : Nat

namespace FileSession

variable (drivers : Drivers) (path : List (BitVec 8))

/-- A call, and what it is for the array; an error code changes nothing there. -/
def step (t : FileSession) : FileCall → Option FileSession
  | .openFile omode =>
    match t.fd with
    | some _ => none
    | none =>
      (Client.openFile path omode t.client).map fun r =>
        match r.1 with
        | .ok fd =>
          { t with client := r.2, fd := some (fd, omode), offset := if omode &&& oAppend ≠ 0 then t.file.size else 0 }
        | .error _ => { t with client := r.2 }
  | .seek offset =>
    t.fd.bind fun d => (Client.seek d.1 offset t.client).map fun r =>
      match r.1 with
      | .ok _ => { t with client := r.2, offset := offset.toNat }
      | .error _ => { t with client := r.2 }
  | .write va buf =>
    t.fd.bind fun d => (Client.write drivers d.1 va buf t.client).map fun r =>
      match r.1 with
      | .ok _ => { t with client := r.2, file := t.file.write t.offset buf, offset := t.offset + buf.length }
      | .error _ => { t with client := r.2 }
  | .read va n =>
    t.fd.bind fun d => (Client.read drivers d.1 va n t.client).map fun r =>
      match r.1 with
      | .ok (_, buf) => { t with client := r.2, offset := t.offset + buf.length }
      | .error _ => { t with client := r.2 }
  | .close =>
    t.fd.bind fun d => (Client.close d.1 t.client).map fun r =>
      match r.1 with
      | .ok _ => { t with client := r.2, fd := none }
      | .error _ => { t with client := r.2 }

/-- **The volume is one in which nothing was removed or made smaller**: what is free has zeroes in it, as have the
rest of the last block of the file and the entry that it would get.  No file is open. -/
def Init (t : FileSession) : Prop := t.fd = none ∧ Closed path t.file t.client ∧ t.file.Bounded

/-- The call comes back with the code of memory or of the disk. -/
def Exhausts {α : Type} (r : Option (Except Int α × Client)) : Prop := ∃ e c, r = some (.error e, c) ∧ Exhausted e

/-- **The condition on a call**: there is memory and room on the disk, offsets and ends are in the largest file, the
buffer has room for what is read, and an open makes no directory and cuts nothing off. -/
def Safe (t : FileSession) : FileCall → Prop
  | .openFile omode =>
    omode &&& oMkdir = 0 ∧ omode &&& oTrunc = 0 ∧ (omode &&& oCreat ≠ 0 → t.client.srv.fs.Creatable path) ∧
      ¬Exhausts (Client.openFile path omode t.client)
  | .seek offset => offset.toNat ≤ maxFileSize
  | .write va buf =>
    t.offset + buf.length ≤ maxFileSize ∧ ∀ d, t.fd = some d → ¬Exhausts (Client.write drivers d.1 va buf t.client)
  | .read va n => t.offset + n.toNat < 2 ^ 32 ∧ InUser utop va (t.file.read t.offset n.toNat).length
  | .close => ∀ d, t.fd = some d → ¬Exhausts (Client.close d.1 t.client)

/-- **The file is an array of bytes**: what is read is what the array has, as far as it goes, and a write that succeeds
writes all. -/
def IsArray (t : FileSession) : Prop := ∀ fd omode, t.fd = some (fd, omode) →
  (∀ va n : Word, omode &&& oAccmode ≠ oWronly → t.offset + n.toNat < 2 ^ 32 →
    InUser utop va (t.file.read t.offset n.toNat).length →
    ∃ c', Client.read drivers fd va n t.client =
      some (.ok (BitVec.ofNat 32 (t.file.read t.offset n.toNat).length, t.file.read t.offset n.toNat), c')) ∧
  ∀ va buf r c', t.offset + buf.length ≤ maxFileSize → Client.write drivers fd va buf t.client = some (.ok r, c') →
    r = BitVec.ofNat 32 buf.length

/-- What a run keeps. -/
structure Inv (t : FileSession) : Prop where
  bounded : t.file.Bounded
  closed : t.fd = none → Closed path t.file t.client
  opened : ∀ fd omode, t.fd = some (fd, omode) → ∃ f j, Descriptor path f fd j t.file omode t.offset t.client

variable {drivers path} {t t' : FileSession}

theorem Inv.of_descriptor {fd omode : Word} {f j : Nat} (hb : t.file.Bounded) (hfd : t.fd = some (fd, omode))
    (h : Descriptor path f fd j t.file omode t.offset t.client) : Inv path t := by
  refine ⟨hb, fun hc => ?_, fun fd' omode' hc => ?_⟩
  · cases hfd.symm.trans hc
  · cases hfd.symm.trans hc
    exact ⟨f, j, h⟩

theorem Inv.of_closed (hb : t.file.Bounded) (hfd : t.fd = none) (h : Closed path t.file t.client) : Inv path t :=
  ⟨hb, fun _ => h, fun _ _ hc => by cases hfd.symm.trans hc⟩

theorem Inv.step {a : FileCall} (h : Inv path t) (h0 : (0 : BitVec 8) ∉ path) (hs : t.Safe drivers path a)
    (ht : t.step drivers path a = some t') : Inv path t' := by
  cases a with
  | openFile omode =>
    unfold FileSession.step at ht
    cases hfd : t.fd with
    | some d =>
      rw [hfd] at ht
      cases ht
    | none =>
      rw [hfd] at ht
      obtain ⟨⟨r, c⟩, hrun, rfl⟩ := Option.map_eq_some_iff.1 ht
      obtain ⟨hmkdir, htrunc, hc, hex⟩ := hs
      rcases (h.closed hfd).openFile h0 hmkdir htrunc hc h.bounded.size hrun
          with ⟨e, rfl, hexh | hclosed⟩ | ⟨i, f, j, rfl, hd⟩
      · exact absurd ⟨e, c, hrun, hexh⟩ hex
      · exact .of_closed h.bounded rfl hclosed
      · exact .of_descriptor h.bounded rfl hd
  | seek offset =>
    obtain ⟨⟨fd, omode⟩, hfd, ht⟩ := Option.bind_eq_some_iff.1 ht
    obtain ⟨⟨r, c⟩, hrun, rfl⟩ := Option.map_eq_some_iff.1 ht
    obtain ⟨f, j, hd⟩ := h.opened fd omode hfd
    obtain ⟨c', hseek, hd'⟩ := hd.seek offset
    cases hrun.symm.trans hseek
    exact .of_descriptor h.bounded hfd hd'
  | write va buf =>
    obtain ⟨⟨fd, omode⟩, hfd, ht⟩ := Option.bind_eq_some_iff.1 ht
    obtain ⟨⟨r, c⟩, hrun, rfl⟩ := Option.map_eq_some_iff.1 ht
    obtain ⟨f, j, hd⟩ := h.opened fd omode hfd
    obtain ⟨hle, hex⟩ := hs
    obtain ⟨hrdonly, hwrites⟩ := hd.write h.bounded.size hle hrun
    by_cases hmode : omode &&& oAccmode = oRdonly
    · obtain ⟨rfl, rfl⟩ := hrdonly hmode
      exact .of_descriptor h.bounded hfd hd
    · rcases hwrites hmode with ⟨e, rfl, hexh⟩ | ⟨rfl, hd'⟩
      · exact absurd ⟨e, c, hrun, hexh⟩ (hex _ hfd)
      · exact .of_descriptor (h.bounded.write hle) hfd hd'
  | read va n =>
    obtain ⟨⟨fd, omode⟩, hfd, ht⟩ := Option.bind_eq_some_iff.1 ht
    obtain ⟨⟨r, c⟩, hrun, rfl⟩ := Option.map_eq_some_iff.1 ht
    obtain ⟨f, j, hd⟩ := h.opened fd omode hfd
    obtain ⟨r', c', hread, hwronly, hreads⟩ := hd.read drivers h.bounded.size hs.1 hs.2
    cases hrun.symm.trans hread
    by_cases hmode : omode &&& oAccmode = oWronly
    · obtain ⟨rfl, rfl⟩ := hwronly hmode
      exact .of_descriptor h.bounded hfd hd
    · obtain ⟨rfl, hd'⟩ := hreads hmode
      exact .of_descriptor h.bounded hfd hd'
  | close =>
    obtain ⟨⟨fd, omode⟩, hfd, ht⟩ := Option.bind_eq_some_iff.1 ht
    obtain ⟨⟨r, c⟩, hrun, rfl⟩ := Option.map_eq_some_iff.1 ht
    obtain ⟨f, j, hd⟩ := h.opened fd omode hfd
    rcases hd.close h.bounded.size hrun with ⟨e, rfl, hexh⟩ | ⟨rfl, hclosed⟩
    · exact absurd ⟨e, c, hrun, hexh⟩ (hs _ hfd)
    · exact .of_closed h.bounded rfl hclosed

theorem inv_run (h0 : (0 : BitVec 8) ∉ path) (h : Run (Init path) (step drivers path) (Safe drivers path) t) :
    Inv path t :=
  Run.invariant (Inv path) (fun _ ⟨hfd, hclosed, hb⟩ => .of_closed hb hfd hclosed)
    (fun _ _ _ hi hs ht => hi.step h0 hs ht) t h

/-- **In every state of a run the file is an array of bytes.** -/
theorem file_is_array (h0 : (0 : BitVec 8) ∉ path) (h : Run (Init path) (step drivers path) (Safe drivers path) t) :
    t.IsArray drivers := by
  intro fd omode hfd
  have hi := inv_run h0 h
  obtain ⟨f, j, hd⟩ := hi.opened fd omode hfd
  refine ⟨fun va n hmode hn hbuf => ?_, fun va buf r c' hle hrun => ?_⟩
  · obtain ⟨r, c', hread, -, hreads⟩ := hd.read drivers hi.bounded.size hn hbuf
    obtain ⟨rfl, -⟩ := hreads hmode
    exact ⟨c', hread⟩
  · obtain ⟨hrdonly, hwrites⟩ := hd.write hi.bounded.size hle hrun
    by_cases hmode : omode &&& oAccmode = oRdonly
    · cases (hrdonly hmode).1
    · rcases hwrites hmode with ⟨e, he, -⟩ | ⟨hr, -⟩
      · cases he
      · exact Except.ok.inj hr

/-! ## A file that is made, closed and opened again -/

/-- A machine on which nothing but files is read or written. -/
def filesOnly : Drivers := ⟨fun _ _ _ _ _ => Fallible.panic, fun _ _ _ _ _ => Fallible.panic⟩

def atBoot : FileSession :=
  ⟨⟨(Desk.atBoot []).server, fun _ => 0, fun _ => none, fun _ _ => 0, []⟩, none, ⟨0, fun _ => 0⟩, 0⟩

theorem emptyVolume_blank : AllBlank (Desk.emptyVolume []) := by
  intro c k hc hk
  have h3 : 3 ≤ c := Nat.not_lt.1 fun hlt => by
    rw [Desk.emptyVolume_low [] c hlt] at hc
    cases hc
  have hm : (Desk.emptyVolume []).mapped ((diskAddr c + k) / blockWords) = false := by
    rw [diskAddr_div c hk]
    show (c == 1 || c == 2) = false
    rw [Bool.or_eq_false_iff, beq_eq_false_iff_ne, beq_eq_false_iff_ne]
    omega
  unfold view
  rw [hm]
  rfl

theorem emptyVolume_listing : (Desk.emptyVolume []).listing sRoot = [] := by
  unfold listing
  rw [(Desk.emptyVolume_bare []).nblocks]
  rfl

theorem atBoot_init : Init [0x61] atBoot := by
  refine ⟨rfl, ⟨⟨Desk.emptyVolume_kept [], emptyVolume_blank,
    .inr ⟨fun p f hc => ?_, fun d name f hr hfree => ?_, rfl, fun _ => rfl⟩⟩,
    fun va p k hp => ?_⟩, Nat.zero_le _, fun _ _ => rfl⟩
  · cases Desk.emptyVolume_resolve.symm.trans hc
  · cases Desk.emptyVolume_resolve.symm.trans hr
    have hmem : f ∈ (Desk.emptyVolume []).listing sRoot := List.mem_of_find?_eq_some hfree
    rw [emptyVolume_listing] at hmem
    cases hmem
  · cases hp

/-- The call does not come back with the code of memory or of the disk. -/
def lives {α : Type} : Option (Except Int α × Client) → Bool
  | some (.error e, _) => e != -eNoMem && e != -eNoDisk
  | _ => true

theorem not_exhausts_of_lives {α : Type} {r : Option (Except Int α × Client)} (h : lives r = true) : ¬Exhausts r := by
  rintro ⟨e, c, rfl, hex⟩
  obtain ⟨hm, hd⟩ := Bool.and_eq_true_iff.1 h
  exact hex.elim (bne_iff_ne.1 hm) (bne_iff_ne.1 hd)

/-- A check that decides the condition, for an open that creates nothing. -/
def safeB (t : FileSession) : FileCall → Bool
  | .openFile omode =>
    decide (omode &&& oMkdir = 0) && decide (omode &&& oTrunc = 0) && decide (omode &&& oCreat = 0) &&
      lives (Client.openFile [0x61] omode t.client)
  | .seek offset => decide (offset.toNat ≤ maxFileSize)
  | .write va buf =>
    decide (t.offset + buf.length ≤ maxFileSize) && t.fd.all fun d => lives (Client.write filesOnly d.1 va buf t.client)
  | .read va n => decide (t.offset + n.toNat < 2 ^ 32 ∧ InUser utop va (t.file.read t.offset n.toNat).length)
  | .close => t.fd.all fun d => lives (Client.close d.1 t.client)

theorem safe_of_safeB (t : FileSession) (a : FileCall) (h : t.safeB a = true) : t.Safe filesOnly [0x61] a := by
  have hall : ∀ {p : Word × Word → Bool} {d : Word × Word}, t.fd.all p = true → t.fd = some d → p d = true := by
    intro p d hp hd
    rw [hd] at hp
    exact hp
  cases a with
  | openFile omode =>
    unfold safeB at h
    simp only [Bool.and_eq_true, decide_eq_true_eq] at h
    obtain ⟨⟨⟨hmkdir, htrunc⟩, hcreat⟩, hlives⟩ := h
    exact ⟨hmkdir, htrunc, fun hc => absurd hcreat hc, not_exhausts_of_lives hlives⟩
  | seek offset => exact show offset.toNat ≤ maxFileSize from of_decide_eq_true h
  | write va buf =>
    obtain ⟨hle, hlives⟩ := Bool.and_eq_true_iff.1 h
    exact ⟨of_decide_eq_true hle, fun d hd => not_exhausts_of_lives (hall hlives hd)⟩
  | read va n =>
    exact show t.offset + n.toNat < 2 ^ 32 ∧ InUser utop va (t.file.read t.offset n.toNat).length
      from of_decide_eq_true h
  | close => exact fun d hd => not_exhausts_of_lives (hall h hd)

/-- The file is made with `O_CREAT | O_RDWR`. -/
def makes : FileCall := .openFile 0x102

/-- It gets two bytes, is closed, and is opened again. -/
def reopens : List FileCall := [.write utemp [0x68, 0x69], .close, .openFile 2]

theorem file_is_array_reopened :
    ∃ t : FileSession, t.fd.isSome = true ∧ t.file.read 0 5 = [0x68, 0x69] ∧ t.IsArray filesOnly := by
  have hmade : (atBoot.step filesOnly [0x61] makes).any (fun t : FileSession => t.fd.isSome &&
      (exec (step filesOnly [0x61]) safeB reopens t).any fun t' =>
      t'.fd.isSome && decide (t'.file.read 0 5 = [0x68, 0x69])) = true := by
    decide +kernel
  have hlives : lives (Client.openFile [0x61] 0x102 atBoot.client) = true := by decide +kernel
  obtain ⟨t, ht, hrest⟩ := (Option.any_eq_true _ _).1 hmade
  obtain ⟨-, hrest⟩ := Bool.and_eq_true_iff.1 hrest
  obtain ⟨t', ht', hfacts⟩ := (Option.any_eq_true _ _).1 hrest
  obtain ⟨hopen, hread⟩ := Bool.and_eq_true_iff.1 hfacts
  have hfirst : Run (Init [0x61]) (step filesOnly [0x61]) (Safe filesOnly [0x61]) t :=
    .next atBoot makes t (.start _ atBoot_init)
      ⟨by decide, by decide, fun _ => Desk.opensFirst_safe.2.creatable (.inr (by decide)),
      not_exhausts_of_lives hlives⟩ ht
  exact ⟨t', hopen, of_decide_eq_true hread,
    file_is_array (by decide) (Run.of_exec safe_of_safeB reopens t t' hfirst ht')⟩

end FileSession

end Mos
