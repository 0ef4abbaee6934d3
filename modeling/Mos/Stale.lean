import Mos.Desk
/-!
# Stale — the words that a request may leave different from the disk

Nothing marks a block but `serve_dirty`, so a word that a request changes gets to the disk where a client marks its
block.  For each request the words are named that it may change, in terms of the volume before it: a directory that
gets an entry, the slots and the sizes, the bitmap where a block is freed.  All others are as secure after the request
as they were.
-/
namespace Mos

open Fallible FilePtr Fs

namespace Desk

variable {d d' : Desk}

/-- **The words that a step may change.**  Where a block is allocated, `alloc_block` writes the bitmap to the disk. -/
def Changes (d d' : Desk) : DeskAct → Nat → Prop
  | .write a _, c => c = a
  | .ask (.openFile path omode) _, c => d.server.fs.Opening path omode c ∨ d'.server.fs.Links c
  | .ask (.map fileid offset) _, c =>
    d.Opens fileid ∧ d.server.fs.Getting d'.server.fs (d.file fileid) (offset.toNat / blockSize) c
  | .ask (.setSize fileid size) _, c => d.Opens fileid ∧ d.server.fs.Sizing (d.file fileid) size c
  | .ask (.remove path) _, c => d.server.fs.Links c ∨
    ∃ p f, d.server.fs.resolve none sRoot (components path) = ⟨0, p, some f, []⟩ ∧ d.server.fs.Clearing f c
  | .ask (.close _) _, _ => False
  | .ask (.dirty _ _) _, _ => False
  | .ask .sync _, _ => False

theorem quiet_saves {s s' : Fs} {W : Nat → Prop} (h : Quiet s s') : Saves W s s' :=
  (Saves.of_edit h.edit fun _ => False.elim).mono fun _ => False.elim

theorem clearing_passes {s s' : Fs} {P : Nat → Prop} {f c : Nat} (h : Fs.Kept s) (hp : Passes P s s')
    (hP : ∀ f, P f → Entry s f) (hf : File s f) (hc : s'.Clearing f c) : s.Clearing f c := by
  have hsame := h.same_passes hp hP hf
  unfold Clearing at hc ⊢
  rw [Cutting.congr hsame.size (h.passes hp hP).2.sNblocks hsame.holds, hsame.size] at hc
  exact hc

/-- **A safe request leaves the words that it does not change as secure as they were.** -/
theorem Inv.ask_saves (h : Inv d) {rq : Fsreq} (hs : d.AskSafe rq) {reply : Reply} {srv : Server}
    (hrun : serveTable d.refs rq d.server = some (.ok reply, srv)) (refs : Nat → Nat) :
    Saves (Changes d ⟨srv, refs⟩ (.ask rq refs)) d.server.fs srv.fs := by
  have hkept := h.kept
  -- a request for a file that is not open is refused, and changes nothing
  have hrefused : ∀ {fileid : Word}, rq.fileid = some fileid → ¬d.Opens fileid →
      Saves (Changes d ⟨srv, refs⟩ (.ask rq refs)) d.server.fs srv.fs := by
    intro fileid hrq hno
    cases hrun.symm.trans (refused hrq hno)
    exact .refl _ _
  have hopened : ∀ fileid, d.Opens fileid → File d.server.fs (d.file fileid) ∧ Fs.Held d.server.fs (d.file fileid) :=
    fun fileid hopen => h.files _ hopen.1 hopen.2
  cases rq with
  | openFile path omode =>
    obtain ⟨reply', srv', hrun', hres⟩ := Serv.serveOpen_spec d.refs hkept hs.1 hs.2
    cases hrun.symm.trans hrun'
    exact hres.saves
  | map fileid offset =>
    by_cases hopen : d.Opens fileid
    · obtain ⟨hf, hheld⟩ := hopened fileid hopen
      obtain ⟨hdir, hclean⟩ := hs hopen
      obtain ⟨r, t, hget, -⟩ := fileGetBlock_stays hkept hf hheld hdir hclean
      obtain ⟨reply', hserve, -⟩ := Serv.serveMap_run hopen hget
      cases hrun.symm.trans hserve
      exact (fileGetBlock_saves hkept hf hheld hdir hclean hget).mono fun c hc => ⟨hopen, hc⟩
    · exact hrefused rfl hopen
  | setSize fileid size =>
    by_cases hopen : d.Opens fileid
    · obtain ⟨hf, hheld⟩ := hopened fileid hopen
      obtain ⟨t, hset, hres⟩ := fileSetSize_resizes hkept.toSound hf hheld (hkept.linked hf) (hs hopen).1
      cases hrun.symm.trans (Serv.onOpen_ok (x := fun f => fileSetSize f size) hopen hset)
      exact (hres.saves hkept.toOwned hf).mono fun c hc => ⟨hopen, hc⟩
    · exact hrefused rfl hopen
  | close fileid =>
    by_cases hopen : d.Opens fileid
    · obtain ⟨hf, hheld⟩ := hopened fileid hopen
      obtain ⟨t, hclose, hq⟩ := fileClose_quiet hkept hf hheld
      cases hrun.symm.trans (Serv.onOpen_ok (x := fileClose) hopen hclose)
      exact quiet_saves hq
    · exact hrefused rfl hopen
  | dirty fileid offset =>
    by_cases hopen : d.Opens fileid
    · obtain ⟨hf, hheld⟩ := hopened fileid hopen
      obtain ⟨r, t, hdirty, hq⟩ := fileDirty_quiet hkept.toOwned hf hheld offset
      cases r with
      | ok u =>
        cases hrun.symm.trans (Serv.onOpen_ok (x := fun f => fileDirty f offset) hopen hdirty)
        exact quiet_saves hq
      | error e =>
        cases hrun.symm.trans (Serv.onOpen_error (x := fun f => fileDirty f offset) hopen hdirty)
        exact quiet_saves hq
    · exact hrefused rfl hopen
  | remove path =>
    obtain ⟨r, s₁, t, hrem, hp, hres⟩ := fileRemove_cases hkept hs.1 fun p f hr => ⟨(hs.2 p f hr).1, (hs.2 p f hr).2.1⟩
    have hsaves : Saves (Changes d ⟨{ d.server with fs := t }, refs⟩ (.ask (.remove path) refs)) d.server.fs t := by
      have hwalk := passes_saves hkept hp walk_entry
      rcases hres with rfl | ⟨p, f, t', u, hr, hobj, hclear⟩
      · exact hwalk.mono fun c => .inl
      · have hstays := hkept.stays_passes hp walk_entry
        refine (hwalk.mono fun c => .inl).trans
          ((hclear.saves hstays.kept.toOwned (hstays.file f hobj.file)).mono fun c hc => ?_)
        exact .inr ⟨p, f, hr, clearing_passes hkept hp walk_entry hobj.file hc⟩
    cases r with
    | ok u =>
      cases hrun.symm.trans (Serv.answer_ok (bind_of_ok (Serv.onFs_run hrem)))
      exact hsaves
    | error e =>
      cases hrun.symm.trans (Serv.answer_error (bind_of_error (Serv.onFs_run hrem)))
      exact hsaves
  | sync =>
    obtain ⟨t, hsync, hq⟩ := fsSync_quiet hkept.toOwned
    cases hrun.symm.trans (show serveTable d.refs .sync d.server = some (.ok ⟨0, .none⟩, { d.server with fs := t }) from
      bind_of_ok (Serv.onFs_run hsync))
    exact quiet_saves hq

/-- **A safe step leaves the words that it does not change as secure as they were.** -/
theorem Inv.saves {a : DeskAct} (h : Inv d) (hs : d.Safe a) (ht : d.step a = some d') :
    Saves (Changes d d' a) d.server.fs d'.server.fs := by
  cases a with
  | ask rq refs =>
    obtain ⟨reply, srv, hrun, -⟩ := h.ask hs
    unfold Desk.step at ht
    simp only [hrun, Option.bind_some] at ht
    by_cases hsh : d.shared refs reply.page = true
    · rw [if_pos hsh] at ht
      cases ht
      exact h.ask_saves hs hrun refs
    · rw [if_neg hsh] at ht
      cases ht
  | write a w =>
    unfold Desk.step at ht
    by_cases hm : d.server.fs.mapped (a / blockWords) = true
    · simp only [hm, if_true] at ht
      cases ht
      obtain ⟨f, i, hf, -, hb⟩ := hs
      have hdata := h.kept.toOwned.data_block hf hb
      refine .of_edit (put_edit w) fun c hc => above_of_block ?_
      rw [show c = a from hc]
      exact Nat.le_trans (by decide) (Nat.le_trans (reserved_ge _) hdata.le)
    · simp only [hm] at ht
      cases ht

end Desk

/-! ## What is stale -/

/-- The server, and the words that may have changed and have not been written. -/
structure Syncing where
  desk : Desk
  stale : Nat → Prop

namespace Syncing

variable {l l' : Syncing}

/-- A sync writes the blocks that are marked. -/
def staleAfter (l : Syncing) (d' : Desk) : DeskAct → Nat → Prop
  | .ask .sync _, c => l.stale c ∧ ¬l.desk.server.fs.Marked (c / blockWords)
  | a, c => l.stale c ∨ Desk.Changes l.desk d' a c

def step (l : Syncing) (a : DeskAct) : Option Syncing := (l.desk.step a).map fun d' => ⟨d', l.staleAfter d' a⟩

/-- The server has just started: the volume is sound, no file is open, and the pages are as the disk. -/
def Init (l : Syncing) : Prop :=
  l.desk.Init ∧ l.desk.server.fs.view blockWords = fsMagic ∧ l.desk.server.fs.reserved ≤ l.desk.server.fs.sNblocks ∧
    (∀ a, l.desk.server.fs.view a = l.desk.server.fs.disk a) ∧ ∀ a, ¬l.stale a

/-- **What is not stale gets to the disk with the next sync, or is there.** -/
structure Inv (l : Syncing) : Prop where
  desk : Desk.Inv l.desk
  magic : l.desk.server.fs.view blockWords = fsMagic
  fits : l.desk.server.fs.reserved ≤ l.desk.server.fs.sNblocks
  secure : ∀ a, ¬l.stale a → l.desk.server.fs.Secure a

theorem Init.inv (h : Init l) : Inv l :=
  ⟨Desk.inv_run (.start _ h.1), h.2.1, h.2.2.1, fun a _ => .inr (h.2.2.2.1 a)⟩

theorem Inv.step {a : DeskAct} (h : Inv l) (hs : l.desk.Safe a) (ht : l.step a = some l') : Inv l' := by
  unfold Syncing.step at ht
  obtain ⟨d', hd, rfl⟩ := Option.map_eq_some_iff.1 ht
  have hdesk := h.desk.step hs hd
  have hsaves := h.desk.saves hs hd
  have hn := hsaves.sNblocks h.desk.kept.up hdesk.kept.up
  have hfits : d'.server.fs.reserved ≤ d'.server.fs.sNblocks := by
    unfold reserved
    rw [hn]
    exact h.fits
  refine ⟨hdesk, (hsaves.head _ (by decide)).trans h.magic, hfits, fun c hc => ?_⟩
  by_cases hsync : ∃ refs, a = .ask .sync refs
  · obtain ⟨refs, rfl⟩ := hsync
    refine hsaves.secure c id ?_
    by_cases hst : l.stale c
    · exact .inl (not_not.1 fun hm => hc ⟨hst, hm⟩)
    · exact h.secure c hst
  · have hafter : l.staleAfter d' a c ↔ l.stale c ∨ Desk.Changes l.desk d' a c := by
      unfold staleAfter
      split
      · exact absurd ⟨_, rfl⟩ hsync
      · exact Iff.rfl
    have hc : ¬(l.stale c ∨ Desk.Changes l.desk d' a c) := mt hafter.2 hc
    exact hsaves.secure c (fun hch => hc (.inr hch)) (h.secure c fun hst => hc (.inl hst))

end Syncing

end Mos
