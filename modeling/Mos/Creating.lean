import Mos.Resizing
/-!
# Creating — what a client gets for a name

`file_create` gives a name to an entry and leaves its other fields: those of a new block are 0, and those of a removed
file are what `file_remove` left, which does not touch the type.  Where no entry can be had the answer is the code of
the walk, and the directory may have got a size for a block that it has not.
-/
namespace Mos

open Fallible FilePtr Fs

variable {s s' : Fs} {d f : Nat} {path : List (BitVec 8)}

namespace Fs

/-- **A fresh file**: it has the last component of the path as its name, and nothing else in it; its directory finds it,
and what it found before. -/
structure Fresh (path : List (BitVec 8)) (f : Nat) (s s' : Fs) : Prop where
  name : (components path).getLast? = some (s'.nameOf f)
  size : s'.view (fSize f) = 0
  type : s'.view (fType f) = ftypeReg
  slots : ∀ k, 34 ≤ k → k < 45 → s'.view (f + k) = 0
  lists : ∃ d, s.resolve none sRoot (components path) = ⟨-eNotFound, some d, none, s'.nameOf f⟩ ∧
    ∀ n, n ≠ [] → s'.lookup d n = if n = s'.nameOf f then some f else s.lookup d n

/-- **A free entry that the path would get has nothing in it.** -/
def CleanSlot (s : Fs) (path : List (BitVec 8)) : Prop := ∀ d name f,
  s.resolve none sRoot (components path) = ⟨-eNotFound, some d, none, name⟩ → s.freeEntry d = some f →
    ∀ k, 32 ≤ k → k < 45 → s.view (f + k) = 0

theorem resolve_last {name : List (BitVec 8)} {names : List (List (BitVec 8))} : ∀ {dir : Option Nat} {file : Nat},
    s.resolve dir file names = ⟨-eNotFound, some d, none, name⟩ → names.getLast? = some name := by
  induction names with
  | nil =>
    intro dir file hr
    cases congrArg Walked.lastelem hr
    cases congrArg Walked.pfile hr
  | cons n names ih =>
    intro dir file hr
    unfold resolve at hr
    by_cases hlen : maxNameLen ≤ n.length
    · rw [if_pos hlen] at hr
      cases congrArg Walked.pdir hr
    · rw [if_neg hlen] at hr
      by_cases hd : s.view (fType file) ≠ ftypeDir
      · rw [if_pos hd] at hr
        cases congrArg Walked.pdir hr
      · rw [if_neg hd] at hr
        cases hl : s.lookup file n with
        | none =>
          rw [hl] at hr
          dsimp only at hr
          by_cases hlast : names = []
          · rw [if_pos hlast] at hr
            rw [hlast]
            exact congrArg some (congrArg Walked.lastelem hr)
          · rw [if_neg hlast] at hr
            cases congrArg Walked.pdir hr
        | some y =>
          rw [hl] at hr
          have hrest := ih hr
          rw [List.getLast?_cons, hrest]
          rfl

theorem Made.fresh {name : List (BitVec 8)} (hm : Made d f name s s') (hmiss : Missing s d name)
    (hr : s.resolve none sRoot (components path) = ⟨-eNotFound, some d, none, name⟩) :
    Fresh path f s s' ↔ s.CleanSlot path := by
  have hname : s'.nameOf f = name := by simpa using List.find?_some hm.lookup
  constructor
  · intro hf d' name' f' hr' hfree k h32 h45
    cases hr.symm.trans hr'
    rcases hm.fields with ⟨hfree', hsame⟩ | ⟨hnone, -⟩
    · cases hfree.symm.trans hfree'
      rw [← hsame k h32 h45]
      by_cases hk : 34 ≤ k
      · exact hf.slots k hk h45
      · obtain rfl | rfl : k = 32 ∨ k = 33 := by omega
        · exact hf.size
        · exact hf.type
    · cases hfree.symm.trans hnone
  · intro hc
    have hzero : ∀ k, 32 ≤ k → k < 45 → s'.view (f + k) = 0 := by
      rcases hm.fields with ⟨hfree, hsame⟩ | ⟨-, hzero⟩
      · exact fun k h32 h45 => (hsame k h32 h45).trans (hc d name f hr hfree k h32 h45)
      · exact hzero
    refine ⟨?_, hzero 32 (by decide) (by decide), hzero 33 (by decide) (by decide),
      fun k h34 h45 => hzero k (by omega) h45,
      d, ?_, fun n hn => ?_⟩
    · rw [hname]
      exact resolve_last hr
    · rw [hname]
      exact hr
    · rw [hname]
      by_cases hnn : n = name
      · rw [if_pos hnn, hnn]
        exact hm.lookup
      · rw [if_neg hnn]
        exact hm.lookups d n hmiss.dir.file hmiss.dir.isDir hn fun hc => hnn hc.2

end Fs

namespace Desk

/-- **In every safe run a file that is created is fresh** exactly where the entry that it gets was clean. -/
theorem created_fresh_iff {t : Desk} (h : Run Init step Safe t) (h0 : (0 : BitVec 8) ∉ path)
    (hc : t.server.fs.Creatable path) (hrun : fileCreate path t.server.fs = some (.ok f, s')) :
    Fresh path f t.server.fs s' ↔ t.server.fs.CleanSlot path := by
  obtain ⟨r, s₁, hrun₁, hres⟩ := fileCreate_spec (inv_run h).kept h0 hc
  cases hrun.symm.trans hrun₁
  rcases hres with ⟨d, f, name, heq, hr, hmiss, hmade⟩ | ⟨e, heq, -⟩
  · cases heq
    exact hmade.fresh hmiss hr
  · cases heq

/-- The file `a` is removed. -/
def removesFirst : DeskAct := .ask (.remove [0x61]) (fun _ => 0)

/-- The file `b` gets the entry of a file that was removed. -/
theorem created_fresh_first : ∃ t f s', Run Init step Safe t ∧ t.server.fs.freeEntry sRoot = some f ∧
    fileCreate [0x62] t.server.fs = some (.ok f, s') ∧
    (Fresh [0x62] f t.server.fs s' ↔ t.server.fs.CleanSlot [0x62]) := by
  have hok : ((atBoot []).step opensFirst).any (fun d =>
      decide (d.server.fs.resolve none sRoot (components [0x61]) = ⟨0, some sRoot, some (diskAddr 3), []⟩ ∧
        d.server.fs.view (fSize (diskAddr 3)) = 0 ∧ ¬d.server.fs.view (fType (diskAddr 3)) = ftypeDir ∧
          d.server.fs.pages = []) &&
      (d.step removesFirst).any fun t =>
        decide (t.server.fs.resolve none sRoot (components [0x62]) = ⟨-eNotFound, some sRoot, none, [0x62]⟩ ∧
          t.server.fs.freeEntry sRoot = some (diskAddr 3)) &&
        (fileCreate [0x62] t.server.fs).any fun r => decide (r.1.toOption = some (diskAddr 3))) =
        true := by decide +kernel
  obtain ⟨d, hd, hok⟩ := (Option.any_eq_true _ _).1 hok
  rw [Bool.and_eq_true, decide_eq_true_eq] at hok
  obtain ⟨⟨hfound, hsize, hreg, hpages⟩, hok⟩ := hok
  obtain ⟨t, ht, hok⟩ := (Option.any_eq_true _ _).1 hok
  rw [Bool.and_eq_true, decide_eq_true_eq] at hok
  obtain ⟨⟨hmiss, hfree⟩, hok⟩ := hok
  obtain ⟨⟨r, s'⟩, hrun, hr⟩ := (Option.any_eq_true _ _).1 hok
  have hremoves : d.Safe removesFirst := by
    refine ⟨by decide, fun p f hr => ?_⟩
    cases hfound.symm.trans hr
    refine ⟨fun i _ hi => ?_, by rw [hpages]; exact List.not_mem_nil, fun i _ _ hbelow => hreg (below_start hbelow).1⟩
    rw [hsize] at hi
    exact absurd hi (Nat.not_lt_zero i)
  have hreach : Run Init step Safe t :=
    .next d removesFirst t (.next (atBoot []) opensFirst d (.start _ (atBoot_init [])) opensFirst_safe hd) hremoves ht
  have hroom : t.server.fs.Creatable [0x62] := by
    intro d name hr hnone
    cases hmiss.symm.trans hr
    rw [hfree] at hnone
    cases hnone
  cases r with
  | error e => exact absurd (of_decide_eq_true hr) (Option.some_ne_none _).symm
  | ok f =>
    obtain rfl : f = diskAddr 3 := Option.some.inj (of_decide_eq_true hr)
    exact ⟨t, _, s', hreach, hfree, hrun, created_fresh_iff hreach (by decide) hroom hrun⟩

/-- **A file that is created in the entry of a removed directory is a directory.** -/
theorem created_fresh_fails : ¬∀ t, Reach Init step t → ∀ path f s', (0 : BitVec 8) ∉ path →
    fileCreate path t.server.fs = some (.ok f, s') → Fresh path f t.server.fs s' := by
  obtain ⟨t, hrun, ht⟩ :=
    @Run.exists_of_exec Desk DeskAct Init step (fun _ _ => True) (fun _ _ => true) (fun _ _ _ => trivial)
    [.ask (.openFile [0x61] oMkdir) (fun _ => 0), .ask (.remove [0x61]) (fun _ => 0)] (some (atBoot []))
    (fun _ h => Option.some.inj h ▸ atBoot_init [])
    (fun t => (fileCreate [0x62] t.server.fs).any fun r => r.1.toOption.any fun f =>
      decide (r.2.view (fType f) = ftypeDir))
    (by decide +kernel)
  obtain ⟨⟨r, s'⟩, hcreate, hr⟩ := (Option.any_eq_true _ _).1 ht
  intro hall
  cases r with
  | error e => cases hr
  | ok f =>
    have hdir : s'.view (fType f) = ftypeDir := of_decide_eq_true hr
    have hreg := (hall t hrun [0x62] f s' (by decide) hcreate).type
    exact absurd (hreg.symm.trans hdir) (by decide)

end Desk

/-! ## Where no entry can be had -/

section codes

variable {b i dir : Nat}

/-- The code is one of a failure, and not that of a name that is not there. -/
def NotMissing (e : Int) : Prop := e ≠ -eNotFound

variable {E : Int → Prop} (hmem : E (-eNoMem)) (hdisk : E (-eNoDisk)) (hrange : nIndirect ≤ i → E (-eInval))

include hmem in
theorem codes_memAllocBlock : Codes E (memAllocBlock b) := by
  intro s e s' h
  unfold memAllocBlock at h
  by_cases hp : s.pages.headD true = true
  · rw [if_pos hp] at h
    cases h
  · rw [if_neg hp] at h
    cases h
    exact hmem

include hmem in
theorem codes_readBlock : Codes E (readBlock b) := by
  unfold readBlock
  refine .bind (.of_sure (.read _)) fun s => .ite (fun _ => .of_sure .panic) fun _ =>
    .ite (fun _ => .of_sure .panic) fun _ =>
    .ite (fun _ => .of_sure (.ret _)) fun _ => ?_
  exact .bind (codes_memAllocBlock hmem) fun _ => .bind (.of_sure (.modify _)) fun _ => .of_sure (.ret _)

theorem codes_writeBlock : Codes E (writeBlock b) := by
  unfold writeBlock
  exact .bind (.of_sure (.read _)) fun s => .ite (fun _ => .of_sure .panic) fun _ => .of_sure (.modify _)

include hmem in
theorem codes_mapBlock : Codes E (mapBlock b) := by
  unfold mapBlock
  exact .bind (.of_sure (.read _)) fun s => .ite (fun _ => .of_sure (.ret _)) fun _ => (codes_memAllocBlock hmem)

include hdisk in
theorem codes_allocBlockNum : Codes E allocBlockNum := by
  unfold allocBlockNum
  refine .bind (.of_sure (.read _)) fun s => ?_
  cases (List.range' 3 (s.sNblocks - 3)).find? fun b => (s.mem (bitmapWord b)).getLsbD (b % 32) with
  | none => exact .fail hdisk
  | some blockno => exact .bind (.of_sure (.modify _)) fun _ => .bind codes_writeBlock fun _ => .of_sure (.ret _)

include hmem hdisk in
theorem codes_allocBlock : Codes E allocBlock := by
  unfold allocBlock
  refine .bind (codes_allocBlockNum hdisk) fun bno => ?_
  intro s e s' h
  rcases bind_eq_some h with ⟨e', hx, -⟩ | ⟨r, s₁, hx, hk⟩
  · exact absurd hx (Sure.attempt _ s e' s')
  · obtain ⟨⟨r₁, s₂⟩, hmap, heq⟩ := Option.map_eq_some_iff.1 hx
    cases heq
    cases r₁ with
    | ok a => cases hk
    | error e' =>
      cases hk
      exact codes_mapBlock hmem s e _ hmap

include hmem hdisk hrange in
theorem codes_fileBlockWalk : Codes E (fileBlockWalk f i true) := by
  unfold fileBlockWalk
  refine .ite (fun _ => .of_sure (.ret _)) fun _ => .ite (fun _ => ?_) fun hi => .fail (hrange (Nat.not_lt.1 hi))
  refine .bind (.of_sure (.read _)) fun r => ?_
  by_cases h0 : r = 0
  · simp only [h0, if_true]
    exact .bind (codes_allocBlock hmem hdisk) fun _ => .bind (.of_sure (.modify _)) fun _ =>
      .bind (.of_sure (.read _)) fun _ =>
      .bind (codes_readBlock hmem) fun _ => .of_sure (.ret _)
  · simp only [h0, if_false]
    exact .bind (.of_sure (.read _)) fun _ => .bind (codes_readBlock hmem) fun _ => .of_sure (.ret _)

include hmem hdisk hrange in
theorem codes_fileMapBlock : Codes E (fileMapBlock f i true) := by
  unfold fileMapBlock
  refine .bind (codes_fileBlockWalk hmem hdisk hrange) fun ptr => .bind (.of_sure (.read _)) fun r => ?_
  by_cases h0 : r = 0
  · simp only [h0, if_true]
    exact .bind (codes_allocBlock hmem hdisk) fun _ => .bind (.of_sure (.modify _)) fun _ =>
      .bind (.of_sure (.read _)) fun _ => .of_sure (.ret _)
  · simp only [h0, if_false]
    exact .bind (.of_sure (.read _)) fun _ => .of_sure (.ret _)

include hmem hdisk hrange in
theorem codes_fileGetBlock : Codes E (fileGetBlock f i) := by
  unfold fileGetBlock
  exact .bind (codes_fileMapBlock hmem hdisk hrange) fun _ => .bind (codes_readBlock hmem) fun _ => .of_sure (.ret _)

theorem notMissing_fileGetBlock : Codes NotMissing (fileGetBlock f i) :=
  codes_fileGetBlock (show -eNoMem ≠ -eNotFound by decide) (show -eNoDisk ≠ -eNotFound by decide)
    fun _ => show -eInval ≠ -eNotFound by decide

theorem codes_freeEntryFrom (is : List Nat) : Codes NotMissing (freeEntryFrom dir is) := by
  induction is with
  | nil => exact .of_sure (.ret _)
  | cons i is ih =>
    unfold freeEntryFrom
    refine .bind notMissing_fileGetBlock fun blk => .bind (.of_sure (.read _)) fun s => ?_
    cases (entries blk).find? fun f => fName s.mem f 0 == 0 with
    | some f => exact .of_sure (.ret _)
    | none => exact ih

/-- **`dir_alloc_file` has no code for a name that is not there.** -/
theorem codes_dirAllocFile : Codes NotMissing (dirAllocFile dir) := by
  unfold dirAllocFile
  refine .bind (.of_sure (.read _)) fun size => .bind (codes_freeEntryFrom _) fun r => ?_
  cases r with
  | some f => exact .of_sure (.ret _)
  | none => exact .bind (.of_sure (.read _)) fun _ => .bind (.of_sure (.modify _)) fun _ => notMissing_fileGetBlock

end codes

namespace Fs

/-- **The directories are as they were**, and what is free; a walk sets the `f_dir` of the entries that it passes. -/
structure Undone (s s' : Fs) : Prop where
  size : ∀ d, Dir s d → s'.view (fSize d) = s.view (fSize d)
  listing : ∀ d, Dir s d → s'.listing d = s.listing d
  entries : ∀ d, Dir s d → ∀ e ∈ s.listing d, ∀ k < fileWords, k ≠ 45 → s'.view (e + k) = s.view (e + k)
  holds : ∀ d, Dir s d → s'.vol.holds d = s.vol.holds d
  free : ∀ c, s'.blockIsFree c = s.blockIsFree c
  lookup : ∀ d n, Dir s d → s'.lookup d n = s.lookup d n

theorem Kept.undone {P : Nat → Prop} (h : Kept s) (hp : Passes P s s') (hP : ∀ f, P f → Entry s f) : Undone s s' := by
  have hstill := (h.passes hp hP).2
  refine ⟨fun d hd => hstill.size hd.file, fun d hd => passes_listing h hp hP hd.file, fun d hd e he k hk h45 => ?_,
    fun d hd => (hstill.agree hd.file).holds, hstill.free, fun d n hd => passes_lookup h hp hP hd n⟩
  obtain ⟨i, hi, b, hb, hin⟩ := mem_listing.1 he
  exact passes_word h hp hP (.entry d i b e hd.file hd.isDir hi hb hin) hk h45

/-- The code of the step of `file_create` that fails. -/
def failingStep (s : Fs) (path : List (BitVec 8)) : Option Int :=
  (walkPath path s).bind fun r =>
    match r.1 with
    | .error e => some e
    | .ok w =>
      if w.r = 0 then some (-eFileExists)
      else
        match w.pdir with
        | none => some w.r
        | some dir =>
          if w.r ≠ -eNotFound then some w.r
          else
            match dirAllocFile dir r.2 with
            | some (.error e, _) => some e
            | _ => none

/-- **The walk comes to a directory** in which the last component of the path is missing. -/
def ComesTo (s : Fs) (path : List (BitVec 8)) : Prop :=
  ∃ w s₁, walkPath path s = some (.ok w, s₁) ∧ w.r = -eNotFound ∧ w.pdir.isSome

/-- A file that could not be created: what was done is undone, and the code is that of the step that failed. -/
structure Refused (path : List (BitVec 8)) (e : Int) (s s' : Fs) : Prop where
  undone : Undone s s'
  code : s.failingStep path = some e

end Fs

namespace Desk

/-- **In every safe run a creation that fails is undone, with its code**, exactly where it fails in the walk. -/
theorem create_refused_iff {t : Desk} {e : Int} (h : Run Init step Safe t) (h0 : (0 : BitVec 8) ∉ path)
    (hrun : fileCreate path t.server.fs = some (.error e, s')) :
    Refused path e t.server.fs s' ↔ ¬t.server.fs.ComesTo path := by
  have hk := (inv_run h).kept
  obtain ⟨w, s₁, hwalk, hp, -, -⟩ := walkPath_spec hk.tree h0
  have hundone := hk.undone hp walk_entry
  unfold fileCreate at hrun
  rw [bind_of_ok hwalk] at hrun
  have hsole : ∀ {r : Int}, w.r = r → t.server.fs.ComesTo path → r = -eNotFound ∧ w.pdir.isSome := by
    rintro r rfl ⟨w', s₂, hwalk', hr, hd⟩
    cases hwalk.symm.trans hwalk'
    exact ⟨hr, hd⟩
  by_cases h00 : w.r = 0
  · rw [if_pos h00] at hrun
    cases hrun
    refine ⟨fun _ hc => absurd (hsole h00 hc).1 (by decide), fun _ => ⟨hundone, ?_⟩⟩
    unfold failingStep
    rw [hwalk, Option.bind_some]
    exact if_pos h00
  · rw [if_neg h00] at hrun
    cases hd : w.pdir with
    | none =>
      rw [hd] at hrun
      cases hrun
      refine ⟨fun _ hc => ?_, fun _ => ⟨hundone, ?_⟩⟩
      · have hsome := (hsole rfl hc).2
        rw [hd] at hsome
        cases hsome
      · unfold failingStep
        rw [hwalk, Option.bind_some]
        dsimp only
        rw [if_neg h00, hd]
    | some dir =>
      rw [hd] at hrun
      by_cases hr : w.r ≠ -eNotFound
      · dsimp only at hrun
        rw [if_pos hr] at hrun
        cases hrun
        refine ⟨fun _ hc => hr (hsole rfl hc).1, fun _ => ⟨hundone, ?_⟩⟩
        unfold failingStep
        rw [hwalk, Option.bind_some]
        dsimp only
        rw [if_neg h00, hd]
        exact if_pos hr
      · dsimp only at hrun
        rw [if_neg hr] at hrun
        have hcomes : t.server.fs.ComesTo path := ⟨w, s₁, hwalk, not_not.1 hr, by rw [hd]; rfl⟩
        refine ⟨fun href => absurd href.code fun hcode => ?_, fun hno => absurd hcomes hno⟩
        rcases bind_eq_some hrun with ⟨e', hx, -⟩ | ⟨r, s₂, hx, hk⟩
        · exact absurd hx (Sure.attempt _ _ _ _)
        · obtain ⟨⟨r₁, s₃⟩, halloc, heq⟩ := Option.map_eq_some_iff.1 hx
          cases heq
          cases r₁ with
          | ok f => cases hk
          | error e' =>
            cases hk
            unfold failingStep at hcode
            rw [hwalk, Option.bind_some] at hcode
            dsimp only at hcode
            rw [if_neg h00, hd] at hcode
            dsimp only at hcode
            rw [if_neg hr, halloc] at hcode
            cases hcode
            exact codes_dirAllocFile _ _ _ halloc (not_not.1 hr)

/-- The file `a` is there already. -/
theorem create_refused_first : ∃ t e s', Run Init step Safe t ∧ fileCreate [0x61] t.server.fs = some (.error e, s') ∧
    (Refused [0x61] e t.server.fs s' ↔ ¬t.server.fs.ComesTo [0x61]) := by
  have herr : ((atBoot []).step opensFirst).any (fun t => (fileCreate [0x61] t.server.fs).any fun r =>
    !r.1.toOption.isSome) = true := by
    decide +kernel
  obtain ⟨t, ht, herr⟩ := (Option.any_eq_true _ _).1 herr
  obtain ⟨⟨r, s'⟩, hrun, hr⟩ := (Option.any_eq_true _ _).1 herr
  have hreach : Run Init step Safe t := .next (atBoot []) opensFirst t (.start _ (atBoot_init [])) opensFirst_safe ht
  cases r with
  | ok f => cases hr
  | error e => exact ⟨t, e, s', hreach, hrun, create_refused_iff hreach (by decide) hrun⟩

/-- **Without a page for its new block** the root is left with the size of one. -/
theorem create_refused_fails : ¬∀ t, Reach Init step t → ∀ path e s', (0 : BitVec 8) ∉ path →
    fileCreate path t.server.fs = some (.error e, s') → Refused path e t.server.fs s' := by
  intro hall
  have herr : (fileCreate [0x61] (emptyVolume [false])).any (fun r => !r.1.toOption.isSome &&
      decide (r.2.view (fSize sRoot) ≠ (emptyVolume [false]).view (fSize sRoot))) = true := by decide +kernel
  obtain ⟨⟨r, s'⟩, hrun, hr⟩ := (Option.any_eq_true _ _).1 herr
  rw [Bool.and_eq_true, decide_eq_true_eq] at hr
  cases r with
  | ok f => cases hr.1
  | error e =>
    have htype : (emptyVolume [false]).view (fType sRoot) = ftypeDir := by decide +kernel
    have hdir : Dir (emptyVolume [false]) sRoot := ⟨.root, htype⟩
    exact hr.2 ((hall (atBoot [false]) (.start _ (atBoot_init _)) [0x61] e s' (by decide) hrun).undone.size sRoot hdir)

end Desk

end Mos
