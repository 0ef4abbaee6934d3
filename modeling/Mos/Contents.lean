import Mos.Creating
import Mos.Exposed
/-!
# Contents — the bytes of a file while the server takes no block away

Until a file is removed or made smaller, blocks only go from the free ones to the files, and what is free keeps what
it has in it.  Where that is zeroes, a file that grows gets zeroes, and keeps the bytes that it has.
-/
namespace Mos

open Fallible FilePtr Fs

variable {s s' s'' : Fs} {d e f b i p a : Nat} {U : Use → Prop} {W : Nat → Prop} {path : List (BitVec 8)} {omode : Word}

namespace Fs

/-- **Free blocks are taken at most**, and those that are left have in them what they had. -/
structure Spends (s s' : Fs) : Prop where
  free : ∀ c, s'.blockIsFree c = true → s.blockIsFree c = true
  view : ∀ c k, s'.blockIsFree c = true → k < blockWords → s'.view (diskAddr c + k) = s.view (diskAddr c + k)

/-- **The free blocks have zeroes in them.** -/
def AllBlank (s : Fs) : Prop := ∀ c k, s.blockIsFree c = true → k < blockWords → s.view (diskAddr c + k) = 0

theorem AllBlank.spends (h : AllBlank s) (hs : Spends s s') : AllBlank s' := fun c k hc hk =>
  (hs.view c k hc hk).trans (h c k (hs.free c hc) hk)

theorem AllBlank.blank (h : AllBlank s) (hb : s.blockIsFree b = true) : s.Blank b := by
  intro k hk
  unfold leftover
  split
  · rename_i hm
    rw [mem_eq_view ((diskAddr_div b hk).symm ▸ hm)]
    exact h b k hb hk
  · rfl

theorem AllBlank.clean (h : AllBlank s) (hu : Up s) (n : Nat) : s.Clean n := fun _ hb =>
  h.blank ((mem_freeBlocks hu.super).1 (List.mem_of_mem_take hb)).2

namespace Spends

theorem refl (s : Fs) : Spends s s := ⟨fun _ => id, fun _ _ _ _ => rfl⟩

theorem trans (h : Spends s s') (h' : Spends s' s'') : Spends s s'' :=
  ⟨fun c hc => h.free c (h'.free c hc), fun c k hc hk => (h'.view c k hc hk).trans (h.view c k (h'.free c hc) hk)⟩

theorem of_edit (he : Edit W s s') (hfree : ∀ c, s'.blockIsFree c = true → s.blockIsFree c = true)
    (hW : ∀ a, W a → s'.blockIsFree (a / blockWords) = false) : Spends s s' := by
  refine ⟨hfree, fun c k hc hk => he.view _ fun hw => ?_⟩
  have hused := hW _ hw
  rw [diskAddr_div c hk, hc] at hused
  cases hused

theorem of_still (h : Still s s') (he : Edit W s s') (hW : ∀ a, W a → s.blockIsFree (a / blockWords) = false) :
    Spends s s' :=
  of_edit he (fun c hc => (h.free c).symm.trans hc) fun a ha => (h.free _).trans (hW a ha)

end Spends

theorem Owned.bitmap_used (ho : Owned s) (ha : s.InBitmap a) : s.blockIsFree (a / blockWords) = false := ho.low _ ha.2

theorem Owned.word_used {k : Nat} (ho : Owned s) (hf : File s f) (hk : k < fileWords) :
    s.blockIsFree ((f + k) / blockWords) = false :=
  (ho.word_not_bitmap hf hk).2

theorem Quiet.spends (h : Quiet s s') (ho : Owned s) : Spends s s' := .of_still (h.still ho) h.edit fun _ => False.elim

theorem Kept.spends_passes {P : Nat → Prop} (h : Kept s) (hp : Passes P s s') (hP : ∀ f, P f → Entry s f) :
    Spends s s' := by
  refine .of_still (h.passes hp hP).2 (Edit.of_passes hp) ?_
  rintro a ⟨f, hf, rfl⟩
  obtain ⟨-, -, -, -, -, -, -, hfile⟩ := (hP f hf).file
  exact h.toOwned.word_used hfile (show 45 < fileWords by decide)

theorem Extends.spends (h : Extends f U s s') (ho : Owned s) (hf : File s f) : Spends s s' := by
  have hgone : ∀ c, s.blockIsFree c = false → s'.blockIsFree c = false := fun c hc => by
    refine Bool.eq_false_iff.2 fun hc' => ?_
    rw [h.free c hc'] at hc
    cases hc
  refine .of_edit h.edit h.free ?_
  rintro a (ha | ⟨-, ha⟩ | ha)
  · exact hgone _ (ho.bitmap_used ha)
  · exact ha
  · exact hgone _ (ho.inSlots_used hf ha)

end Fs

/-- **`dir_alloc_file`** -/
theorem dirAllocFile_spends (h : Fs.Kept s) (hd : Dir s d) (hheld : Fs.Held s d)
    (hroom : s.freeEntry d = none → s.Room d) {r : Except Int Nat} (hrun : dirAllocFile d s = some (r, s')) :
    Spends s s' := by
  rcases dirAllocFile_cases h.tree hd hheld
      with ⟨f, s₁, -, hcase, hp, -⟩ | ⟨s₁, hcase, hp, -⟩ | ⟨s₁, hfree, hp, hheld₁, hcase⟩
  · cases hrun.symm.trans hcase
    exact (quiet_of_passes hp).spends h.toOwned
  · cases hrun.symm.trans hcase
    exact (quiet_of_passes hp).spends h.toOwned
  · have hq := quiet_of_passes hp
    have hstill := hq.still h.toOwned
    have hk₁ := h.quiet hq
    have hd₁ : Dir s₁ d := h.dir_passes hp not_nobody hd
    have hroom₁ := (hroom hfree).quiet h.toOwned hq
    have hn : s₁.nblocks d = s.nblocks d := (hstill.agree hd.file).count
    rw [← hn, ← hq.edit.view (fSize d) id] at hcase
    -- the size is written first, and then the directory gets a block
    obtain ⟨hsized, -, hfiles⟩ := put_grows hk₁ hd₁ hheld₁ hroom₁.index
    generalize hs₂ : s₁.put (fSize d) (s₁.view (fSize d) + 4096) = s₂ at hsized hfiles hcase
    have hclean : s₂.Clean (1 + s₁.wants d (s₁.nblocks d)) := by
      refine hroom₁.clean.edit hk₁.up hsized.owned.up hsized.edit hsized.sNblocks hsized.free
        (fun c _ hm => hsized.mapped ▸ hm) ?_
      rintro a rfl
      exact hk₁.toOwned.word_used hd₁.file (show 32 < fileWords by decide)
    have hone : s₂.Clean 1 := fun c hc => hclean c (List.take_subset_take_left _ (Nat.le_add_right 1 _) hc)
    obtain ⟨r', s₃, hget, hext, -⟩ :=
      fileGetBlock_alloc (i := s₁.nblocks d) hsized.owned (hfiles d hd₁.file).1 (hsized.edit.held hheld₁)
      (fun _ _ => hone) fun _ => by
        rw [wants_congr (congrFun hsized.holds .indirect) (s₁.nblocks d)]
        exact hclean
    cases hrun.symm.trans (hcase.trans hget)
    have hsize : Spends s₁ s₂ := by
      refine .of_edit hsized.edit (fun c hc => (hsized.free c).symm.trans hc) ?_
      rintro a rfl
      exact (hsized.free _).trans (hk₁.toOwned.word_used hd₁.file (show 32 < fileWords by decide))
    exact ((hq.spends h.toOwned).trans hsize).trans (hext.spends hsized.owned (hfiles d hd₁.file).1)

namespace Fs

/-- **The name is written.** -/
theorem spends_name {name : List (BitVec 8)} (h : Kept s) (hf : File s f) (hheld : Fs.Held s f)
    (h0 : (0 : BitVec 8) ∉ name) (hlen : name.length < maxNameLen) :
    Spends s { s with mem := putName s.mem f name } := by
  obtain ⟨hedit, -⟩ := put_name hheld h0 hlen
  obtain ⟨-, hstill⟩ := h.field hf hedit fun a ⟨k, hk, heq⟩ => ⟨k, Nat.lt_trans hk (by decide), heq, .inl hk⟩
  refine .of_still hstill hedit ?_
  rintro a ⟨k, hk, rfl⟩
  exact h.toOwned.word_used hf (Nat.lt_trans hk (by decide))

end Fs

/-- **`file_create`** -/
theorem fileCreate_spends (h : Fs.Kept s) (h0 : (0 : BitVec 8) ∉ path) (hc : s.Creatable path) {r : Except Int Nat}
    (hrun : fileCreate path s = some (r, s')) : Spends s s' := by
  obtain ⟨w, s₁, hwalk, hp, harr, hw⟩ := walkPath_spec h.tree h0
  have hstays := h.stays_passes hp walk_entry
  have hwalked := h.spends_passes hp walk_entry
  unfold fileCreate at hrun
  rw [bind_of_ok hwalk] at hrun
  rcases hw with rfl | ⟨rfl, -⟩
  · rcases path_cases s path with ⟨p, f, hr, hobj⟩ | ⟨d, name, hr, hm, hin⟩ | hr | hr
    · rw [hr] at hrun
      cases hrun
      exact hwalked
    · have hheld : Fs.Held s₁ d := harr.dir d (by rw [hr]) (by rw [hr])
      have hd₁ := h.dir_passes hp walk_entry hm.dir
      have hroom : s₁.freeEntry d = none → s₁.Room d := fun hfree =>
        (hc d name hr ((passes_freeEntry h hp walk_entry hm.dir).symm.trans hfree)).passes h hp walk_entry hm.dir.file
      rw [hr] at hrun
      simp only [show (-eNotFound : Int) ≠ 0 by decide, if_false, ne_eq, not_true_eq_false] at hrun
      rcases dirAllocFile_spec hstays.kept hd₁ hheld hroom with ⟨f, s₂, hal, ha⟩ | ⟨s₂, hal, hp₂, -⟩
      · have hmade := dirAllocFile_spends hstays.kept hd₁ hheld hroom hal
        rw [bind_attempt hal] at hrun
        obtain ⟨i, hi, b, hb, hinside⟩ := mem_listing.1 ha.mem
        have hf₂ : File s₂ f := .entry d i b f (ha.file d hd₁.file) ha.isDir hi hb hinside
        cases hrun
        exact (hwalked.trans hmade).trans (spends_name ha.kept hf₂ ha.held (zero_not_mem h0 hin) hm.length)
      · rw [bind_attempt hal] at hrun
        cases hrun
        exact hwalked.trans (hstays.kept.spends_passes hp₂ not_nobody)
    · rw [hr] at hrun
      cases hrun
      exact hwalked
    · rw [hr] at hrun
      cases hrun
      exact hwalked
  · cases hrun
    exact hwalked

/-! ## The file of a path -/

/-- What a file has in it: its size, and a byte at every position. -/
structure Contents where
  size : Nat
  byte : Nat → BitVec 8

namespace Fs

/-- What a file has at a position; where it has no block, zero. -/
def byteAtPos (s : Fs) (f p : Nat) : BitVec 8 := (s.byteOf f p).getD 0

/-- **The path leads to a file** that is no directory, with these contents. -/
structure Found (s : Fs) (path : List (BitVec 8)) (x : Contents) (f : Nat) : Prop where
  found : ∃ p, s.resolve none sRoot (components path) = ⟨0, p, some f, []⟩
  regular : ¬s.IsDir f
  size : (s.view (fSize f)).toNat = x.size
  bytes : ∀ p, s.byteAtPos f p = x.byte p

/-- **The path leads to no file**, and the entry that it would get has nothing in it. -/
structure Absent (s : Fs) (path : List (BitVec 8)) (x : Contents) : Prop where
  absent : ∀ p f, s.resolve none sRoot (components path) ≠ ⟨0, p, some f, []⟩
  clean : s.CleanSlot path
  size : x.size = 0
  bytes : ∀ p, x.byte p = 0

/-- **The volume is sound**, its free blocks have zeroes in them, and its file of the path has the contents. -/
structure ShowsFile (s : Fs) (path : List (BitVec 8)) (x : Contents) : Prop where
  kept : Kept s
  blank : AllBlank s
  file : (∃ f, Found s path x f) ∨ Absent s path x

variable {x : Contents}

theorem Found.file (h : Found s path x f) : File s f := by
  obtain ⟨p, hr⟩ := h.found
  exact (path_found hr).file

theorem byteAtPos_congr (hb : s'.blockAt f (p / blockSize) = s.blockAt f (p / blockSize))
    (hw : ∀ b, s.blockAt f (p / blockSize) = some b → ∀ k < blockWords, s'.view (diskAddr b + k) =
      s.view (diskAddr b + k)) :
    s'.byteAtPos f p = s.byteAtPos f p := by
  unfold byteAtPos byteOf
  rw [hb]
  cases hat : s.blockAt f (p / blockSize) with
  | none => rfl
  | some b => rw [Option.map_some, Option.map_some, hw b hat _ (byte_lt p)]

theorem SameContent.bytes (h : SameContent f s s') (hreg : ¬s.IsDir f) (p : Nat) : s'.byteAtPos f p = s.byteAtPos f p :=
  byteAtPos_congr (congrFun h.holds (.block _)) fun b hb => h.data hreg _ b hb

theorem Found.same (h : Found s path x f) (hsame : SameContent f s s')
    (hr : s'.resolve none sRoot (components path) = s.resolve none sRoot (components path)) : Found s' path x f :=
  ⟨h.found.imp fun _ hp => hr.trans hp, fun hd => h.regular (hsame.type.symm.trans hd),
    (congrArg BitVec.toNat hsame.size).trans h.size,
    fun p => (hsame.bytes h.regular p).trans (h.bytes p)⟩

theorem ShowsFile.passes {P : Nat → Prop} (h : ShowsFile s path x) (hp : Passes P s s') (hP : ∀ f, P f → Entry s f) :
    ShowsFile s' path x := by
  have hr := passes_resolve h.kept hp hP (@components_ne_nil path) none
  refine ⟨(h.kept.stays_passes hp hP).kept, h.blank.spends (h.kept.spends_passes hp hP), ?_⟩
  rcases h.file with ⟨f, hf⟩ | ha
  · exact .inl ⟨f, hf.same (h.kept.same_passes hp hP hf.file).content hr⟩
  · refine .inr ⟨fun p f => hr ▸ ha.absent p f, fun d name f hmiss hfree k h32 h45 => ?_, ha.size, ha.bytes⟩
    rw [hr] at hmiss
    have hd := (path_missing hmiss).dir
    rw [passes_freeEntry h.kept hp hP hd] at hfree
    obtain ⟨i, hi, b, hb, hin⟩ := mem_listing.1 (List.mem_of_find?_eq_some hfree)
    rw [passes_word h.kept hp hP (.entry d i b f hd.file hd.isDir hi hb hin) (Nat.lt_trans h45 (by decide))
      (Nat.ne_of_lt h45)]
    exact ha.clean d name f hmiss hfree k h32 h45

/-- **`file_create`** gives the path a file with nothing in it, where it has none. -/
theorem ShowsFile.create (h : ShowsFile s path x) (h0 : (0 : BitVec 8) ∉ path) (hc : s.Creatable path)
    {r : Except Int Nat} (hrun : fileCreate path s = some (r, s')) : ShowsFile s' path x := by
  have hspends := fileCreate_spends h.kept h0 hc hrun
  obtain ⟨r', s₁, hcr, hres⟩ := fileCreate_spec h.kept h0 hc
  cases hrun.symm.trans hcr
  rcases hres with ⟨d, f, name, -, hr, hmiss, hmade⟩ | ⟨e, -, hp⟩
  · refine ⟨hmade.kept, h.blank.spends hspends, ?_⟩
    rcases h.file with ⟨e, he⟩ | ha
    · obtain ⟨p, he⟩ := he.found
      cases hr.symm.trans he
    · have hfresh := (hmade.fresh hmiss hr).2 ha.clean
      have hbare : s'.Bare f := ⟨hfresh.size, hfresh.slots⟩
      refine .inl ⟨f, ⟨_, hmade.resolve hmiss hr⟩, fun hd => ?_, ?_, fun p => ?_⟩
      · cases hfresh.type.symm.trans hd
      · rw [hfresh.size, ha.size]
        rfl
      · have hnone : s'.blockAt f (p / blockSize) = none := hbare.holds (.block _)
        unfold byteAtPos byteOf
        rw [hnone, ha.bytes]
        rfl
  · exact h.passes hp fun _ hf => hf

end Fs

/-! ## Opening -/

namespace Serv

variable {srv srv' : Server} {refs : Nat → Nat} {reply : Reply} {x : Contents}

theorem createIf_shows (h : ShowsFile srv.fs path x) (h0 : (0 : BitVec 8) ∉ path) {b : Bool}
    (hc : b = true → srv.fs.Creatable path) {r : Except Int Unit} (hrun : createIf b path srv = some (r, srv')) :
    ShowsFile srv'.fs path x ∧ srv'.oFf = srv.oFf := by
  cases b with
  | false =>
    cases hrun
    exact ⟨h, rfl⟩
  | true =>
    obtain ⟨r₁, s₁, hcr, -⟩ := fileCreate_spec h.kept h0 (hc rfl)
    have hshows := h.create h0 (hc rfl) hcr
    unfold createIf at hrun
    simp only [if_true] at hrun
    rw [bind_attempt (onFs_run hcr)] at hrun
    cases r₁ with
    | ok e =>
      cases hrun
      exact ⟨hshows, rfl⟩
    | error e =>
      dsimp only at hrun
      split at hrun
      · cases hrun
        exact ⟨hshows, rfl⟩
      · cases hrun
        exact ⟨hshows, rfl⟩

/-- The entry that `open_alloc` gives is the first one that no client has; it has a page, which is zeroed. -/
theorem openAlloc_found {j : Nat} (h : openAlloc refs srv = some (.ok j, srv')) :
    ((List.range maxOpen).find? fun i => decide (refs i ≤ 1)) = some j ∧ (refs j = 0 → srv.fs.pages.headD true = true) ∧
      srv'.oFf j = fun _ => 0 := by
  unfold openAlloc at h
  cases hfind : (List.range maxOpen).find? fun i => decide (refs i ≤ 1) with
  | none =>
    rw [hfind] at h
    cases h
  | some k =>
    rw [hfind] at h
    dsimp only at h
    split at h
    · rcases bind_eq_some h with ⟨e, -, he⟩ | ⟨_, s₁, hpage, h⟩
      · cases he
      · cases h
        refine ⟨rfl, fun _ => ?_, Function.update_self _ _ _⟩
        obtain ⟨⟨r, t⟩, ht, heq⟩ := Option.map_eq_some_iff.1 hpage
        cases heq
        by_cases hp : srv.fs.pages.headD true = true
        · exact hp
        · dsimp only at ht
          rw [if_neg hp] at ht
          cases ht
    · rename_i hne
      cases h
      exact ⟨rfl, fun hc => absurd hc hne, Function.update_self _ _ _⟩

/-- **What the page of an open file has in it** after the open. -/
structure Filled (srv : Server) (j : Nat) (omode : Word) (x : Contents) : Prop where
  devId : srv.oFf j fdDevId = devfileId
  offset : (srv.oFf j fdOffset).toNat = if omode &&& oAppend ≠ 0 then x.size else 0
  omode : srv.oFf j fdOmode = omode
  fileid : srv.oFf j fFileid = BitVec.ofNat 32 j
  size : (srv.oFf j (fFile + 32)).toNat = x.size

theorem fillFilefd_filled {i f : Nat} (hzero : srv.oFf i = fun _ => 0) (hheld : Fs.Held srv.fs f)
    (hsize : (srv.fs.view (fSize f)).toNat = x.size) (h : fillFilefd i f omode srv = some (.ok (), srv')) :
    srv'.fs = srv.fs ∧ srv'.oFile = srv.oFile ∧ Filled srv' i omode x := by
  have hmem : srv.fs.mem (fSize f) = srv.fs.view (fSize f) := mem_eq_view (hheld 32 (by decide))
  cases h
  refine ⟨rfl, rfl, ?_, ?_, ?_, ?_, ?_⟩
  · show Function.update srv.oFf i _ i _ = _
    rw [Function.update_self]
    rfl
  · show (Function.update srv.oFf i _ i _).toNat = _
    rw [Function.update_self, hmem, hzero]
    by_cases happ : omode &&& oAppend ≠ 0
    · rw [if_pos happ, if_pos happ, ← hsize]
      rfl
    · rw [if_neg happ, if_neg happ]
      rfl
  · show Function.update srv.oFf i _ i _ = _
    rw [Function.update_self]
    rfl
  · show Function.update srv.oFf i _ i _ = _
    rw [Function.update_self]
    rfl
  · show (Function.update srv.oFf i _ i _).toNat = _
    rw [Function.update_self, ← hsize, ← hmem]
    rfl

/-- **`serve_open`**, where it makes no directory and cuts nothing off. -/
theorem serveOpen_shows (h : ShowsFile srv.fs path x) (h0 : (0 : BitVec 8) ∉ path) (hmkdir : omode &&& oMkdir = 0)
    (htrunc : omode &&& oTrunc = 0) (hc : omode &&& oCreat ≠ 0 → srv.fs.Creatable path)
    (hrun : serveOpen refs path omode srv = some (.ok reply, srv')) :
    ShowsFile srv'.fs path x ∧
    ((∃ e, reply = ⟨e, .none⟩) ∨ ∃ j f, ((List.range maxOpen).find? fun i => decide (refs i ≤ 1)) = some j ∧
      (refs j = 0 → srv.fs.pages.headD true = true) ∧ reply = ⟨0, .openFile j⟩ ∧ Found srv'.fs path x f ∧
      Fs.Held srv'.fs f ∧
        srv'.oFile j = f ∧ Filled srv' j omode x) := by
  unfold serveOpen at hrun
  obtain ⟨r, s₁, halloc, hp₁, -, -⟩ := openAlloc_spec refs srv
  have hshows₁ := h.passes hp₁ not_nobody
  cases r with
  | error e =>
    cases hrun.symm.trans (answer_error (bind_of_error halloc))
    exact ⟨hshows₁, .inl ⟨e, rfl⟩⟩
  | ok j =>
    obtain ⟨hj, hpage, hzero⟩ := openAlloc_found halloc
    have hnone : createIf (omode &&& oMkdir != 0) path s₁ = some (.ok (), s₁) := by
      rw [hmkdir]
      rfl
    have hc₁ : (omode &&& oCreat != 0) = true → s₁.fs.Creatable path :=
      fun hb => (hc (by simpa using hb)).passes h.kept hp₁ not_nobody
    have hso : s₁.fs.OpenSafe path omode :=
      ⟨fun hm => hc₁ (by simpa using hm.resolve_left (not_not_intro hmkdir)), fun hm => absurd hmkdir hm,
        fun ht => absurd htrunc ht⟩
    obtain ⟨r, s₂, hcr, -⟩ := createIf_spec hshows₁.kept h0 hso (b := omode &&& oCreat != 0) fun hb =>
        .inr (by simpa using hb)
    obtain ⟨hshows₂, hff⟩ := createIf_shows hshows₁ h0 hc₁ hcr
    cases r with
    | error e =>
      cases hrun.symm.trans (answer_error ((bind_of_ok halloc).trans ((bind_of_ok hnone).trans (bind_of_error hcr))))
      exact ⟨hshows₂, .inl ⟨e, rfl⟩⟩
    | ok u =>
      obtain ⟨r, t, hopen, hp, hres⟩ := fileOpen_spec hshows₂.kept h0
      have hshowst := hshows₂.passes hp fun _ hf => hf
      rcases hres with ⟨p, f, rfl, hr, -, hheld⟩ | ⟨e, rfl⟩
      · have hrt : t.resolve none sRoot (components path) = ⟨0, p, some f, []⟩ :=
          (passes_resolve hshows₂.kept hp (fun _ hf => hf) components_ne_nil none).trans hr
        have hfound : Found t path x f := by
          rcases hshowst.file with ⟨e, he⟩ | ha
          · obtain ⟨q, hq⟩ := he.found
            cases hrt.symm.trans hq
            exact he
          · exact absurd hrt (ha.absent p f)
        obtain ⟨srv'', hrest, hfs, hof, hfill⟩ :=
          @opened_spec t { s₂ with fs := t } omode f j t (by rw [if_neg (not_not_intro hmkdir)]; rfl)
          (by rw [if_neg (not_not_intro htrunc)]; rfl)
        cases hrun.symm.trans (answer_ok ((bind_of_ok halloc).trans ((bind_of_ok hnone).trans ((bind_of_ok hcr).trans
          ((bind_of_ok (onFs_run hopen)).trans hrest)))))
        have hfilled := @fillFilefd_filled omode { s₂ with fs := t, oFile := Function.update s₂.oFile j f } _ x j f
          (show s₂.oFf j = fun _ => 0 by rw [hff, hzero]) hheld hfound.size hfill
        refine ⟨hfs ▸ hshowst, .inr ⟨j, f, hj, hpage, rfl, hfs ▸ hfound, hfs ▸ hheld, ?_, hfilled.2.2⟩⟩
        rw [hof]
        exact Function.update_self _ _ _
      · cases hrun.symm.trans (answer_error ((bind_of_ok halloc).trans ((bind_of_ok hnone).trans ((bind_of_ok hcr).trans
          (bind_of_error (onFs_run hopen))))))
        exact ⟨hshowst, .inl ⟨e, rfl⟩⟩

end Serv

end Mos
