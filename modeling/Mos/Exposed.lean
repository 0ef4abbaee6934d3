import Mos.Lost
/-!
# Exposed — what is in a file where it has grown

Nothing clears the bytes that a file gets: those behind its old end are what is left in its blocks, and those of a new
block are what is left on its page.  A position is fresh from the time that the file grows over it until a client
writes it.
-/
namespace Mos

open Fallible FilePtr Fs

variable {s s' s'' : Fs} {d e f b i p : Nat} {U : Use → Prop} {W : Nat → Prop}

namespace Fs

/-- The byte at a position of a file, where the file has the block. -/
def byteOf (s : Fs) (f p : Nat) : Option (BitVec 8) :=
  (s.blockAt f (p / blockSize)).map fun b => getByte (s.view (diskAddr b + p % blockSize / 4)) (p % 4)

/-- The position is in the file, which is no directory. -/
structure Has (s : Fs) (f p : Nat) : Prop where
  file : File s f
  regular : ¬s.IsDir f
  lt : p < (s.view (fSize f)).toNat

/-- **The file has at the position what it had**, or zero. -/
def KeepsByte (f p : Nat) (s s' : Fs) : Prop := ∀ c ∈ s'.byteOf f p, c ∈ s.byteOf f p ∨ c = 0

theorem byte_lt (p : Nat) : p % blockSize / 4 < blockWords := by
  unfold blockSize pageSize blockWords
  omega

theorem mem_byteOf {c : BitVec 8} : c ∈ s.byteOf f p ↔
    ∃ b, s.blockAt f (p / blockSize) = some b ∧ getByte (s.view (diskAddr b + p % blockSize / 4)) (p % 4) = c :=
  Option.map_eq_some_iff

theorem KeepsByte.of_block (h : ∀ b, s'.blockAt f (p / blockSize) = some b →
      (s.blockAt f (p / blockSize) = some b ∧ ∀ k < blockWords, s'.view (diskAddr b + k) = s.view (diskAddr b + k)) ∨
        ∀ k < blockWords, s'.view (diskAddr b + k) = 0) : KeepsByte f p s s' := by
  intro c hc
  obtain ⟨b, hb, rfl⟩ := mem_byteOf.1 hc
  rcases h b hb with ⟨hold, hsame⟩ | hzero
  · rw [hsame _ (byte_lt p)]
    exact .inl (mem_byteOf.2 ⟨b, hold, rfl⟩)
  · rw [hzero _ (byte_lt p)]
    exact .inr (getByte_zero _)

theorem SameContent.keepsByte (h : SameContent f s s') (hreg : ¬s.IsDir f) : KeepsByte f p s s' := by
  refine .of_block fun b hb => ?_
  have hb : s.blockAt f (p / blockSize) = some b := (congrFun h.holds (.block _)).symm.trans hb
  exact .inl ⟨hb, h.data hreg _ b hb⟩

theorem Quiet.content (h : Quiet s s') (ho : Owned s) (hf : File s f) : SameContent f s s' :=
  (h.edit.same ho hf fun _ => False.elim).content

/-! ## A block -/

theorem Extends.data (h : Extends e U s s') (ho : Owned s) (he : File s e) (hf : File s f) (hreg : ¬s.IsDir f)
    (hb : s.blockAt f i = some b) : ∀ k < blockWords, s'.view (diskAddr b + k) = s.view (diskAddr b + k) := by
  intro k hk
  obtain ⟨hbit, hused, -, hslots⟩ := ho.data_word hf hreg hb (diskAddr_div b hk)
  refine h.edit.view _ ?_
  rintro (hc | ⟨hc, -⟩ | hc)
  · exact hbit hc
  · rw [hused] at hc
    cases hc
  · exact hslots e he hc

/-- **`file_get_block`**, where no block that is taken has a stale page. -/
theorem fileGetBlock_keepsByte (h : Fs.Kept s) (he : File s e) (hheld : Fs.Held s e)
    (hdir : s.IsDir e → i < s.nblocks e) (hclean : nDirect ≤ i → s.indirect e = none → s.Clean 1)
    (hblank : s.blockAt e i = none → s.Clean (1 + s.wants e i)) (hf : File s f) (hreg : ¬s.IsDir f)
    {r : Except Int Nat} (hrun : fileGetBlock e i s = some (r, s')) : KeepsByte f p s s' := by
  have ho := h.toOwned
  cases hat : s.blockAt e i with
  | some c =>
    obtain ⟨r', s₁, hget, hl, -⟩ := fileGetBlock_spec hheld hat (ho.data_block he hat) h.up fun c _ hc =>
        ho.data_indirect he hc
    cases hrun.symm.trans hget
    have hq : Quiet s s' := .of_loads hl fun c hc => by
      rcases hc with hc | ⟨-, hc⟩
      · exact (ho.data_block he hc).used
      · exact (ho.data_indirect he hc).used
    exact (hq.content ho hf).keepsByte hreg
  | none =>
    have hrege : ¬s.IsDir e := fun hd => by
      have hsome := (h.blockAt_iff he hd).1 (hdir hd)
      rw [hat] at hsome
      cases hsome
    obtain ⟨r', s₁, hget, hext, hres⟩ := fileGetBlock_alloc ho he hheld hclean fun hg => absurd hg.1 hrege
    cases hrun.symm.trans hget
    refine .of_block fun b hb => ?_
    by_cases hfe : f = e
    · subst hfe
      cases hold : s.blockAt f (p / blockSize) with
      | some c =>
        cases hb.symm.trans (hext.keeps (.block _) c hold)
        exact .inl ⟨rfl, hext.data ho he hf hreg hold⟩
      | none =>
        rcases hext.fresh (.block _) b hb with hc | ⟨⟨-, hu⟩ | hu, -⟩
        · cases hold.symm.trans hc
        · cases hu
        · cases hu
          rcases hres with ⟨c, -, hc, -, hnew⟩ | ⟨x, -, -, hsame⟩
          · cases hb.symm.trans hc
            obtain ⟨hfirst, hpage⟩ := hnew hat
            exact .inr fun k hk => (hpage k hk).trans (hblank hat b (mem_take_of_head hfirst) k hk)
          · cases (hsame.trans hat).symm.trans hb
    · have hold := (congrFun (hext.others f hf hfe).holds (.block _)).symm.trans hb
      exact .inl ⟨hold, hext.data ho he hf hreg hold⟩

end Fs

/-! ## The size -/

/-- **`file_set_size`** -/
theorem Resized.keepsByte {n : Word} (h : Resized e n s s') (ho : Owned s) (he : File s e) (hf : File s f)
    (hreg : ¬s.IsDir f) :
    KeepsByte f p s s' := by
  refine .of_block fun b hb => ?_
  have hold : s.blockAt f (p / blockSize) = some b := by
    by_cases hfe : f = e
    · subst hfe
      by_cases hg : s.Lets f n CutGone (.block (p / blockSize))
      · cases (h.gone _ hg).symm.trans hb
      · exact (h.keeps _ hg).symm.trans hb
    · exact (congrFun (h.edit.cut_others ho he hf hfe).holds (.block _)).symm.trans hb
  refine .inl ⟨hold, fun k hk => ?_⟩
  obtain ⟨hbit, -, hwords, hslots⟩ := ho.data_word hf hreg hold (diskAddr_div b hk)
  refine h.edit.view _ ?_
  rintro (hc | hc | hc)
  · exact hbit hc
  · exact hslots e he hc
  · exact hwords e he 32 (by decide) hc

namespace Fs

/-! ## Making and removing -/

variable {path : List (BitVec 8)} {omode : Word}

/-- **`file_create`** leaves what is in the files. -/
theorem fileCreate_content (h : Fs.Kept s) (h0 : (0 : BitVec 8) ∉ path) (hc : s.Creatable path) {r : Except Int Nat}
    (hrun : fileCreate path s = some (r, s')) (hf : File s f) (hreg : ¬s.IsDir f) : SameContent f s s' := by
  obtain ⟨w, s₁, hwalk, hp, harr, hw⟩ := walkPath_spec h.tree h0
  have hstays := h.stays_passes hp walk_entry
  have hwalked := (h.same_passes hp walk_entry hf).content
  have hf₁ := hstays.file f hf
  unfold fileCreate at hrun
  rw [bind_of_ok hwalk] at hrun
  rcases hw with rfl | ⟨rfl, -⟩
  · rcases path_cases s path with ⟨p, x, hr, hobj⟩ | ⟨d, name, hr, hm, hin⟩ | hr | hr
    · rw [hr] at hrun
      cases hrun
      exact hwalked
    · have hheld : Fs.Held s₁ d := harr.dir d (by rw [hr]) (by rw [hr])
      have hd₁ := h.dir_passes hp walk_entry hm.dir
      have hroom : s₁.freeEntry d = none → s₁.Room d := fun hfree =>
        (hc d name hr ((passes_freeEntry h hp walk_entry hm.dir).symm.trans hfree)).passes h hp walk_entry hm.dir.file
      rw [hr] at hrun
      simp only [show (-eNotFound : Int) ≠ 0 by decide, if_false, ne_eq, not_true_eq_false] at hrun
      rcases dirAllocFile_spec hstays.kept hd₁ hheld hroom with ⟨e, s₂, hal, ha⟩ | ⟨s₂, hal, hp₂, -⟩
      · rw [bind_attempt hal] at hrun
        cases hrun
        have hfd : f ≠ d := fun hc => hreg (hc ▸ hm.dir.isDir)
        have he₂ : File s₂ e := by
          obtain ⟨i, hi, b, hb, hinside⟩ := mem_listing.1 ha.mem
          exact .entry d i b e (ha.file d hd₁.file) ha.isDir hi hb hinside
        refine (hwalked.trans (ha.same f hf₁ hfd).content).trans
          ((put_name ha.held (zero_not_mem h0 hin) hm.length).1.content ha.kept.toOwned (ha.file f hf₁) ?_)
        rintro a ⟨k, hk, rfl⟩
        by_cases hef : e = f
        · exact .inr ⟨k, hk, by rw [hef]⟩
        · exact .inl (.inr (.inr (.inl ⟨e, he₂, hef, .inr ⟨k, Nat.lt_trans hk (by decide), rfl⟩⟩)))
      · rw [bind_attempt hal] at hrun
        cases hrun
        exact hwalked.trans (hstays.kept.same_passes hp₂ not_nobody hf₁).content
    · rw [hr] at hrun
      cases hrun
      exact hwalked
    · rw [hr] at hrun
      cases hrun
      exact hwalked
  · cases hrun
    exact hwalked

/-- **`file_remove`** leaves what is in the files but the one that it removes, which has no bytes any more. -/
theorem fileRemove_content (h : Fs.Kept s) (h0 : (0 : BitVec 8) ∉ path)
    (hcuts : ∀ p f, s.resolve none sRoot (components path) = ⟨0, p, some f, []⟩ → s.Cuts f 0 ∧ false ∉ s.pages)
    {r : Except Int Unit} (hrun : fileRemove path s = some (r, s')) (hf : File s f) (hf' : File s' f) :
    SameContent f s s' ∨ s'.view (fSize f) = 0 := by
  obtain ⟨r', s₁, s₂, hrem, hp, hres⟩ := fileRemove_cases h h0 hcuts
  cases hrun.symm.trans hrem
  have hstays := h.stays_passes hp walk_entry
  have hwalked := (h.same_passes hp walk_entry hf).content
  have hf₁ := hstays.file f hf
  rcases hres with rfl | ⟨p, e, t, u, hr, hobj, hclear⟩
  · exact .inl hwalked
  · have he₁ := hstays.file e hobj.file
    by_cases hfe : f = e
    · subst hfe
      refine .inr ((hclear.quiet.edit.view _ id).trans ((hclear.unname.view _ fun hc => ?_).trans hclear.size))
      unfold fSize at hc
      omega
    · have hsame := (hclear.same hstays.kept.toOwned he₁ hf₁ hfe).content
      have hf₂ : File u f := ((hclear.quiet.still hclear.kept.toOwned).file f).1 hf'
      exact .inl ((hwalked.trans hsame).trans (hclear.quiet.content hclear.kept.toOwned hf₂))

end Fs

/-! ## Opening -/

namespace Serv

variable {srv srv' : Server} {refs : Nat → Nat} {path : List (BitVec 8)} {omode : Word}

theorem createIf_content (h : Fs.Kept srv.fs) (h0 : (0 : BitVec 8) ∉ path) (hs : srv.fs.OpenSafe path omode)
    {b : Bool} (hb : b = true → omode &&& oMkdir ≠ 0 ∨ omode &&& oCreat ≠ 0) {r : Except Int Unit}
    (hrun : createIf b path srv = some (r, srv')) (hf : File srv.fs f) (hreg : ¬srv.fs.IsDir f) :
    SameContent f srv.fs srv'.fs := by
  cases b with
  | false =>
    cases hrun
    exact (SameFile.refl f srv.fs).content
  | true =>
    have hcreatable := hs.creatable (hb rfl)
    obtain ⟨r₁, s₁, hcr, -⟩ := fileCreate_spec h h0 hcreatable
    have hsame := fileCreate_content h h0 hcreatable hcr hf hreg
    unfold createIf at hrun
    simp only [if_true] at hrun
    rw [bind_attempt (onFs_run hcr)] at hrun
    cases r₁ with
    | ok e =>
      cases hrun
      exact hsame
    | error e =>
      dsimp only at hrun
      split at hrun
      · cases hrun
        exact hsame
      · cases hrun
        exact hsame

theorem serveMap_get {fileid offset : Word} {r : Except Int Nat}
    (hopen : fileid.toNat < maxOpen ∧ 1 < refs fileid.toNat)
    (h : fileGetBlock (srv.oFile fileid.toNat) (offset.toNat / blockSize) srv.fs = some (r, s)) :
    serveMap refs fileid offset srv =
    some (.ok (replyOf (r.map fun a => .block (a / blockWords))), { srv with fs := s }) := by
  have hop : (fileGetBlock (srv.oFile fileid.toNat) (offset.toNat / blockSize) >>= fun blk =>
    pure (ReplyPage.block (blk / blockWords))) srv.fs =
      some (r.map fun a => .block (a / blockWords), s) := by
    cases r with
    | ok a => exact bind_of_ok h
    | error e => exact bind_of_error h
  have hrun : onOpen refs fileid (fun f => fileGetBlock f (offset.toNat / blockSize) >>= fun blk =>
    pure (.block (blk / blockWords))) srv =
      some (.ok (replyOf (r.map fun a => .block (a / blockWords))), { srv with fs := s }) := onOpen_run hopen hop
  exact hrun

/-- **`serve_open`** leaves what is in a file that is not empty, unless it cuts it off. -/
theorem serveOpen_content {reply : Reply} (h : Fs.Kept srv.fs) (h0 : (0 : BitVec 8) ∉ path)
    (hs : srv.fs.OpenSafe path omode) (hrun : serveOpen refs path omode srv = some (.ok reply, srv'))
    (hf : File srv.fs f) (hreg : ¬srv.fs.IsDir f) (hpos : srv.fs.view (fSize f) ≠ 0) :
    SameContent f srv.fs srv'.fs ∨ srv'.fs.view (fSize f) = 0 := by
  unfold serveOpen at hrun
  obtain ⟨r, s₁, halloc, hp₁, -, -⟩ := openAlloc_spec refs srv
  have hst₁ := h.stays_passes hp₁ not_nobody
  have hs₁ := hs.passes h hp₁ not_nobody
  have hsame₁ := (h.same_passes hp₁ not_nobody hf).content
  cases r with
  | error e =>
    cases hrun.symm.trans (answer_error (bind_of_error halloc))
    exact .inl hsame₁
  | ok i =>
    have hb : (omode &&& oMkdir != 0) = true → omode &&& oMkdir ≠ 0 ∨ omode &&& oCreat ≠ 0 :=
      fun hb => .inl (by simpa using hb)
    obtain ⟨r, s₂, hmk, ⟨-, hst₂, -, -⟩, hs₂⟩ := createIf_spec hst₁.kept h0 hs₁ hb
    have hf₁ := hst₁.file f hf
    have hsame₂ := hsame₁.trans (createIf_content hst₁.kept h0 hs₁ hb hmk hf₁ (mt hsame₁.dir.1 hreg))
    cases r with
    | error e =>
      cases hrun.symm.trans (answer_error ((bind_of_ok halloc).trans (bind_of_error hmk)))
      exact .inl hsame₂
    | ok u =>
      have hb : (omode &&& oCreat != 0) = true → omode &&& oMkdir ≠ 0 ∨ omode &&& oCreat ≠ 0 :=
        fun hb => .inr (by simpa using hb)
      obtain ⟨r, s₃, hcr, ⟨-, hst₃, -, -⟩, hs₃⟩ := createIf_spec hst₂.kept h0 (hs₂ rfl) hb
      have hf₂ := hst₂.file f hf₁
      have hsame₃ := hsame₂.trans (createIf_content hst₂.kept h0 (hs₂ rfl) hb hcr hf₂ (mt hsame₂.dir.1 hreg))
      have hf₃ := hst₃.file f hf₂
      cases r with
      | error e =>
        cases hrun.symm.trans (answer_error ((bind_of_ok halloc).trans ((bind_of_ok hmk).trans (bind_of_error hcr))))
        exact .inl hsame₃
      | ok u =>
        obtain ⟨r, t, hopen, hp, hres⟩ := fileOpen_spec hst₃.kept h0
        have hstt := hst₃.kept.stays_passes hp fun _ hf => hf
        have hso := (hs₃ rfl).passes hst₃.kept hp fun _ hf => hf
        have hsamet := hsame₃.trans (hst₃.kept.same_passes hp (fun _ hf => hf) hf₃).content
        have hft := hstt.file f hf₃
        rcases hres with ⟨p, e, rfl, hr, -, hheld⟩ | ⟨e, rfl⟩
        · have hrt : t.resolve none sRoot (components path) = ⟨0, p, some e, []⟩ :=
            (passes_resolve hst₃.kept hp (fun _ hf => hf) components_ne_nil none).trans hr
          have htarget : t.Target path e := .inl ⟨p, hrt⟩
          obtain ⟨t₂, hdir, hst₄, htr, -, -, hsd⟩ := setDir_spec hstt.kept htarget.file hheld hso htarget
          obtain ⟨t₃, hcut, -, -, -, hsc⟩ := cutOff_spec hst₄.kept (hst₄.file e htarget.file) (hst₄.held hheld) htr
          obtain ⟨srv'', hrest, hfs, -⟩ := @opened_spec t₂ { s₃ with fs := t } omode e i t₃ hdir hcut
          cases hrun.symm.trans (answer_ok ((bind_of_ok halloc).trans ((bind_of_ok hmk).trans ((bind_of_ok hcr).trans
            ((bind_of_ok (onFs_run hopen)).trans hrest)))))
          rw [hfs]
          -- what `O_MKDIR` makes a directory is one, or has nothing in it
          have hmkdir : f = e → omode &&& oMkdir = 0 ∨ t.IsDir f := by
            rintro rfl
            by_cases hm : omode &&& oMkdir = 0
            · exact .inl hm
            · exact .inr ((hso.mkdir hm f htarget).resolve_right fun hbare => hpos (hsamet.size.symm.trans hbare.size))
          have hsame₄ := hsamet.trans (hsd f hft hmkdir).content
          rcases hsc f (hst₄.file f hft) with hsame | ⟨-, -, -, -, hzero⟩
          · exact .inl (hsame₄.trans hsame.content)
          · exact .inr hzero
        · cases hrun.symm.trans (answer_error ((bind_of_ok halloc).trans ((bind_of_ok hmk).trans ((bind_of_ok hcr).trans
            (bind_of_error (onFs_run hopen))))))
          exact .inl hsamet

end Serv

/-! ## Runs -/

namespace Desk

variable {t t' : Desk}

/-- A request makes a file larger: it gets the positions at and behind its old end. -/
def Exposes (t : Desk) : DeskAct → Nat → Nat → Prop
  | .ask (.setSize fileid _) _, f, p => t.Opens fileid ∧ f = t.file fileid ∧ (t.server.fs.view (fSize f)).toNat ≤ p
  | _, _, _ => False

/-- A client writes the byte at a position.  One that keeps its value stays fresh. -/
def Overwrites (t : Desk) : DeskAct → Nat → Nat → Prop
  | .write a w, f, p =>
    t.server.fs.blockAt f (p / blockSize) = some (a / blockWords) ∧ p % blockSize / 4 = a % blockWords ∧
      getByte w (p % 4) ≠ getByte (t.server.fs.view a) (p % 4)
  | _, _, _ => False

/-- **The step brings nothing old into a file**: there are zeroes where a file is made larger over blocks that it has,
and a block that a file gets has no stale page. -/
def Tidy (t : Desk) : DeskAct → Prop
  | .ask (.setSize fileid size) _ =>
    t.Opens fileid → ∀ p, (t.server.fs.view (fSize (t.file fileid))).toNat ≤ p → p < size.toNat →
      ∀ c ∈ t.server.fs.byteOf (t.file fileid) p, c = 0
  | .ask (.map fileid offset) _ =>
    t.Opens fileid → t.server.fs.blockAt (t.file fileid) (offset.toNat / blockSize) = none →
      t.server.fs.Clean (1 + t.server.fs.wants (t.file fileid) (offset.toNat / blockSize))
  | _ => True

/-- **What a client reads** at a position: the byte on the page that it is given. -/
def reads (t : Desk) (fileid p : Word) : Option (BitVec 8) :=
  (serveTable t.refs (.map fileid p) t.server).bind fun r =>
    match r.1 with
    | .ok ⟨_, .block b⟩ => some (getByte (r.2.fs.view (diskAddr b + p.toNat % blockSize / 4)) (p.toNat % 4))
    | _ => none

theorem Inv.setSize (h : Inv t) {fileid size : Word} (hs : t.AskSafe (.setSize fileid size)) (hopen : t.Opens fileid)
    {reply : Reply} {srv : Server} (hrun : serveTable t.refs (.setSize fileid size) t.server = some (.ok reply, srv)) :
    Resized (t.file fileid) size t.server.fs srv.fs := by
  obtain ⟨hf, hheld⟩ := h.files _ hopen.1 hopen.2
  obtain ⟨u, hset, hr⟩ := fileSetSize_resizes h.kept.toSound hf hheld (h.kept.linked hf) (hs hopen).1
  cases hrun.symm.trans (Serv.onOpen_ok (x := fun f => fileSetSize f size) hopen hset)
  exact hr

/-- **A request leaves what is in a file at a position**, or zero. -/
theorem Inv.ask_keepsByte (h : Inv t) {rq : Fsreq} {refs : Nat → Nat} (hs : t.AskSafe rq)
    (htidy : t.Tidy (.ask rq refs)) {reply : Reply} {srv : Server}
    (hrun : serveTable t.refs rq t.server = some (.ok reply, srv)) (hf : File t.server.fs f)
    (hreg : ¬t.server.fs.IsDir f) (hnew : srv.fs.Has f p)
    (hpos : ∀ path omode, rq = .openFile path omode → p < (t.server.fs.view (fSize f)).toNat) :
    KeepsByte f p t.server.fs srv.fs := by
  have hkept := h.kept
  have hquiet : ∀ {u : Fs}, Quiet t.server.fs u → KeepsByte f p t.server.fs u :=
    fun hq => (hq.content hkept.toOwned hf).keepsByte hreg
  have hzero : srv.fs.view (fSize f) ≠ 0 := fun hz => by
    have hlt := hnew.lt
    rw [hz] at hlt
    exact Nat.not_lt_zero p hlt
  have hfile : ∀ {fileid : Word}, rq.fileid = some fileid → (t.Opens fileid → File t.server.fs (t.file fileid) →
      Fs.Held t.server.fs (t.file fileid) → KeepsByte f p t.server.fs srv.fs) → KeepsByte f p t.server.fs srv.fs := by
    intro fileid hrq hyes
    by_cases hopen : t.Opens fileid
    · obtain ⟨he, hheld⟩ := h.files _ hopen.1 hopen.2
      exact hyes hopen he hheld
    · cases hrun.symm.trans (refused hrq hopen)
      exact hquiet (.refl _)
  cases rq with
  | openFile path omode =>
    have hlt := hpos path omode rfl
    refine ((Serv.serveOpen_content hkept hs.1 hs.2 hrun hf hreg fun hz => ?_).resolve_right hzero).keepsByte hreg
    rw [hz] at hlt
    exact Nat.not_lt_zero p hlt
  | map fileid offset =>
    refine hfile rfl fun hopen he hheld => ?_
    obtain ⟨hdir, hclean⟩ := hs hopen
    obtain ⟨r, u, hget, -⟩ := fileGetBlock_stays hkept he hheld hdir hclean
    obtain ⟨reply', hserve, -⟩ := Serv.serveMap_run hopen hget
    cases hrun.symm.trans hserve
    exact fileGetBlock_keepsByte hkept he hheld hdir hclean (htidy hopen) hf hreg hget
  | setSize fileid size =>
    exact hfile rfl fun hopen he _ => (h.setSize hs hopen hrun).keepsByte hkept.toOwned he hf hreg
  | close fileid =>
    refine hfile rfl fun hopen he hheld => ?_
    obtain ⟨u, hclose, hq⟩ := fileClose_quiet hkept he hheld
    cases hrun.symm.trans (Serv.onOpen_ok (x := fileClose) hopen hclose)
    exact hquiet hq
  | dirty fileid offset =>
    refine hfile rfl fun hopen he hheld => ?_
    obtain ⟨r, u, hdirty, hq⟩ := fileDirty_quiet hkept.toOwned he hheld offset
    cases r with
    | ok x =>
      cases hrun.symm.trans (Serv.onOpen_ok (x := fun f => fileDirty f offset) hopen hdirty)
      exact hquiet hq
    | error e =>
      cases hrun.symm.trans (Serv.onOpen_error (x := fun f => fileDirty f offset) hopen hdirty)
      exact hquiet hq
  | remove path =>
    have hcuts : ∀ p f, t.server.fs.resolve none sRoot (components path) = ⟨0, p, some f, []⟩ → t.server.fs.Cuts f 0 ∧
        false ∉ t.server.fs.pages :=
      fun p f hr => ⟨(hs.2 p f hr).1, (hs.2 p f hr).2.1⟩
    obtain ⟨r, u, hrem, -⟩ := fileRemove_removes hkept hs.1 hcuts
    cases r with
    | ok x =>
      cases hrun.symm.trans (Serv.answer_ok (bind_of_ok (Serv.onFs_run hrem)))
      exact ((fileRemove_content hkept hs.1 hcuts hrem hf hnew.file).resolve_right hzero).keepsByte hreg
    | error e =>
      cases hrun.symm.trans (Serv.answer_error (bind_of_error (Serv.onFs_run hrem)))
      exact ((fileRemove_content hkept hs.1 hcuts hrem hf hnew.file).resolve_right hzero).keepsByte hreg
  | sync =>
    obtain ⟨u, hsync, hq⟩ := fsSync_quiet hkept.toOwned
    have heq : serveTable t.refs .sync t.server = some (.ok ⟨0, .none⟩, { t.server with fs := u }) :=
      bind_of_ok (Serv.onFs_run hsync)
    cases hrun.symm.trans heq
    exact hquiet hq

end Desk

/-- The server, and the positions of files that are fresh. -/
structure Exposing where
  desk : Desk
  fresh : Nat → Nat → Prop

namespace Exposing

variable {t t' : Exposing}

/-- **A position is fresh** while the file has it, from the time that the file grows over it until a client writes
it. -/
def freshAfter (t : Exposing) (a : DeskAct) (d : Desk) (f p : Nat) : Prop :=
  d.server.fs.Has f p ∧ (t.fresh f p ∧ ¬t.desk.Overwrites a f p ∨ t.desk.Exposes a f p)

def step (t : Exposing) (a : DeskAct) : Option Exposing := (t.desk.step a).map fun d => ⟨d, t.freshAfter a d⟩

def Init (t : Exposing) : Prop := t.desk.Init ∧ ∀ f p, ¬t.fresh f p

/-- The condition on a step. -/
def Safe (t : Exposing) (a : DeskAct) : Prop := t.desk.Safe a ∧ t.desk.Tidy a

/-- **What a client reads at a fresh position is zero.** -/
def ReadsZero (t : Exposing) (fileid p : Word) : Prop :=
  t.desk.Opens fileid → t.fresh (t.desk.file fileid) p.toNat → ∀ c ∈ t.desk.reads fileid p, c = 0

/-- What a run keeps: a fresh position is one of its file, and has a zero, where it has a block. -/
structure Inv (t : Exposing) : Prop where
  desk : t.desk.Inv
  has : ∀ f p, t.fresh f p → t.desk.server.fs.Has f p
  zero : ∀ f p, t.fresh f p → ∀ c ∈ t.desk.server.fs.byteOf f p, c = 0

theorem Inv.write (h : Inv t) {a : Nat} {w : Word} (hs : t.desk.Safe (.write a w))
    (hm : t.desk.server.fs.mapped (a / blockWords) = true) {c : BitVec 8} (hfresh : t.fresh f p)
    (hno : ¬t.desk.Overwrites (.write a w) f p) (hc : c ∈ (t.desk.server.fs.put a w).byteOf f p) : c = 0 := by
  obtain ⟨e, i, he, hreg, hat⟩ := hs
  obtain ⟨-, hstill⟩ := h.desk.kept.write he hreg hat rfl (put_edit w)
  obtain ⟨b, hb, rfl⟩ := mem_byteOf.1 hc
  have hwas : t.desk.server.fs.blockAt f (p / blockSize) = some b :=
    (congrFun (hstill.agree (h.has f p hfresh).file).holds (.block _)).symm.trans hb
  have hold := h.zero f p hfresh _ (mem_byteOf.2 ⟨b, hwas, rfl⟩)
  rw [put_view hm]
  by_cases heq : diskAddr b + p % blockSize / 4 = a
  · subst heq
    rw [if_pos rfl]
    have hdiv := diskAddr_div b (byte_lt p)
    have hmod : (diskAddr b + p % blockSize / 4) % blockWords = p % blockSize / 4 := by
      have hlt := byte_lt p
      unfold diskAddr
      exact Nat.mul_add_mod_of_lt hlt
    by_contra hne
    exact hno ⟨by rw [hdiv]; exact hwas, hmod.symm, fun hsame => hne (hsame.trans hold)⟩
  · rw [if_neg heq]
    exact hold

theorem Inv.step {a : DeskAct} (h : Inv t) (hs : t.Safe a) (ht : t.step a = some t') : Inv t' := by
  obtain ⟨d, hd, rfl⟩ := Option.map_eq_some_iff.1 ht
  refine ⟨h.desk.step hs.1 hd, fun f p hp => hp.1, ?_⟩
  rintro f p ⟨hhas, hfresh⟩ c hc
  unfold Desk.step at hd
  cases a with
  | write a w =>
    dsimp only at hd
    split at hd
    · rename_i hm
      cases hd
      rcases hfresh with ⟨hfresh, hno⟩ | hexp
      · exact h.write hs.1 hm hfresh hno hc
      · exact hexp.elim
    · cases hd
  | ask rq refs =>
    obtain ⟨⟨r, srv⟩, hrun, hd⟩ := Option.bind_eq_some_iff.1 hd
    cases r with
    | error e => cases hd
    | ok reply =>
      dsimp only at hd
      split at hd
      · cases hd
        rcases hfresh with ⟨hfresh, -⟩ | hexp
        · have hold := h.has f p hfresh
          exact (h.desk.ask_keepsByte hs.1 hs.2 hrun hold.file hold.regular hhas (fun _ _ _ => hold.lt) c hc).elim
            (h.zero f p hfresh c) id
        · cases rq with
          | setSize fileid size =>
            obtain ⟨hopen, rfl, hle⟩ := hexp
            have hr := h.desk.setSize hs.1 hopen hrun
            have hlt : p < size.toNat := hr.size ▸ hhas.lt
            have hask : t.desk.AskSafe (.setSize fileid size) := hs.1
            exact (h.desk.ask_keepsByte hask hs.2 hrun (h.desk.files _ hopen.1 hopen.2).1
              (mt hr.dir.2 hhas.regular) hhas
              (fun _ _ hc => by cases hc) c hc).elim (hs.2 hopen p hle hlt c) id
          | _ => exact hexp.elim
      · cases hd

theorem inv_run (h : Run Init step Safe t) : Inv t :=
  Run.invariant Inv (fun t ht =>
    ⟨Desk.inv_run (.start t.desk ht.1), fun f p hp => absurd hp (ht.2 f p), fun f p hp => absurd hp (ht.2 f p)⟩)
    (fun _ _ _ hi hs ht => hi.step hs ht) t h

theorem Inv.map (h : Inv t) {fileid p : Word} {refs : Nat → Nat} (hs : t.Safe (.ask (.map fileid p) refs))
    (hopen : t.desk.Opens fileid) (hfresh : t.fresh (t.desk.file fileid) p.toNat) {c : BitVec 8}
    (hc : c ∈ t.desk.reads fileid p) :
    ∃ s, KeepsByte (t.desk.file fileid) p.toNat t.desk.server.fs s ∧ c ∈ s.byteOf (t.desk.file fileid) p.toNat := by
  obtain ⟨hdir, hclean⟩ := hs.1 hopen
  obtain ⟨hf, hheld⟩ := h.desk.files _ hopen.1 hopen.2
  have hreg := (h.has _ _ hfresh).regular
  obtain ⟨r, s, hget, -, hres⟩ := fileGetBlock_alloc h.desk.kept.toOwned hf hheld hclean fun hg => absurd hg.1 hreg
  refine ⟨s, fileGetBlock_keepsByte h.desk.kept hf hheld hdir hclean (hs.2 hopen) hf hreg hget, ?_⟩
  have hrun : serveTable t.desk.refs (.map fileid p) t.desk.server = _ := Serv.serveMap_get hopen hget
  unfold Desk.reads at hc
  rw [hrun] at hc
  rcases hres with ⟨b, rfl, hb, -⟩ | ⟨e, rfl, -⟩
  · refine mem_byteOf.2 ⟨b, hb, ?_⟩
    have hdiv : diskAddr b / blockWords = b := Nat.mul_div_cancel b (show 0 < blockWords by decide)
    have hc : getByte (s.view (diskAddr (diskAddr b / blockWords) + p.toNat % blockSize / 4)) (p.toNat % 4) =
        c := Option.some.inj hc
    rw [hdiv] at hc
    exact hc
  · cases hc

/-- **In every state of a run that brings nothing old into a file, what is fresh reads zero.** -/
theorem exposed_zero (h : Run Init step Safe t) {fileid p : Word} (refs : Nat → Nat)
    (hs : t.Safe (.ask (.map fileid p) refs)) :
    t.ReadsZero fileid p := by
  intro hopen hfresh c hc
  have hi := inv_run h
  obtain ⟨s, hkeeps, hcs⟩ := hi.map hs hopen hfresh hc
  exact (hkeeps c hcs).elim (hi.zero _ _ hfresh c) id

def atBoot : Exposing := ⟨Desk.atBoot [], fun _ _ => False⟩

theorem atBoot_init : Init atBoot := ⟨Desk.atBoot_init [], fun _ _ => id⟩

/-- The first open file gets four bytes. -/
def fourBytes : DeskAct := .ask (.setSize 0 4) (Function.update (fun _ => 0) 0 2)

theorem fresh_four {d : Desk} (hopen : t.desk.Opens 0)
    (hone : (t.desk.server.fs.view (fSize (t.desk.file 0))).toNat ≤ 1) (hroot : d.server.fs.IsDir sRoot)
    (hlist : t.desk.file 0 ∈ d.server.fs.listing sRoot) (hreg : ¬d.server.fs.IsDir (t.desk.file 0))
    (hlt : 1 < (d.server.fs.view (fSize (t.desk.file 0))).toNat) : t.freshAfter fourBytes d (t.desk.file 0) 1 :=
  ⟨⟨Dir.entry ⟨.root, hroot⟩ hlist, hreg, hlt⟩, .inr ⟨hopen, rfl, hone⟩⟩

/-- A file that was made gets four bytes, and has no block yet. -/
theorem exposed_zero_grown :
    ∃ t, Run Init step Safe t ∧ t.desk.Opens 0 ∧ t.fresh (t.desk.file 0) 1 ∧ t.ReadsZero 0 1 := by
  have hsteps : ((Desk.atBoot []).step Desk.opensFirst).any (fun d : Desk => decide (1 < d.refs 0) &&
      decide ((d.server.fs.view (fSize (d.file 0))).toNat ≤ 1) &&
        decide (d.server.fs.view (fType (d.file 0)) ≠ ftypeDir) &&
      decide (d.server.fs.blockAt (d.file 0) 0 = none) && (d.step fourBytes).any fun d' : Desk =>
        decide (1 < d'.refs 0) &&
        decide (d'.file 0 = d.file 0) && decide (d'.server.fs.view (fType sRoot) = ftypeDir) &&
        decide (d.file 0 ∈ d'.server.fs.listing sRoot) && decide (d'.server.fs.view (fType (d.file 0)) ≠ ftypeDir) &&
        decide (1 < (d'.server.fs.view (fSize (d.file 0))).toNat) && decide (d'.server.fs.freeBlocks.take 1 = [4]) &&
        decide (d'.server.fs.mapped 4 = false)) = true := by decide +kernel
  obtain ⟨d, hd, hfacts⟩ := (Option.any_eq_true _ _).1 hsteps
  simp only [Bool.and_eq_true, decide_eq_true_eq, Option.any_eq_true] at hfacts
  obtain ⟨⟨⟨⟨hopen, hone⟩, hreg⟩, hnone⟩, d', hd',
    ⟨⟨⟨⟨⟨⟨hopen', hfile⟩, hroot⟩, hlist⟩, hreg'⟩, hlt⟩, hfirst⟩, hmapped⟩ := hfacts
  have hopens : d.Opens 0 := ⟨by decide, hopen⟩
  have hrun : Run Init step Safe ⟨d, atBoot.freshAfter Desk.opensFirst d⟩ :=
    .next atBoot Desk.opensFirst _ (.start _ atBoot_init) ⟨Desk.opensFirst_safe, trivial⟩ (by
      unfold step
      rw [show atBoot.desk = Desk.atBoot [] from rfl, hd]
      rfl)
  have hsafe : Safe ⟨d, atBoot.freshAfter Desk.opensFirst d⟩ fourBytes := by
    refine ⟨fun _ => ⟨fun hlt => ?_, fun hdir => absurd hdir hreg⟩, fun _ p _ hp c hc => ?_⟩
    · have hlt : (4 : Word).toNat < (d.server.fs.view (fSize (d.file 0))).toNat := BitVec.lt_def.1 hlt
      exact absurd (Nat.lt_of_lt_of_le hlt hone) (by decide)
    · obtain ⟨b, hb, -⟩ := mem_byteOf.1 hc
      rw [Nat.div_eq_of_lt (Nat.lt_trans hp (by decide))] at hb
      cases hb.symm.trans hnone
  have hrun' : Run Init step Safe ⟨d', freshAfter ⟨d, atBoot.freshAfter Desk.opensFirst d⟩ fourBytes d'⟩ :=
    .next _ fourBytes _ hrun hsafe (by unfold step; rw [hd']; rfl)
  have hfresh := @fresh_four ⟨d, atBoot.freshAfter Desk.opensFirst d⟩ d' hopens hone hroot hlist hreg' hlt
  refine ⟨_, hrun', ⟨by decide, hopen'⟩, by rw [hfile]; exact hfresh,
    exposed_zero hrun' d'.refs ⟨fun _ => ⟨fun hdir => ?_, fun h10 => ?_⟩, fun _ _ => ?_⟩⟩
  · have hdir : d'.server.fs.IsDir (d'.file 0) := hdir
    rw [hfile] at hdir
    exact absurd hdir hreg'
  · exact absurd h10 (by decide)
  · intro b hb k _
    have hb : b ∈ d'.server.fs.freeBlocks.take 1 := hb
    rw [hfirst] at hb
    obtain rfl := List.mem_singleton.1 hb
    unfold leftover
    rw [hmapped]
    rfl

/-- A client writes a block of its file, and has the file cut to one byte and made larger again. -/
def growsBack : List DeskAct :=
  let refs := Function.update (fun _ => 0) 0 2
  [Desk.opensFirst, fourBytes, .ask (.map 0 0) refs, .write (diskAddr 4) 0x01010101, .ask (.setSize 0 1) refs]

/-- **What was cut off is there again.** -/
theorem exposed_zero_fails : ¬∀ t, Reach Init step t → ∀ fileid p, t.ReadsZero fileid p := by
  obtain ⟨t, hrun, ht⟩ :=
    @Run.exists_of_exec Exposing DeskAct Init step (fun _ _ => True) (fun _ _ => true) (fun _ _ _ => trivial)
    growsBack (some atBoot) (fun _ h => Option.some.inj h ▸ atBoot_init)
    (fun t => decide (1 < t.desk.refs 0) && decide ((t.desk.server.fs.view (fSize (t.desk.file 0))).toNat ≤ 1) &&
      (t.desk.step fourBytes).any fun d : Desk => decide (1 < d.refs 0) && decide (d.file 0 = t.desk.file 0) &&
        decide (d.server.fs.view (fType sRoot) = ftypeDir) && decide (t.desk.file 0 ∈ d.server.fs.listing sRoot) &&
        decide (d.server.fs.view (fType (t.desk.file 0)) ≠ ftypeDir) &&
          decide (1 < (d.server.fs.view (fSize (t.desk.file 0))).toNat) &&
        decide (d.reads 0 1 = some 1)) (by decide +kernel)
  simp only [Bool.and_eq_true, decide_eq_true_eq, Option.any_eq_true] at ht
  obtain ⟨⟨hopen, hone⟩, d, hd, ⟨⟨⟨⟨⟨hopen', hfile⟩, hroot⟩, hlist⟩, hreg⟩, hlt⟩, hread⟩ := ht
  intro hall
  have hnext : Reach Init step ⟨d, t.freshAfter fourBytes d⟩ :=
    .next t fourBytes _ hrun trivial (by unfold step; rw [hd]; rfl)
  have hfresh := fresh_four ⟨by decide, hopen⟩ hone hroot hlist hreg hlt
  have hzero := hall _ hnext 0 1 ⟨by decide, hopen'⟩ (by rw [hfile]; exact hfresh) 1 hread
  exact absurd hzero (by decide)

end Exposing

end Mos
