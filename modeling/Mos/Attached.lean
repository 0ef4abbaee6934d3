import Mos.ReadWrite
import Mos.Truncating
import Mos.Upkeep
/-!
# Attached — an open file in its client

The pages of the data of a descriptor are the blocks of the file in the cache of the server: what the client reads
there are the bytes of the file, and what it writes there is in the file.
-/
namespace Mos

open Fallible FilePtr Fs

namespace Client

variable {c c' : Client} {path : List (BitVec 8)} {byte byte' : Nat → BitVec 8} {f j : Nat} {i o : Word}

/-- The code is one of memory or of the disk. -/
def Exhausted (e : Int) : Prop := e = -eNoMem ∨ e = -eNoDisk

theorem Exhausted.neg {e : Int} (h : Exhausted e) : e < 0 := by
  rcases h with rfl | rfl
  · decide
  · decide

/-- **The descriptor `i` is that of entry `j`**, which is the file `f`, and no other descriptor of the client is one
of a file. -/
structure Attached (path : List (BitVec 8)) (f : Nat) (i : Word) (j : Nat) (byte : Nat → BitVec 8)
    (c : Client) : Prop where
  served : Served c.srv.fs path f byte
  lt : i.toNat < maxFd
  page : ∃ perm, c.page (index2fd i) = some ⟨.openFile j, perm⟩
  entry : j < maxOpen
  shared : 1 < c.refs j
  file : c.srv.oFile j = f
  devId : c.srv.oFf j fdDevId = devfileId
  fileid : c.srv.oFf j fFileid = BitVec.ofNat 32 j
  lone : ∀ va p k, c.page va = some p → p.frame = .openFile k → Same va (index2fd i)

/-- **The page of the data is the block of the file**, in the cache. -/
def DataPage (f : Nat) (i : Word) (o : Word) (c : Client) : Prop :=
  ∃ b perm, c.page (index2data i + o) = some ⟨.block b, perm⟩ ∧
  c.srv.fs.blockAt f (o.toNat / blockSize) = some b ∧ c.srv.fs.mapped b = true

/-- The pages of the data up to a size. -/
def Pages (f : Nat) (i : Word) (size : Nat) (c : Client) : Prop :=
  ∀ o : Word, o.toNat / 4096 * 4096 < size → DataPage f i o c

namespace Attached

theorem congr (h : Attached path f i j byte c) (hs : Served c'.srv.fs path f byte')
    (hfile : c'.srv.oFile = c.srv.oFile) (hff : ∀ w, w = fdDevId ∨ w = fFileid → c'.srv.oFf j w = c.srv.oFf j w)
    (hrefs : c'.refs j = c.refs j) (hfd : c'.page (index2fd i) = c.page (index2fd i))
    (hpage : ∀ va p, c'.page va = some p → c.page va = some p ∨ ∀ k, p.frame ≠ .openFile k) :
    Attached path f i j byte' c' :=
  ⟨hs, h.lt, h.page.imp fun _ hp => hfd.trans hp, h.entry, hrefs ▸ h.shared, hfile ▸ h.file,
    (hff _ (.inl rfl)).trans h.devId,
    (hff _ (.inr rfl)).trans h.fileid, fun va p k hp hk =>
    h.lone va p k ((hpage va p hp).resolve_right fun hno => hno k hk) hk⟩

theorem fileid_toNat (h : Attached path f i j byte c) : (BitVec.ofNat 32 j : Word).toNat = j := by
  have hm : maxOpen = 1024 := rfl
  have hj := h.entry
  rw [BitVec.toNat_ofNat]
  exact Nat.mod_eq_of_lt (by omega)

theorem opens (h : Attached path f i j byte c) :
    (BitVec.ofNat 32 j : Word).toNat < maxOpen ∧ 1 < c.refs (BitVec.ofNat 32 j : Word).toNat := by
  rw [h.fileid_toNat]
  exact ⟨h.entry, h.shared⟩

theorem oFile (h : Attached path f i j byte c) : c.srv.oFile (BitVec.ofNat 32 j : Word).toNat = f := by
  rw [h.fileid_toNat]
  exact h.file

theorem upkeep (h : Attached path f i j byte c) {t : Fs} (hs : Served t path f byte') :
    Attached path f i j byte' { c with srv := { c.srv with fs := t } } :=
  h.congr hs rfl (fun _ _ => rfl) rfl rfl fun _ _ hp => .inl hp

theorem openFile (h : Attached path f i j byte c) : OpenFile c i j (c.srv.oFf j fFileSize) := ⟨h.lt, h.page, rfl⟩

theorem data_frame (h : Attached path f i j byte c) (ho : o.toNat < 0x400000) {p : Page}
    (hp : c.page (index2data i + o) = some p) (k : Nat) :
    p.frame ≠ .openFile k := fun hk =>
  not_same_data h.lt ho (by
    obtain ⟨h1, h2⟩ := h.lone _ _ _ hp hk
    exact ⟨h1.symm, h2.symm⟩)

end Attached

theorem DataPage.upkeep (h : DataPage f i o c) {t : Fs} (hup : Upkeep f c.srv.fs t) :
    DataPage f i o { c with srv := { c.srv with fs := t } } := by
  obtain ⟨b, perm, hp, hb, hm⟩ := h
  exact ⟨b, perm, hp, hup.keeps _ b hb, hup.stays.maps b hm⟩

/-! ## Requests -/

theorem fsipc_zero {req : Fsreq} {reply : Reply} {s : Server} (hno : isOpen req = false)
    (h : serveTable c.refs req c.srv = some (.ok reply, s)) (hv : 0 ≤ reply.value) :
    fsipc req 0 c = some (.ok (), { c with srv := s }) := by
  unfold fsipc
  rw [if_neg fun hc => hc.1 rfl, h, Option.bind_some, hno]
  dsimp only
  rw [if_neg (Int.not_lt.2 hv), if_pos rfl]
  rfl

theorem fsipc_refused {req : Fsreq} {reply : Reply} {s : Server} {dstva : Word}
    (hlegal : ¬(dstva ≠ 0 ∧ isIllegalVa dstva = true)) (h : serveTable c.refs req c.srv = some (.ok reply, s))
    (hv : reply.value < 0) : fsipc req dstva c =
      some (.error reply.value,
        { c with srv := s, refs := if isOpen req then afterAlloc c.refs c.srv else c.refs }) := by
  unfold fsipc
  rw [if_neg hlegal, h, Option.bind_some]
  dsimp only
  rw [if_pos hv]

theorem fsipc_page_run (fr : Frame) {req : Fsreq} {page : ReplyPage} {s : Server} {dstva : Word}
    (hd : isIllegalVa dstva = false) (h0 : dstva ≠ 0) (h : serveTable c.refs req c.srv = some (.ok ⟨0, page⟩, s))
    (hfr : replyFrame page = some fr) : fsipc req dstva c =
      orPanic (Client.pageInsert dstva fr (pteD ||| pteLibrary))
        { c with srv := s, refs := if isOpen req then afterAlloc c.refs c.srv else c.refs } := by
  have hlegal : ¬(dstva ≠ 0 ∧ isIllegalVa dstva = true) := fun hc => Bool.eq_false_iff.1 hd hc.2
  unfold fsipc
  rw [if_neg hlegal, h, Option.bind_some]
  dsimp only
  rw [if_neg (Int.lt_irrefl 0), if_neg h0, hfr]

theorem pageInsert_refs {va perm : Word} {fr : Frame} {old : Option Page} (hold : c.page va = old)
    (h : Client.pageInsert va fr perm c = some (.ok (), c')) :
    c'.refs = retake c.refs old (some ⟨fr, perm ||| pteCCacheable ||| pteV⟩) := by
  subst hold
  unfold Client.pageInsert at h
  dsimp only at h
  split at h
  · rename_i t ht
    cases h
    rw [page_of_table ht rfl]
    rfl
  · rename_i ht
    have hnone : c.page va = none := by
      unfold Client.page
      rw [ht]
      rfl
    rw [hnone]
    split at h
    · cases h
      rfl
    · cases h

/-- The references to the pages of the open files, where an entry changes that is none of theirs. -/
theorem retake_block {refs : Nat → Nat} {old new : Option Page} {k : Nat}
    (hold : ∀ p, old = some p → p.frame ≠ .openFile k) (hnew : ∀ p, new = some p → p.frame ≠ .openFile k) :
    retake refs old new k = refs k := by
  have hone : ∀ p : Option Page, (∀ q, p = some q → q.frame ≠ .openFile k) → ¬p.map (·.frame) = some (.openFile k) := by
    rintro p hp heq
    obtain ⟨q, hq, hf⟩ := Option.map_eq_some_iff.1 heq
    exact hp q hq hf
  unfold retake
  dsimp only
  rw [if_neg (hone old hold), if_neg (hone new hnew)]
  rfl

theorem data_ne_zero (hi : i.toNat < maxFd) (ho : o.toNat < 0x400000) : index2data i + o ≠ 0 := by
  intro hc
  have hm : maxFd = 32 := rfl
  have hsum := congrArg BitVec.toNat hc
  rw [BitVec.toNat_add, index2data_toNat hi] at hsum
  have hzero : (0 : Word).toNat = 0 := rfl
  omega

/-- **The file is as it was**, and the pages of the data that were its blocks, or are at the offsets, are. -/
structure Maps (path : List (BitVec 8)) (f : Nat) (i : Word) (j : Nat) (byte : Nat → BitVec 8) (os : List Word)
    (c c' : Client) : Prop where
  attached : Attached path f i j byte c'
  words : c'.srv.oFf = c.srv.oFf
  size : c'.srv.fs.view (fSize f) = c.srv.fs.view (fSize f)
  data : ∀ o : Word, o.toNat < 0x400000 → DataPage f i o c ∨
    (∃ o' ∈ os, o.toNat / 4096 = o'.toNat / 4096) → DataPage f i o c'

theorem Maps.nil (h : Attached path f i j byte c) : Maps path f i j byte [] c c :=
  ⟨h, rfl, rfl, fun _ _ hor => hor.resolve_right fun ⟨_, hc, _⟩ => List.not_mem_nil hc⟩

theorem Maps.cons {os : List Word} {c'' : Client} (h : Maps path f i j byte [o] c c')
    (h' : Maps path f i j byte os c' c'') :
    Maps path f i j byte (o :: os) c c'' := by
  refine ⟨h'.attached, h'.words.trans h.words, h'.size.trans h.size, fun x hx hor => h'.data x hx ?_⟩
  rcases hor with hd | ⟨o', ho', heq⟩
  · exact .inl (h.data x hx (.inl hd))
  · rcases List.mem_cons.1 ho' with rfl | ho'
    · exact .inl (h.data x hx (.inr ⟨o', List.mem_singleton_self o', heq⟩))
    · exact .inr ⟨o', ho', heq⟩

theorem Maps.trans {byte' : Nat → BitVec 8} {c'' : Client} (h : Maps path f i j byte [] c c')
    (h' : Maps path f i j byte' [] c' c'') :
    Maps path f i j byte' [] c c'' :=
  ⟨h'.attached, h'.words.trans h.words, h'.size.trans h.size, fun x hx hor =>
    h'.data x hx (.inl (h.data x hx (.inl (hor.resolve_right fun ⟨_, hc, _⟩ => List.not_mem_nil hc))))⟩

/-- **`fsipc_map`** for a page of the data. -/
theorem Attached.map (h : Attached path f i j byte c) (ho : o.toNat < 0x400000) {r : Except Int Unit}
    (hrun : fsipcMap (BitVec.ofNat 32 j) o (index2data i + o) c = some (r, c')) :
    (∃ e, r = .error e ∧ Exhausted e ∧ Attached path f i j byte c') ∨ (r = .ok () ∧ Maps path f i j byte [o] c c') := by
  have hb : blockSize = 4096 := rfl
  have hi : o.toNat / blockSize < nIndirect := by
    rw [hb]
    exact (Nat.div_lt_iff_lt_mul (by decide)).2 ho
  obtain ⟨r₁, t, hget, hup, hserved, hsize, hblock⟩ := h.served.getBlock (o.toNat / blockSize)
  have hserve : serveTable c.refs (.map (BitVec.ofNat 32 j) o) c.srv = _ :=
    Serv.serveMap_get h.opens (h.oFile.symm ▸ hget)
  have hlegal := legal_data h.lt ho
  unfold fsipcMap at hrun
  cases r₁ with
  | error e =>
    have he : Exhausted e := codes_fileGetBlock (.inl rfl) (.inr rfl) (fun hn => absurd hi (Nat.not_lt.2 hn)) _ e t hget
    rw [fsipc_refused (fun hc => Bool.eq_false_iff.1 hlegal hc.2) hserve he.neg] at hrun
    cases hrun
    exact .inl ⟨e, rfl, he, h.upkeep hserved⟩
  | ok a =>
    obtain ⟨b, rfl, hat, hm⟩ := hblock a rfl
    have hdiv : diskAddr b / blockWords = b := Nat.mul_div_cancel b (show 0 < blockWords by decide)
    rw [fsipc_page_run (.block b) hlegal (data_ne_zero h.lt ho) hserve (by
      show some (Frame.block (diskAddr b / blockWords)) = _
      rw [hdiv])] at hrun
    obtain ⟨_, rfl, hins⟩ := orPanic_eq_some hrun
    obtain ⟨hsrv, ⟨-, hpage⟩ | ⟨hc, -⟩⟩ := pageInsert_page hins
    · refine .inr ⟨rfl, h.congr (hsrv ▸ hserved) (by rw [hsrv]) (fun w _ => by rw [hsrv]) ?_ ?_
        fun va p hp => ?_, by rw [hsrv],
        by rw [hsrv]; exact hsize, fun o' ho' hor => ?_⟩
      · rw [pageInsert_refs rfl hins]
        refine retake_block (fun p hp => h.data_frame ho hp j) fun p hp hk => ?_
        cases hp
        cases hk
      · rw [hpage, if_neg (not_same_data h.lt ho)]
        rfl
      · rw [hpage] at hp
        split at hp
        · cases hp
          exact .inr fun k hk => by cases hk
        · exact .inl hp
      · unfold DataPage
        rw [hsrv, hpage]
        by_cases hs : Same (index2data i + o') (index2data i + o)
        · rw [if_pos hs]
          have hsame : o'.toNat / blockSize = o.toNat / blockSize := (same_data h.lt ho' ho).1 hs
          exact ⟨b, _, rfl, hsame ▸ hat, hm⟩
        · rw [if_neg hs]
          refine (hor.resolve_right ?_).upkeep hup
          rintro ⟨x, hx, heq⟩
          obtain rfl := List.mem_singleton.1 hx
          exact hs ((same_data h.lt ho' ho).2 heq)
    · cases hc

/-- **`fsipc_set_size`**, where the file gets no smaller. -/
theorem Attached.setSize (h : Attached path f i j byte c) {n : Word} (hle : ¬n < c.srv.fs.view (fSize f)) :
    ∃ t, fsipcSetSize (BitVec.ofNat 32 j) n c = some (.ok (), { c with srv := { c.srv with fs := t } }) ∧
    Upkeep f c.srv.fs t ∧
      Served t path f byte ∧ t.view (fSize f) = n := by
  obtain ⟨t, hset, hup, hserved, hsize⟩ := h.served.setSize hle
  have hserve : serveTable c.refs (.setSize (BitVec.ofNat 32 j) n) c.srv = _ :=
    Serv.onOpen_ok (x := fun f => fileSetSize f n) h.opens (h.oFile.symm ▸ hset)
  exact ⟨t, fsipc_zero rfl hserve (Int.le_refl 0), hup, hserved, hsize⟩

theorem Attached.setSize_sure (h : Attached path f i j byte c) {n : Word} {r : Except Int Unit}
    (hrun : fsipcSetSize (BitVec.ofNat 32 j) n c = some (r, c')) : r = .ok () := by
  have hserve : ∀ {e : Int} {t : Fs}, fileSetSize f n c.srv.fs ≠ some (.error e, t) :=
    fun hc => fileSetSize_sure f n _ _ _ hc
  cases hset : fileSetSize f n c.srv.fs with
  | none =>
    have hnone : (fileSetSize (c.srv.oFile (BitVec.ofNat 32 j : Word).toNat) n >>= fun _ =>
      pure ReplyPage.none) c.srv.fs = none := by
      rw [h.oFile, bind_run, hset, Option.bind_none]
    have hstuck : serveTable c.refs (.setSize (BitVec.ofNat 32 j) n) c.srv = none :=
      @Serv.onOpen_stuck c.refs _ (fun f => fileSetSize f n >>= fun _ => pure .none) c.srv h.opens hnone
    unfold fsipcSetSize fsipc at hrun
    rw [if_neg fun hc => hc.1 rfl, hstuck] at hrun
    cases hrun
  | some x =>
    obtain ⟨r₁, t⟩ := x
    cases r₁ with
    | error e => exact absurd hset hserve
    | ok u =>
      have hok : serveTable c.refs (.setSize (BitVec.ofNat 32 j) n) c.srv = _ :=
        Serv.onOpen_ok (x := fun f => fileSetSize f n) h.opens (h.oFile.symm ▸ hset)
      cases hrun.symm.trans (fsipc_zero rfl hok (Int.le_refl 0))
      rfl

/-- **The pages of a file that is opened.** -/
theorem mapAll_maps :
    ∀ {os : List Word} {c : Client}, Attached path f i j byte c → (∀ o ∈ os, o.toNat < 0x400000) →
    ∀ {r : Except Int Unit},
    mapAll (BitVec.ofNat 32 j) (index2data i) os c = some (r, c') →
      (∃ e, r = .error e ∧ Exhausted e) ∨ (r = .ok () ∧ Maps path f i j byte os c c')
  | [], c, h, _, r, hrun => by
    cases hrun
    exact .inr ⟨rfl, .nil h⟩
  | o :: os, c, h, hos, r, hrun => by
    rcases bind_eq_some hrun with ⟨e, hmap, rfl⟩ | ⟨_, c₁, hmap, hrest⟩
    · rcases h.map (hos o List.mem_cons_self) hmap with ⟨e', he, hex, -⟩ | ⟨hc, -⟩
      · cases he
        exact .inl ⟨e, rfl, hex⟩
      · cases hc
    · rcases h.map (hos o List.mem_cons_self) hmap with ⟨e', he, -⟩ | ⟨-, hone⟩
      · cases he
      · exact (mapAll_maps hone.attached (fun x hx => hos x (List.mem_cons_of_mem _ hx)) hrest).imp_right
          fun ⟨hr, hall⟩ => ⟨hr, hone.cons hall⟩

/-- **The new pages of a file that grows.** -/
theorem mapNew_maps {oldsize : Word} :
    ∀ {os : List Word} {c : Client}, Attached path f i j byte c → (∀ o ∈ os, o.toNat < 0x400000) →
    ∀ {r : Except Int Unit}, mapNew (BitVec.ofNat 32 j) (index2data i) oldsize os c = some (r, c') →
      (∃ e, r = .error e ∧ Exhausted e) ∨ (r = .ok () ∧ Maps path f i j byte os c c')
  | [], c, h, _, r, hrun => by
    cases hrun
    exact .inr ⟨rfl, .nil h⟩
  | o :: os, c, h, hos, r, hrun => by
    unfold mapNew at hrun
    rcases bind_eq_some hrun with ⟨e, hmap, -⟩ | ⟨r₁, c₁, hmap, hrest⟩
    · exact absurd hmap (Sure.attempt _ _ _ _)
    obtain ⟨⟨r₂, c₂⟩, hfirst, heq⟩ := Option.map_eq_some_iff.1 hmap
    cases heq
    rcases h.map (hos o List.mem_cons_self) hfirst with ⟨e, rfl, hex, hatt⟩ | ⟨rfl, hone⟩
    · rcases bind_eq_some hrest with ⟨e', hset, -⟩ | ⟨_, c₃, -, hfail⟩
      · cases hatt.setSize_sure hset
      · cases hfail
        exact .inl ⟨e, rfl, hex⟩
    · exact (mapNew_maps hone.attached (fun x hx => hos x (List.mem_cons_of_mem _ hx)) hrest).imp_right fun h =>
        ⟨h.1, hone.cons h.2⟩

/-- **`file_dirty`** of a page of the data. -/
theorem Attached.dirty (h : Attached path f i j byte c) (hd : DataPage f i o c) {r : Except Int Unit}
    (hrun : fsipcDirty (BitVec.ofNat 32 j) o c = some (r, c')) :
    (∃ e, r = .error e ∧ Exhausted e) ∨ (r = .ok () ∧ Maps path f i j byte [] c c') := by
  have ho := h.served.kept.toOwned
  obtain ⟨b, perm, -, hat, hm⟩ := hd
  obtain ⟨r₁, t, hdirty, hq⟩ := fileDirty_quiet ho h.served.file h.served.held o
  obtain ⟨r₂, s₁, hmap, hl, hres⟩ :=
    fileMapBlock_spec h.served.held hat (fun _ _ hc => ho.data_indirect h.served.file hc) false
  have hcode : r₁ = .ok () ∨ r₁ = .error (-eNoMem) := by
    unfold fileDirty at hdirty
    rcases hres with ⟨n, rfl, rfl⟩ | ⟨rfl, -⟩
    · have hm₁ : (!s₁.mapped n) = false := by rw [hl.mapped n hm]; rfl
      rw [bind_of_ok hmap] at hdirty
      unfold dirtyBlock at hdirty
      rw [bind_read, id_eq, hm₁] at hdirty
      cases hdirty
      exact .inl rfl
    · rw [bind_of_error hmap] at hdirty
      cases hdirty
      exact .inr rfl
  unfold fsipcDirty at hrun
  rcases hcode with rfl | rfl
  · have hserve : serveTable c.refs (.dirty (BitVec.ofNat 32 j) o) c.srv = _ :=
      Serv.onOpen_ok (x := fun f => fileDirty f o) h.opens (h.oFile.symm ▸ hdirty)
    cases hrun.symm.trans (fsipc_zero rfl hserve (Int.le_refl 0))
    exact .inr ⟨rfl, h.upkeep (hq.served h.served), rfl, hq.edit.view _ id, fun x _ hor =>
      (hor.resolve_right fun ⟨_, hc, _⟩ => List.not_mem_nil hc).upkeep (hq.upkeep h.served.kept h.served.file)⟩
  · have hserve : serveTable c.refs (.dirty (BitVec.ofNat 32 j) o) c.srv = _ :=
      Serv.onOpen_error (x := fun f => fileDirty f o) h.opens (h.oFile.symm ▸ hdirty)
    cases hrun.symm.trans (fsipc_refused (fun hc => hc.1 rfl) hserve (by decide))
    exact .inl ⟨_, rfl, .inl rfl⟩

/-- **The pages of a file that is closed.** -/
theorem dirtyAll_maps :
    ∀ {os : List Word} {c : Client}, Attached path f i j byte c → (∀ o ∈ os, o.toNat < 0x400000 ∧ DataPage f i o c) →
    ∀ {r : Except Int Unit}, dirtyAll (BitVec.ofNat 32 j) os c = some (r, c') →
      (∃ e, r = .error e ∧ Exhausted e) ∨ (r = .ok () ∧ Maps path f i j byte [] c c')
  | [], c, h, _, r, hrun => by
    cases hrun
    exact .inr ⟨rfl, .nil h⟩
  | o :: os, c, h, hos, r, hrun => by
    obtain ⟨-, hd⟩ := hos o List.mem_cons_self
    rcases bind_eq_some hrun with ⟨e, hdirty, rfl⟩ | ⟨_, c₁, hdirty, hrest⟩
    · rcases h.dirty hd hdirty with ⟨e', he, hex⟩ | ⟨hc, -⟩
      · cases he
        exact .inl ⟨e, rfl, hex⟩
      · cases hc
    · rcases h.dirty hd hdirty with ⟨e', he, -⟩ | ⟨-, hone⟩
      · cases he
      · refine (dirtyAll_maps hone.attached (fun x hx => ?_) hrest).imp_right fun ⟨hr, hall⟩ => ⟨hr, hone.trans hall⟩
        obtain ⟨hx, hdx⟩ := hos x (List.mem_cons_of_mem _ hx)
        exact ⟨hx, hone.data x hx (.inl hdx)⟩

/-! ## Bytes -/

theorem data_mod (hi : i.toNat < maxFd) :
    (index2data i + o).toNat % pageSize = o.toNat % blockSize ∧ (index2data i + o).toNat % 4 = o.toNat % 4 := by
  have hm : maxFd = 32 := rfl
  have hp : pageSize = 4096 := rfl
  have hb : blockSize = 4096 := rfl
  rw [BitVec.toNat_add, index2data_toNat hi, hp, hb]
  omega

theorem DataPage.word (hd : DataPage f i o c) : ∃ b perm, c.page (index2data i + o) = some ⟨.block b, perm⟩ ∧
    c.srv.fs.blockAt f (o.toNat / blockSize) = some b ∧ c.srv.fs.mapped b = true ∧
    c.words (.block b) (o.toNat % blockSize / 4) = c.srv.fs.view (diskAddr b + o.toNat % blockSize / 4) ∧
    c.srv.fs.byteAtPos f o.toNat = getByte (c.srv.fs.view (diskAddr b + o.toNat % blockSize / 4)) (o.toNat % 4) := by
  obtain ⟨b, perm, hp, hat, hm⟩ := hd
  refine ⟨b, perm, hp, hat, hm, mem_eq_view ((diskAddr_div b (byte_lt o.toNat)).symm ▸ hm), ?_⟩
  unfold byteAtPos byteOf
  rw [hat]
  rfl

/-- **A byte of the data is the byte of the file.** -/
theorem Attached.loadByte (h : Attached path f i j byte c) (hd : DataPage f i o c) :
    loadByte (index2data i + o) c = some (.ok (byte o.toNat), c) := by
  obtain ⟨b, perm, hp, -, -, hword, hbyte⟩ := hd.word
  obtain ⟨hpage, hfour⟩ := data_mod h.lt
  unfold Client.loadByte
  rw [hp, Option.map_some, hpage, hfour, hword, ← hbyte, h.served.bytes]

/-- **A byte that is written to the data** is written to the file. -/
theorem Attached.storeByte (h : Attached path f i j byte c) (hd : DataPage f i o c) (x : BitVec 8) :
    ∃ c', storeByte (index2data i + o) x c = some (.ok (), c') ∧
    Maps path f i j (Function.update byte o.toNat x) [] c c' := by
  have hb4 : blockSize = 4096 := rfl
  obtain ⟨b, perm, hp, hat, hm, hword, hbyte⟩ := hd.word
  obtain ⟨hpage, hfour⟩ := data_mod h.lt
  generalize hw : setByte (c.srv.fs.view (diskAddr b + o.toNat % blockSize / 4)) (o.toNat % 4) x = w
  obtain ⟨hup, hsize, hbytes⟩ := h.served.put (w := w) hat hm (byte_lt o.toNat)
  have hserved : Served (c.srv.fs.put (diskAddr b + o.toNat % blockSize / 4) w) path f
      (Function.update byte o.toNat x) := by
    refine hup.served h.served fun p => ?_
    rw [hbytes, Function.update_apply, h.served.bytes]
    by_cases hpos : p / blockSize = o.toNat / blockSize ∧ p % blockSize / 4 = o.toNat % blockSize / 4
    · rw [if_pos hpos, ← hw, getByte_setByte _ (Nat.mod_lt _ (by decide)) (Nat.mod_lt _ (by decide))]
      rw [hb4] at hpos
      by_cases hpo : p = o.toNat
      · rw [if_pos hpo, hpo, if_pos rfl]
      · rw [if_neg hpo, if_neg (by omega), ← h.served.bytes p]
        unfold byteAtPos byteOf
        rw [hb4, hpos.1, ← hb4, hat, Option.map_some, Option.getD_some, hb4, hpos.2]
    · rw [if_neg hpos, if_neg fun hc => hpos (by rw [hc]; exact ⟨rfl, rfl⟩)]
  refine ⟨_, ?_, h.upkeep hserved, rfl, hsize, fun y _ hor =>
    (hor.resolve_right fun ⟨_, hc, _⟩ => List.not_mem_nil hc).upkeep hup⟩
  unfold Client.storeByte
  rw [hp, Option.map_some, hpage, hfour]
  dsimp only
  rw [hword, hw]
  rfl

theorem Pages.maps {byte' : Nat → BitVec 8} {os : List Word} {n : Nat} (h : Pages f i n c) (hn : n ≤ 0x400000)
    (hm : Maps path f i j byte' os c c') :
    Pages f i n c' := fun o ho => hm.data o (by omega) (.inl (h o ho))

theorem data_succ : index2data i + o + 1 = index2data i + (o + 1) := BitVec.add_assoc _ _ _

theorem offset_succ {n : Nat} (h : o.toNat + (n + 1) ≤ 0x400000) : (o + 1).toNat = o.toNat + 1 := by
  have hone : (1 : Word).toNat = 1 := rfl
  rw [BitVec.toNat_add, hone]
  omega

/-- **What is read from the data** are bytes of the file. -/
theorem Attached.load {size : Nat} (h : Attached path f i j byte c) (hp : Pages f i size c) (hs : size ≤ 0x400000) :
    ∀ {n : Nat} {o : Word},
    o.toNat + n ≤ size → load (index2data i + o) n c = some (.ok ((List.range n).map fun k => byte (o.toNat + k)), c)
  | 0, o, _ => rfl
  | n + 1, o, ho => by
    have hsucc : (o + 1).toNat = o.toNat + 1 := offset_succ (Nat.le_trans ho hs)
    have hrest := h.load hp hs (n := n) (o := o + 1) (by omega)
    unfold Client.load
    rw [bind_of_ok (h.loadByte (hp o (by omega))), data_succ, bind_of_ok hrest, hsucc, List.range_succ_eq_map,
      List.map_cons, List.map_map]
    refine congrArg (fun l => some (Except.ok (byte o.toNat :: l), c)) (List.map_congr_left fun k _ => ?_)
    show byte (o.toNat + 1 + k) = byte (o.toNat + (k + 1))
    rw [Nat.add_assoc, Nat.add_comm 1 k]

/-- The bytes where those of a buffer have been written. -/
def written (byte : Nat → BitVec 8) (o : Nat) (buf : List (BitVec 8)) (p : Nat) : BitVec 8 :=
  if o ≤ p ∧ p < o + buf.length then buf.getD (p - o) 0 else byte p

theorem written_cons (byte : Nat → BitVec 8) (o : Nat) (x : BitVec 8) (buf : List (BitVec 8)) :
    written (Function.update byte o x) (o + 1) buf = written byte o (x :: buf) := by
  funext p
  unfold written
  rw [List.length_cons, Function.update_apply]
  by_cases hp : p = o
  · subst hp
    rw [if_neg (by omega), if_pos rfl, if_pos (by omega), Nat.sub_self]
    rfl
  · rw [if_neg hp]
    by_cases hin : o + 1 ≤ p ∧ p < o + 1 + buf.length
    · rw [if_pos hin, if_pos (by omega), show p - o = p - (o + 1) + 1 by omega]
      rfl
    · rw [if_neg hin, if_neg (by omega)]

/-- **What is written to the data** is written to the file. -/
theorem Attached.store {size : Nat} (hs : size ≤ 0x400000) :
    ∀ (buf : List (BitVec 8)) (o : Word) {byte : Nat → BitVec 8} {c : Client},
    Attached path f i j byte c → Pages f i size c → o.toNat + buf.length ≤ size →
      ∃ c', store (index2data i + o) buf c = some (.ok (), c') ∧ Maps path f i j (written byte o.toNat buf) [] c c'
  | [], o, byte, c, h, _, _ => by
    have hsame : written byte o.toNat [] = byte := funext fun p => if_neg (by simp only [List.length_nil]; omega)
    exact ⟨c, rfl, hsame.symm ▸ .nil h⟩
  | x :: buf, o, byte, c, h, hp, ho => by
    rw [List.length_cons] at ho
    obtain ⟨c₁, hone, hm⟩ := h.storeByte (hp o (by omega)) x
    have hsucc : (o + 1).toNat = o.toNat + 1 := offset_succ (Nat.le_trans ho hs)
    obtain ⟨c₂, hrest, hm₂⟩ := Attached.store hs buf (o + 1) hm.attached (hp.maps hs hm) (by omega)
    rw [hsucc, written_cons] at hm₂
    refine ⟨c₂, ?_, hm.trans hm₂⟩
    unfold Client.store
    rw [bind_of_ok hone, data_succ, hrest]

/-! ## Growing -/

theorem Attached.setWord (h : Attached path f i j byte c) {w : Nat} (hw : w ≠ fdDevId ∧ w ≠ fFileid) (x : Word) :
    Attached path f i j byte (c.setWord w x (.openFile j)) := by
  refine h.congr h.served rfl (fun v hv => ?_) rfl rfl fun _ _ hp => .inl hp
  show Function.update c.srv.oFf j (Function.update (c.srv.oFf j) w x) j v = _
  rw [Function.update_self, Function.update_of_ne]
  rintro rfl
  exact hv.elim hw.1 hw.2

theorem oFf_setWord {w : Nat} {x : Word} :
    (c.setWord w x (.openFile j)).srv.oFf j = Function.update (c.srv.oFf j) w x :=
  Function.update_self _ _ _

theorem pagesOf_cover {a b : Nat} {o : Word} (ha : a % 4096 = 0) (hb : b ≤ 0x400000) (hle : a ≤ o.toNat / 4096 * 4096)
    (hlt : o.toNat / 4096 * 4096 < b) : ∃ o' ∈ pagesOf a b, o.toNat / 4096 = o'.toNat / 4096 := by
  have hp : pageSize = 4096 := rfl
  refine ⟨BitVec.ofNat 32 (a + (o.toNat / 4096 - a / 4096) * pageSize),
    List.mem_map.2 ⟨o.toNat / 4096 - a / 4096, ?_, rfl⟩, ?_⟩
  · rw [List.mem_range, hp]
    omega
  · rw [BitVec.toNat_ofNat, hp]
    omega

/-- **The file has grown**, and the client has its new pages. -/
structure Grown (path : List (BitVec 8)) (f : Nat) (i : Word) (j : Nat) (byte : Nat → BitVec 8) (n : Word)
    (c c' : Client) : Prop where
  attached : Attached path f i j byte c'
  words : c'.srv.oFf j = Function.update (c.srv.oFf j) fFileSize n
  size : c'.srv.fs.view (fSize f) = n
  pages : Pages f i n.toNat c'

/-- **`ftruncate`**, where the file gets no smaller. -/
theorem Attached.grow {size n : Word} (h : Attached path f i j byte c) (hsize : c.srv.oFf j fFileSize = size)
    (hlen : c.srv.fs.view (fSize f) = size) (hp : Pages f i size.toNat c) (hle : size.toNat ≤ n.toNat)
    (hn : n.toNat ≤ 0x400000) {r : Except Int Unit} (hrun : ftruncate i n c = some (r, c')) :
    (∃ e, r = .error e ∧ Exhausted e) ∨ (r = .ok () ∧ Grown path f i j byte n c c') := by
  have hmax : ¬maxFileSizeW < n := fun hc => absurd (BitVec.lt_def.1 hc) (Nat.not_lt.2 hn)
  have hold : size.toNat ≤ 0x400000 := Nat.le_trans hle hn
  have hr₀ := roundUp_toNat hold
  have hr₁ := roundUp_toNat hn
  rw [ftruncate_eq h.openFile hmax, if_neg (not_not_intro h.devId), h.fileid, hsize] at hrun
  have h₀ := h.setWord (w := fFileSize) ⟨by decide, by decide⟩ n
  have hlen₀ : ¬n < (c.setWord fFileSize n (.openFile j)).srv.fs.view (fSize f) := by
    show ¬n < c.srv.fs.view (fSize f)
    rw [hlen, BitVec.lt_def]
    exact Nat.not_lt.2 hle
  obtain ⟨t, hset, hup, hserved, hnew⟩ := h₀.setSize hlen₀
  have h₁ := h₀.upkeep hserved
  unfold resize at hrun
  rw [bind_of_ok hset, fd2data_index2fd h.lt] at hrun
  rcases bind_eq_some hrun with ⟨e, hmap, rfl⟩ | ⟨_, c₂, hmap, hrest⟩
  · rcases mapNew_maps h₁ (fun o ho => Nat.lt_of_lt_of_le (mem_pagesOf ho (by omega)).2 (by omega)) hmap
        with ⟨e', he, hex⟩ | ⟨hc, -⟩
    · cases he
      exact .inl ⟨e, rfl, hex⟩
    · cases hc
  · rcases mapNew_maps h₁ (fun o ho => Nat.lt_of_lt_of_le (mem_pagesOf ho (by omega)).2 (by omega)) hmap
        with ⟨e', he, -⟩ | ⟨-, hm⟩
    · cases he
    have hnil : pagesOf (roundUp n).toNat (roundUp size).toNat = [] := by
      unfold pagesOf
      rw [show (roundUp size).toNat - (roundUp n).toNat = 0 by omega]
      rfl
    rw [hnil] at hrest
    cases hrest
    refine .inr ⟨rfl, hm.attached, ?_, hm.size.trans hnew, fun o ho => hm.data o (by omega) ?_⟩
    · rw [hm.words]
      exact oFf_setWord
    · by_cases hlt : o.toNat / 4096 * 4096 < size.toNat
      · exact .inl ((hp o hlt : DataPage f i o (c.setWord fFileSize n (.openFile j))).upkeep hup)
      · exact .inr (pagesOf_cover (by omega) (by omega) (by omega) (by omega))

end Client

end Mos
