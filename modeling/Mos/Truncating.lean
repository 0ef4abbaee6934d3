import Mos.FsView
import Mos.Transfers
/-!
# Truncating — a new size that is refused

`ftruncate` writes the size into the descriptor, then asks the server, then maps the new pages; when a page is refused
it sets back the size that the server has, and nothing else.  So a new size that is refused leaves the descriptor with
it. A write returns its length, which is negative from 2^31 on; where the sum wraps, such a write may have grown the
file.
-/
namespace Mos

open Fallible FilePtr

/-! ## What has no error code -/

section Sure

theorem writeBlock_sure (b : Nat) : Sure (writeBlock b) := by
  unfold writeBlock
  exact Sure.bind (Sure.read _) fun s => Sure.ite Sure.panic (Sure.modify _)

theorem fileFlushBlocks_sure (f : Nat) : ∀ bnos : List Nat, Sure (fileFlushBlocks f bnos)
  | [] => Sure.ret ()
  | b :: bnos => by
    refine Sure.bind (Sure.bind (Sure.attempt _) fun r => ?_) fun _ => fileFlushBlocks_sure f bnos
    cases r with
    | error e => exact Sure.ret ()
    | ok d => exact Sure.bind (Sure.read _) fun s => Sure.ite (writeBlock_sure d) (Sure.ret ())

theorem fileFlush_sure (f : Nat) : Sure (fileFlush f) :=
  Sure.bind (Sure.read _) fun _ => fileFlushBlocks_sure f _

theorem flushDir_sure (f : Nat) : Sure (flushDir f) :=
  Sure.bind (Sure.read _) fun _ => Sure.ite (Sure.ret ()) (fileFlush_sure _)

theorem fileClearBlocks_sure (f : Nat) : ∀ bnos : List Nat, Sure (fileClearBlocks f bnos)
  | [] => Sure.ret ()
  | _ :: bnos => Sure.bind (Sure.orPanic _) fun _ => fileClearBlocks_sure f bnos

theorem fileTruncate_sure (f : Nat) (newsize : Word) : Sure (fileTruncate f newsize) := by
  unfold fileTruncate
  refine Sure.bind (Sure.read _) fun size => Sure.bind (fileClearBlocks_sure f _) fun _ => ?_
  refine Sure.ite (Sure.bind (Sure.read _) fun r => Sure.ite ?_ (Sure.modify _)) (Sure.modify _)
  exact Sure.bind (Sure.modify _) fun _ => Sure.bind (Sure.modify _) fun _ => Sure.modify _

theorem fileSetSize_sure (f : Nat) (newsize : Word) : Sure (fileSetSize f newsize) := by
  unfold fileSetSize
  refine Sure.bind (Sure.read _) fun size => ?_
  have hstore : Sure (storeWord (fSize f) newsize >>= fun _ => flushDir f) :=
    Sure.bind (Sure.modify _) fun _ => flushDir_sure f
  exact Sure.ite (Sure.bind (fileTruncate_sure f newsize) fun _ => hstore) hstore

end Sure

namespace Client

variable {c c' : Client} {i buf n offset size size' : Word} {j : Nat} {e : Int}

/-! ## A request for a size -/

theorem openLookup_error {refs : Nat → Nat} {fileid : Word} {s s' : Server}
    (h : Serv.openLookup refs fileid s = some (.error e, s')) : s' = s := by
  unfold Serv.openLookup at h
  split at h
  · cases h
    rfl
  · split at h
    · cases h
      rfl
    · cases h

/-- A handler that has no error code but that of `open_lookup`: a refusal changes nothing. -/
theorem onOpen_refused {refs : Nat → Nat} {fileid : Word} {op : Nat → FsM ReplyPage} (hop : ∀ f, Sure (op f))
    {s s' : Server} {reply : Reply} (h : Serv.onOpen refs fileid op s = some (.ok reply, s')) (hv : reply.value < 0) :
    s' = s := by
  unfold Serv.onOpen Serv.answer at h
  rcases bind_eq_some h with ⟨e, -, he⟩ | ⟨r, s₁, hr, hk⟩
  · cases he
  obtain ⟨⟨r₁, s₂⟩, hbody, hr₁⟩ := Option.map_eq_some_iff.1 hr
  cases hr₁
  cases r₁ with
  | ok a =>
    rcases bind_eq_some hbody with ⟨e, -, he⟩ | ⟨k, s₃, -, hbody⟩
    · cases he
    rcases bind_eq_some hbody with ⟨e, -, he⟩ | ⟨s₄, s₅, -, hbody⟩
    · cases he
    rcases bind_eq_some hbody with ⟨e, -, he⟩ | ⟨page, s₆, -, hret⟩
    · cases he
    · cases hret
      cases hk
      exact absurd hv (Int.lt_irrefl 0)
  | error e =>
    cases hk
    rcases bind_eq_some hbody with ⟨e', hl, -⟩ | ⟨k, s₃, -, hbody⟩
    · exact openLookup_error hl
    rcases bind_eq_some hbody with ⟨e', he', -⟩ | ⟨s₄, s₅, -, hbody⟩
    · cases he'
    rcases bind_eq_some hbody with ⟨e', hf, -⟩ | ⟨page, s₆, -, hret⟩
    · obtain ⟨⟨r, fs⟩, hx, hy⟩ := Option.map_eq_some_iff.1 hf
      cases hy
      exact absurd hx (hop _ _ _ _)
    · cases hret

theorem fsipcSetSize_refused {fileid : Word} (h : fsipcSetSize fileid size c = some (.error e, c')) : c' = c := by
  unfold fsipcSetSize fsipc at h
  rw [if_neg fun hc => hc.1 rfl] at h
  obtain ⟨⟨y, s'⟩, hs, h⟩ := Option.bind_eq_some_iff.1 h
  dsimp only at h
  cases y with
  | error e => cases h
  | ok reply =>
    dsimp only at h
    split at h
    · rename_i hv
      have hsure : ∀ f, Sure (fileSetSize f size >>= fun _ => (pure .none : FsM ReplyPage)) :=
        fun f => Sure.bind (fileSetSize_sure f size) fun _ => Sure.ret _
      obtain rfl : s' = c.srv := onOpen_refused hsure hs hv
      cases h
      rfl
    · rw [if_pos rfl] at h
      cases h

/-! ## Refusals -/

/-- One of the pages is refused, and the server is told the old size. -/
def MapRefused (fileid va oldsize : Word) : List Word → Client → Prop
  | [], _ => False
  | o :: os, c =>
    (∃ e c', fsipcMap fileid o (va + o) c = some (.error e, c') ∧ (fsipcSetSize fileid oldsize c').isSome) ∨
      ∃ c', fsipcMap fileid o (va + o) c = some (.ok (), c') ∧ MapRefused fileid va oldsize os c'

/-- **One of the requests for a new size is refused**: the size itself, or one of the new pages. -/
def SizeRefused (c : Client) (i : Word) (j : Nat) (size size' : Word) : Prop :=
  let fileid := c.srv.oFf j fFileid
  let c₀ := c.setWord fFileSize size' (.openFile j)
  (∃ e c₁, fsipcSetSize fileid size' c₀ = some (.error e, c₁)) ∨
    ∃ c₁, fsipcSetSize fileid size' c₀ = some (.ok (), c₁) ∧
      MapRefused fileid (index2data i) size (pagesOf (roundUp size).toNat (roundUp size').toNat) c₁

/-- All of the pages are granted. -/
def MapGranted (fileid va : Word) : List Word → Client → Prop
  | [], _ => True
  | o :: os, c => ∃ c', fsipcMap fileid o (va + o) c = some (.ok (), c') ∧ MapGranted fileid va os c'

/-- **The requests for a new size are granted**: the size itself, and the new pages. -/
def SizeGranted (c : Client) (i : Word) (j : Nat) (size size' : Word) : Prop :=
  let fileid := c.srv.oFf j fFileid
  ∃ c₁, fsipcSetSize fileid size' (c.setWord fFileSize size' (.openFile j)) = some (.ok (), c₁) ∧
    MapGranted fileid (index2data i) (pagesOf (roundUp size).toNat (roundUp size').toNat) c₁

theorem mapNew_error_iff {fileid va oldsize : Word} : ∀ {os : List Word} {c : Client},
    (∃ e c', mapNew fileid va oldsize os c = some (.error e, c')) ↔ MapRefused fileid va oldsize os c
  | [], c => by
    constructor
    · rintro ⟨e, c', h⟩
      cases h
    · exact False.elim
  | o :: os, c => by
    unfold mapNew MapRefused
    constructor
    · rintro ⟨e, c', h⟩
      rcases bind_eq_some h with ⟨e', he', -⟩ | ⟨r, c₁, hr, hk⟩
      · obtain ⟨r, -, hr⟩ := Option.map_eq_some_iff.1 he'
        cases hr
      obtain ⟨⟨r₁, c₂⟩, hmap, hr₁⟩ := Option.map_eq_some_iff.1 hr
      cases hr₁
      cases r₁ with
      | ok a => exact .inr ⟨c₂, hmap, mapNew_error_iff.1 ⟨e, c', hk⟩⟩
      | error e₁ =>
        refine .inl ⟨e₁, c₂, hmap, ?_⟩
        rcases bind_eq_some hk with ⟨e', he', -⟩ | ⟨a, c₃, ha, -⟩
        · rw [he']
          rfl
        · rw [ha]
          rfl
    · rintro (⟨e, c₁, hmap, hset⟩ | ⟨c₁, hmap, hrest⟩)
      · obtain ⟨⟨r, c₂⟩, hr⟩ := Option.isSome_iff_exists.1 hset
        cases r with
        | error e' => exact ⟨e', c₂, (bind_attempt hmap).trans (bind_of_error hr)⟩
        | ok a => exact ⟨e, c₂, (bind_attempt hmap).trans (bind_of_ok hr)⟩
      · obtain ⟨e, c', h⟩ := mapNew_error_iff.2 hrest
        exact ⟨e, c', (bind_attempt hmap).trans h⟩

theorem mapNew_ok_iff {fileid va oldsize : Word} : ∀ {os : List Word} {c : Client},
    (∃ c', mapNew fileid va oldsize os c = some (.ok (), c')) ↔ MapGranted fileid va os c
  | [], c => ⟨fun _ => trivial, fun _ => ⟨c, rfl⟩⟩
  | o :: os, c => by
    unfold mapNew MapGranted
    constructor
    · rintro ⟨c', h⟩
      rcases bind_eq_some h with ⟨e', -, he'⟩ | ⟨r, c₁, hr, hk⟩
      · cases he'
      obtain ⟨⟨r₁, c₂⟩, hmap, hr₁⟩ := Option.map_eq_some_iff.1 hr
      cases hr₁
      cases r₁ with
      | ok a => exact ⟨c₂, hmap, mapNew_ok_iff.1 ⟨c', hk⟩⟩
      | error e₁ =>
        rcases bind_eq_some hk with ⟨e', -, he'⟩ | ⟨a, c₃, -, hf⟩
        · cases he'
        · cases hf
    · rintro ⟨c₁, hmap, hrest⟩
      obtain ⟨c', h⟩ := mapNew_ok_iff.2 hrest
      exact ⟨c', (bind_attempt hmap).trans h⟩

theorem resize_error_iff {fd fileid oldsize : Word} : (∃ e c', resize fd fileid oldsize size c = some (.error e, c')) ↔
    (∃ e c₁, fsipcSetSize fileid size c = some (.error e, c₁)) ∨
      ∃ c₁, fsipcSetSize fileid size c = some (.ok (), c₁) ∧
        MapRefused fileid (fd2data fd) oldsize (pagesOf (roundUp oldsize).toNat (roundUp size).toNat) c₁ := by
  unfold resize
  constructor
  · rintro ⟨e, c', h⟩
    rcases bind_eq_some h with ⟨e', he', -⟩ | ⟨a, c₁, ha, h⟩
    · exact .inl ⟨e', c', he'⟩
    rcases bind_eq_some h with ⟨e', he', -⟩ | ⟨b, c₂, -, h⟩
    · exact .inr ⟨c₁, ha, mapNew_error_iff.1 ⟨e', c', he'⟩⟩
    · exact absurd h (Sure.orPanic _ _ _ _)
  · rintro (⟨e, c₁, he⟩ | ⟨c₁, ha, hm⟩)
    · exact ⟨e, c₁, bind_of_error he⟩
    · obtain ⟨e, c', he⟩ := mapNew_error_iff.2 hm
      exact ⟨e, c', (bind_of_ok ha).trans (bind_of_error he)⟩

/-! ## What a failure leaves -/

/-- A byte of a file of the server. -/
def fileByte (s : Fs) (f o : Nat) : Option (BitVec 8) :=
  (s.blockAt f (o / blockSize)).map fun b => byteAt s.view (4 * diskAddr b + o % blockSize)

/-- **Nothing of the file has changed**: the size in the descriptor, the size in the server, the pages of the data and
the contents. -/
structure Unchanged (c c' : Client) (i : Word) (j : Nat) (f : Nat) : Prop where
  size : (field (index2fd i) fFileSize c').map Prod.fst = (field (index2fd i) fFileSize c).map Prod.fst
  server : c'.srv.fs.view (fSize f) = c.srv.fs.view (fSize f)
  pages : ∀ o : Word, o.toNat < pdmap.toNat → (c'.Mapped (index2data i + o) ↔ c.Mapped (index2data i + o))
  contents : ∀ o < (c.srv.oFf j fFileSize).toNat, fileByte c'.srv.fs f o = fileByte c.srv.fs f o

theorem Unchanged.refl (c : Client) (i : Word) (j f : Nat) : Unchanged c c i j f :=
  ⟨rfl, rfl, fun _ _ => Iff.rfl, fun _ _ => rfl⟩

/-- What is returned is an error code, or reads as one. -/
def Negative {α : Type} (reads : α → Int) : Except Int α → Prop
  | .error _ => True
  | .ok a => reads a < 0

/-- The call fails without a trace: `reads` is what is returned when there is no error code. -/
def Undone {α : Type} (reads : α → Int) (x : ClientM α) (c : Client) (i : Word) (j : Nat) : Prop :=
  ∀ r c', x c = some (r, c') → Negative reads r → Unchanged c c' i j (c.srv.oFile (c.srv.oFf j fFileid).toNat)

/-- `ftruncate` returns 0. -/
def zero : Unit → Int := fun _ => 0

/-- `file_write` returns the length, as an `int`. -/
def count (x : Copy) : Int := x.ret.toInt

theorem setWord_same (h : c.srv.oFf j fFileSize = size) : c.setWord fFileSize size (.openFile j) = c := by
  have hsame : Function.update c.srv.oFf j (Function.update (c.srv.oFf j) fFileSize size) = c.srv.oFf := by
    rw [← h, Function.update_eq_self, Function.update_eq_self]
  show { c with srv := { c.srv with
    oFf := Function.update c.srv.oFf j (Function.update (c.srv.oFf j) fFileSize size) } } = c
  rw [hsame]

theorem resize_error_size (h : OpenFile c i j size) {fileid oldsize : Word} (hs : size.toNat ≤ 0x400000)
    (hr : resize (index2fd i) fileid oldsize size c = some (.error e, c')) : OpenFile c' i j size := by
  unfold resize at hr
  rcases bind_eq_some hr with ⟨e', he', -⟩ | ⟨a, c₁, ha, hr⟩
  · exact h.beside (fsipc_zero_beside (w := fileid) rfl _ _ _ he')
  have h₁ := h.beside (fsipc_zero_beside (w := fileid) rfl _ _ _ ha)
  rcases bind_eq_some hr with ⟨e', he', -⟩ | ⟨b, c₂, -, hr⟩
  · exact h₁.beside (mapNew_beside (pagesOf_data h.lt hs) _ _ _ he')
  · exact absurd hr (Sure.orPanic _ _ _ _)

theorem sizeRefused_iff (h : OpenFile c i j size) (hdev : c.srv.oFf j fdDevId = devfileId)
    (hmax : ¬maxFileSizeW < size') :
    SizeRefused c i j size size' ↔ ∃ e c', ftruncate i size' c = some (.error e, c') := by
  rw [ftruncate_eq h hmax, if_neg (not_not_intro hdev), resize_error_iff, fd2data_index2fd h.lt]
  rfl

theorem sizeGranted_iff (h : OpenFile c i j size) (hdev : c.srv.oFf j fdDevId = devfileId)
    (hmax : ¬maxFileSizeW < size') (hgrow : size < size') :
    SizeGranted c i j size size' ↔ ∃ c', ftruncate i size' c = some (.ok (), c') := by
  have hs : size'.toNat ≤ 0x400000 := Nat.not_lt.1 fun hc => hmax (BitVec.lt_def.2 hc)
  have hgrow' := BitVec.lt_def.1 hgrow
  have hr₀ := @roundUp_toNat size (by omega)
  have hr₁ := roundUp_toNat hs
  have hnil : pagesOf (roundUp size').toNat (roundUp size).toNat = [] := by
    unfold pagesOf
    rw [show (roundUp size).toNat - (roundUp size').toNat = 0 by omega]
    rfl
  rw [ftruncate_eq h hmax, if_neg (not_not_intro hdev)]
  unfold resize SizeGranted
  rw [hnil, fd2data_index2fd h.lt]
  constructor
  · rintro ⟨c₁, hset, hmap⟩
    obtain ⟨c₂, hnew⟩ : ∃ c₂, mapNew _ _ size _ c₁ = some (.ok (), c₂) := mapNew_ok_iff.2 hmap
    exact ⟨c₂, (bind_of_ok hset).trans ((bind_of_ok hnew).trans rfl)⟩
  · rintro ⟨c', hr⟩
    rcases bind_eq_some hr with ⟨e, -, he⟩ | ⟨_, c₁, hset, hr⟩
    · cases he
    rcases bind_eq_some hr with ⟨e, -, he⟩ | ⟨_, c₂, hnew, -⟩
    · cases he
    exact ⟨c₁, hset, mapNew_ok_iff.1 ⟨c₂, hnew⟩⟩

/-- **A refused `ftruncate` leaves the new size in the descriptor**, and so it is without a trace only when the size is
the old one. -/
theorem ftruncate_undone_iff (h : OpenFile c i j size) (hdev : c.srv.oFf j fdDevId = devfileId) :
    Undone zero (ftruncate i size') c i j ↔ maxFileSize < size'.toNat ∨ size' = size ∨
    ¬SizeRefused c i j size size' := by
  by_cases hmax : maxFileSizeW < size'
  · have hbig : maxFileSize < size'.toNat := BitVec.lt_def.1 hmax
    refine ⟨fun _ => .inl hbig, fun _ r c' hr _ => ?_⟩
    unfold ftruncate at hr
    rw [if_pos hmax] at hr
    cases hr
    exact Unchanged.refl _ _ _ _
  have hs : size'.toNat ≤ 0x400000 := Nat.not_lt.1 fun hc => hmax (BitVec.lt_def.2 hc)
  have heq := ftruncate_eq h hmax
  rw [if_neg (not_not_intro hdev)] at heq
  have href := sizeRefused_iff h hdev hmax
  constructor
  · intro hu
    by_contra hc
    obtain ⟨hsmall, hne, hrefd⟩ : ¬maxFileSize < size'.toNat ∧ size' ≠ size ∧ SizeRefused c i j size size' := by
      exact ⟨fun hc' => hc (.inl hc'), fun hc' => hc (.inr (.inl hc')), by_contra fun hc' => hc (.inr (.inr hc'))⟩
    obtain ⟨e, c', hr⟩ := href.1 hrefd
    have hsize := (hu _ c' hr trivial).size
    rw [heq] at hr
    have h' := resize_error_size (h.setSize size') hs hr
    rw [h'.field, h.field] at hsize
    have hsame : c'.srv.oFf j fFileSize = c.srv.oFf j fFileSize := by simpa using hsize
    rw [h'.size, h.size] at hsame
    exact hne hsame
  · intro hcond r c' hr hneg
    cases r with
    | ok a => exact absurd hneg (Int.lt_irrefl 0)
    | error e =>
      rcases hcond with hbig | rfl | hno
      · exact absurd (BitVec.lt_def.2 (show maxFileSizeW.toNat < size'.toNat from hbig)) hmax
      · rw [heq, setWord_same h.size] at hr
        unfold resize at hr
        rcases bind_eq_some hr with ⟨e', he', -⟩ | ⟨a, c₁, -, hr⟩
        · rw [fsipcSetSize_refused he']
          exact Unchanged.refl _ _ _ _
        have hnil : pagesOf (roundUp size').toNat (roundUp size').toNat = [] := by
          unfold pagesOf
          rw [Nat.sub_self]
          rfl
        rw [hnil] at hr
        exact absurd hr (Sure.bind (Sure.ret _) (fun _ => Sure.orPanic _) _ _ _)
      · exact absurd (href.2 ⟨e, c', hr⟩) hno

/-- A length that is negative, and whose sum is in the largest file, is copied by nobody. -/
theorem transfer_negative (hi : i.toNat < maxFd) (hn : 2 ^ 31 ≤ n.toNat) (hend : (offset + n).toNat ≤ 0x400000)
    (c : Client) :
    transfer (index2data i + offset) buf (index2data i + offset) n c = some (.ok ⟨index2data i + offset, 0, n⟩, c) :=
  transfer_of_memcpy (memcpy_negative hi hn hend c)

theorem negative_count {va : Word} {k : Nat} : Negative count (.ok ⟨va, k, n⟩) ↔ 2 ^ 31 ≤ n.toNat := by
  have hn := n.isLt
  show n.toInt < 0 ↔ _
  rw [BitVec.toInt_eq_toNat_cond]
  split
  · omega
  · omega

/-- **A write that may not grow the file** leaves the new size in the descriptor; so does one that grows it and
returns a length that is negative. -/
theorem fileWrite_undone_iff (h : OpenFile c i j size) (hdev : c.srv.oFf j fdDevId = devfileId) :
    Undone count (fileWrite (index2fd i) buf n offset) c i j ↔ maxFileSize < (offset + n).toNat ∨
      (offset + n).toNat ≤ size.toNat ∨
      ¬SizeRefused c i j size (offset + n) ∧ (n.toNat < 2 ^ 31 ∨ ¬SizeGranted c i j size (offset + n)) := by
  have heq : fileWrite (index2fd i) buf n offset c = if maxFileSizeW < offset + n then some (.error (-eNoDisk), c)
      else if size < offset + n then
        (ftruncate i (offset + n) >>= fun _ => transfer (index2data i + offset) buf (index2data i + offset) n) c
      else transfer (index2data i + offset) buf (index2data i + offset) n c := fileWrite_eq h
  by_cases hbig : maxFileSizeW < offset + n
  · rw [if_pos hbig] at heq
    refine ⟨fun _ => .inl (BitVec.lt_def.1 hbig), fun _ r c' hr _ => ?_⟩
    rw [heq] at hr
    cases hr
    exact Unchanged.refl _ _ _ _
  have hsmall : (offset + n).toNat ≤ 0x400000 := Nat.not_lt.1 fun hc => hbig (BitVec.lt_def.2 hc)
  rw [if_neg hbig] at heq
  by_cases hgrow : size < offset + n
  · rw [if_pos hgrow] at heq
    have hgrow' := BitVec.lt_def.1 hgrow
    have hne : offset + n ≠ size := by
      rintro hc
      rw [hc] at hgrow'
      exact Nat.lt_irrefl _ hgrow'
    have hundo := @ftruncate_undone_iff _ _ size (offset + n) _ h hdev
    have hgranted := sizeGranted_iff h hdev hbig hgrow
    constructor
    · intro hu
      refine .inr (.inr ⟨?_, ?_⟩)
      · have htrunc : Undone zero (ftruncate i (offset + n)) c i j := by
          intro r c' hr hneg
          cases r with
          | ok a => exact absurd hneg (Int.lt_irrefl 0)
          | error e => exact hu _ c' (heq.trans (bind_of_error hr)) trivial
        rcases hundo.1 htrunc with hc | hc | hno
        · exact absurd hc (Nat.not_lt.2 hsmall)
        · exact absurd hc hne
        · exact hno
      · -- the size has been written, and what is returned is negative
        by_contra hc
        rw [not_or, not_not, Nat.not_lt] at hc
        obtain ⟨hn, hg⟩ := hc
        obtain ⟨c', hok⟩ := hgranted.1 hg
        have hrun := heq.trans ((bind_of_ok hok).trans (@transfer_negative _ buf _ _ h.lt hn hsmall c'))
        have hsize := (hu _ c' hrun (negative_count.2 hn)).size
        have h' := ftruncate_ok h (by omega) hok
        rw [h'.field, h.field] at hsize
        have hsame : c'.srv.oFf j fFileSize = c.srv.oFf j fFileSize := by simpa using hsize
        rw [h'.size, h.size] at hsame
        exact hne hsame
    · rintro (hc | hc | ⟨hno, hor⟩)
      · exact absurd hc (Nat.not_lt.2 hsmall)
      · exact absurd hgrow' (Nat.not_lt.2 hc)
      · intro r c' hr hneg
        rw [heq] at hr
        rcases bind_transfer hr with ⟨e, he, rfl⟩ | ⟨hok, htr⟩
        · exact hundo.2 (.inr (.inr hno)) _ c' he trivial
        · obtain ⟨-, k, rfl, -⟩ := transfer_eq_some htr
          have hn := negative_count.1 hneg
          rcases hor with hlt | hng
          · exact absurd hlt (Nat.not_lt.2 hn)
          · exact absurd (hgranted.2 ⟨c', hok⟩) hng
  · rw [if_neg hgrow] at heq
    refine ⟨fun _ => .inr (.inl (Nat.not_lt.1 fun hc => hgrow (BitVec.lt_def.2 hc))), fun _ r c' hr _ => ?_⟩
    rw [heq] at hr
    obtain rfl := (transfer_eq_some hr).1
    exact Unchanged.refl _ _ _ _

/-- **What a refusal leaves behind**, of `ftruncate` and of a write. -/
theorem refusal_undone_iff (h : OpenFile c i j size) (hdev : c.srv.oFf j fdDevId = devfileId) :
    (Undone zero (ftruncate i size') c i j ↔ maxFileSize < size'.toNat ∨ size' = size ∨ ¬SizeRefused c i j size size') ∧
      (Undone count (fileWrite (index2fd i) buf n offset) c i j ↔ maxFileSize < (offset + n).toNat ∨
        (offset + n).toNat ≤ size.toNat ∨
        ¬SizeRefused c i j size (offset + n) ∧ (n.toNat < 2 ^ 31 ∨ ¬SizeGranted c i j size (offset + n))) :=
  ⟨ftruncate_undone_iff h hdev, fileWrite_undone_iff h hdev⟩

/-! ## A full disk -/

/-- Four blocks, all in use: the last is the root directory, with an empty file `a` in it. -/
def fullMem (a : Nat) : Word :=
  if a = blockWords then fsMagic
  else if a = blockWords + 1 then 4
  else if a = fSize sRoot then 4096
  else if a = fType sRoot then ftypeDir
  else if a = fDirect sRoot 0 then 3
  else if a = 3 * blockWords then 0x61
  else if a = fDir (3 * blockWords) then addrOf sRoot
  else 0

/-- A client with the file `a` open as descriptor 0. -/
def fullDisk : Client where
  srv :=
    { fs :=
        { mem := fullMem, mapped := fun b => decide (b < 4), dirty := fun _ => false, disk := fullMem, super := true,
          bitmap := true, pages := [] }
      oFile := fun _ => 3 * blockWords
      oMode := fun _ => 2
      oFf := fun _ w =>
        if w = fdDevId then devfileId
        else if w = fdOmode then 2
        else if w < fFile then 0
        else fullMem (3 * blockWords + (w - fFile)) }
  refs := fun k => if k = 0 then 2 else 0
  tables := fun d => if d = 0x17F then
    some fun t => if t = 0 then some ⟨.openFile 0, pteD ||| pteLibrary ||| pteCCacheable ||| pteV⟩ else none
    else none
  mem := fun _ _ => 0
  supply := []

theorem fullDisk_open : OpenFile fullDisk 0 0 0 := ⟨by decide, ⟨_, rfl⟩, rfl⟩

theorem refusal_undone_full :
    (Undone zero (ftruncate 0 0) fullDisk 0 0 ↔ maxFileSize < (0 : Word).toNat ∨ (0 : Word) = 0 ∨
    ¬SizeRefused fullDisk 0 0 0 0) ∧
      (Undone count (fileWrite (index2fd 0) utemp 1 0) fullDisk 0 0 ↔ maxFileSize < ((0 : Word) + 1).toNat ∨
        ((0 : Word) + 1).toNat ≤ (0 : Word).toNat ∨
        ¬SizeRefused fullDisk 0 0 0 (0 + 1) ∧ ((1 : Word).toNat < 2 ^ 31 ∨ ¬SizeGranted fullDisk 0 0 0 (0 + 1))) :=
  refusal_undone_iff fullDisk_open rfl

theorem fullDisk_refuses : (ftruncate 0 1 fullDisk).map Prod.fst = some (.error (-eNoDisk)) := by
  decide +kernel

/-- **`ftruncate` to one byte on a full disk**: the block is refused, and the descriptor says one byte. -/
theorem refusal_undone_fails : ¬Undone zero (ftruncate 0 1) fullDisk 0 0 := by
  intro h
  obtain ⟨⟨r, c'⟩, hr, he⟩ := Option.map_eq_some_iff.1 fullDisk_refuses
  cases he
  have hrefused : SizeRefused fullDisk 0 0 0 1 := (sizeRefused_iff fullDisk_open rfl (by decide)).2 ⟨_, c', hr⟩
  rcases (ftruncate_undone_iff fullDisk_open rfl).1 h with hc | hc | hc
  · exact absurd hc (by decide)
  · cases hc
  · exact hc hrefused

end Client
end Mos
