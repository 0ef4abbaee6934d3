import Mos.Leaks
/-!
# Dup — sharing a descriptor

`dup` closes the new number and then maps the pages of the old one again.  It looks at neither number: for two
descriptors apart it does what it is for, but the same number twice closes it, and a number behind the table is no
descriptor.
-/
namespace Mos

open Fallible FilePtr

namespace Client

variable {c c' : Client} {va fileid i size : Word} {p : Page} {dev : Dev}

/-! ## What `close` leaves alone -/

theorem fsipcDirty_far {o : Word} (ho : 0x400000 ≤ o.toNat) : fsipcDirty fileid o c ≠ some (.ok (), c') := by
  intro h
  have hop : ∀ f s, fileDirty f o s = some (.error (-eInval), s) := by
    intro f s
    have hfar : ¬o.toNat / blockSize < nDirect := by
      have hb : blockSize = 4096 := rfl
      have hn : nDirect = 10 := rfl
      rw [hb, hn]
      omega
    have hfar' : ¬o.toNat / blockSize < nIndirect := by
      have hb : blockSize = 4096 := rfl
      have hn : nIndirect = 1024 := rfl
      rw [hb, hn]
      omega
    have hwalk : fileBlockWalk f (o.toNat / blockSize) false s = some (.error (-eInval), s) := by
      unfold fileBlockWalk
      rw [if_neg hfar, if_neg hfar']
      rfl
    unfold fileDirty fileMapBlock
    exact bind_of_error (bind_of_error hwalk)
  have hbody : ∀ {r : Except Int Reply} {s s' : Server}, (do
      let k ← Serv.openLookup c.refs fileid
      let s ← Fallible.read id
      let page ← Serv.onFs (do
        fileDirty (s.oFile k) o
        pure ReplyPage.none)
      pure (⟨0, page⟩ : Reply) : ServM Reply) s = some (r, s') → r = .error (-eInval) := by
    intro r s s' hr
    rcases bind_eq_some hr with ⟨e, he, rfl⟩ | ⟨k, s₁, -, hr⟩
    · unfold Serv.openLookup at he
      split at he
      · cases he
        rfl
      · split at he
        · cases he
          rfl
        · cases he
    rcases bind_eq_some hr with ⟨e, he, -⟩ | ⟨s₂, s₃, hs, hr⟩
    · cases he
    rcases bind_eq_some hr with ⟨e, he, rfl⟩ | ⟨page, s₄, hp, -⟩
    · obtain ⟨⟨r₁, fs⟩, hx, hy⟩ := Option.map_eq_some_iff.1 he
      rw [bind_of_error (hop _ _)] at hx
      cases hx
      cases hy
      rfl
    · obtain ⟨⟨r₁, fs⟩, hx, hy⟩ := Option.map_eq_some_iff.1 hp
      rw [bind_of_error (hop _ _)] at hx
      cases hx
      cases hy
  unfold fsipcDirty fsipc at h
  rw [if_neg fun hc => hc.1 rfl] at h
  obtain ⟨⟨y, s'⟩, hs, h⟩ := Option.bind_eq_some_iff.1 h
  have hs' : Serv.serveDirty c.refs fileid o c.srv = some (y, s') := hs
  unfold Serv.serveDirty Serv.onOpen Serv.answer at hs'
  rcases bind_eq_some hs' with ⟨e, he, -⟩ | ⟨r, s₁, hr, hk⟩
  · obtain ⟨r, -, hr⟩ := Option.map_eq_some_iff.1 he
    cases hr
  obtain ⟨⟨r₁, s₂⟩, hb, hr₁⟩ := Option.map_eq_some_iff.1 hr
  cases hr₁
  obtain rfl := hbody hb
  cases hk
  dsimp only at h
  rw [if_pos (by decide)] at h
  cases h

theorem dirtyAll_near : ∀ {os : List Word} {c c' : Client}, dirtyAll fileid os c = some (.ok (), c') →
    ∀ o ∈ os, o.toNat < 0x400000
  | [], _, _, _, _, ho => nomatch ho
  | x :: os, c, c', h, o, ho => by
    rcases bind_eq_some h with ⟨e, -, he⟩ | ⟨a, c₁, ha, h⟩
    · cases he
    rcases List.mem_cons.1 ho with rfl | ho
    · exact Nat.not_le.1 fun hfar => fsipcDirty_far hfar ha
    · exact dirtyAll_near h o ho

theorem dirtyAll_size (h : dirtyAll fileid (pagesOf 0 size.toNat) c = some (.ok (), c')) :
    (size.toNat + (pageSize - 1)) / pageSize ≤ 1024 := by
  have hps : pageSize = 4096 := rfl
  by_contra hc
  have hget : (pagesOf 0 size.toNat)[1024]? = some (BitVec.ofNat 32 (1024 * pageSize)) := pages_get (Nat.not_le.1 hc)
  have hmem := List.mem_of_getElem? hget
  have hfar := dirtyAll_near h _ hmem
  rw [BitVec.toNat_ofNat, hps] at hfar
  omega

theorem fileClose_other (hi : i.toNat < maxFd) (hp : c.page (index2fd i) = some p) {r : Except Int Unit}
    (h : fileClose (index2fd i) c = some (r, c')) (hva : pdx va ≠ 0x180 + i.toNat) : c'.page va = c.page va := by
  rw [fileClose_eq hp, fd2data_index2fd hi] at h
  rcases bind_eq_some h with ⟨e, he, -⟩ | ⟨a, c₁, ha, h⟩
  · rw [dirtyAll_page he]
  rcases bind_eq_some h with ⟨e, he, -⟩ | ⟨b, c₂, hb, h⟩
  · rw [fsipc_zero_page he, dirtyAll_page ha]
  have hother : c'.page va = c₂.page va := by
    refine unmapAll_other h fun o ho hs => hva ?_
    rw [hs.1]
    exact pdx_data hi (pages_mem (dirtyAll_size ha) ho).1
  rw [hother, fsipc_zero_page hb, dirtyAll_page ha]

theorem pipeClose_other (hi : i.toNat < maxFd) {r : Except Int Unit} (h : pipeClose (index2fd i) c = some (r, c'))
    (hva : pdx va ≠ 0x180 + i.toNat) (hfd : ¬Same va (index2fd i)) : c'.page va = c.page va := by
  have hdata : ¬Same va (fd2data (index2fd i)) := by
    intro hs
    refine hva (hs.1.trans ?_)
    rw [fd2data_index2fd hi, show index2data i = index2data i + 0 from (BitVec.add_zero _).symm]
    exact pdx_data hi (by decide)
  have hrel : Relates (Beside va) (pipeClose (index2fd i)) :=
    Relates.bind (fun _ _ _ => Beside.trans) (Relates.attempt (memUnmap_beside hfd)) fun _ =>
      Relates.bind (fun _ _ _ => Beside.trans) (Relates.attempt (memUnmap_beside hdata)) fun _ =>
        Relates.ret (Beside.refl va) ()
  exact (hrel _ _ _ h).page

/-- **`close` touches its own pages only.** -/
theorem close_other (hi : i.toNat < maxFd) {r : Except Int Unit} (h : close i c = some (r, c'))
    (hva : pdx va ≠ 0x180 + i.toNat) (hfd : ¬Same va (index2fd i)) : c'.page va = c.page va := by
  cases hp : c.page (index2fd i) with
  | none =>
    have hsame : ∀ {r : Except Int Word} {c₁ : Client}, fdLookup i c = some (r, c₁) → c₁.page = c.page ∧
        ∀ fd, r ≠ .ok fd := by
      intro r c₁ hl
      unfold fdLookup at hl
      split at hl
      · cases hl
        exact ⟨rfl, fun fd hc => by cases hc⟩
      · rcases bind_eq_some hl with ⟨e, he, -⟩ | ⟨q, c₂, hv, hl⟩
        · cases (vpt_eq_some he).1
        · obtain ⟨hq, hpage, -⟩ := vpt_eq_some hv
          cases hq
          rw [hp] at hl
          cases hl
          exact ⟨hpage, fun fd hc => by cases hc⟩
    unfold close at h
    rcases bind_eq_some h with ⟨e, he, -⟩ | ⟨fd, c₁, hl, -⟩
    · rw [(hsame he).1]
    · exact absurd rfl ((hsame hl).2 fd)
  | some p =>
    have hclose := h
    unfold close at h
    rw [bind_of_ok (fdLookup_open hi hp), bind_of_ok (field_open hp _)] at h
    cases hd : devLookup (c.words p.frame fdDevId) with
    | none =>
      rw [hd] at h
      cases h
      rfl
    | some dev =>
      clear h
      obtain ⟨c₁, hdev, hun⟩ := close_inv hi hp hd hclose
      rw [(memUnmap_beside hfd _ _ _ hun).page]
      cases dev with
      | file => exact fileClose_other hi hp hdev hva
      | pipe => exact pipeClose_other hi hdev hva hfd
      | cons =>
        cases hdev
        rfl

/-! ## Sharing the pages -/

theorem memMap_some {srcva dstva perm : Word} (hs : isIllegalVa srcva = false) (hd : isIllegalVa dstva = false)
    (hp : c.page srcva = some p) : memMap srcva dstva perm c = Client.pageInsert dstva p.frame perm c := by
  unfold memMap
  rw [hs, hd]
  simp only [Bool.or_self, Bool.false_eq_true, if_false, bind_read, id, hp]

theorem memMap_none {srcva dstva perm : Word} (hs : isIllegalVa srcva = false) (hd : isIllegalVa dstva = false)
    (hp : c.page srcva = none) : memMap srcva dstva perm c = some (.error (-eInval), c) := by
  unfold memMap
  rw [hs, hd]
  simp only [Bool.or_self, Bool.false_eq_true, if_false, bind_read, id, hp]
  rfl

theorem memMap_page {srcva dstva perm : Word} (hs : isIllegalVa srcva = false) (hd : isIllegalVa dstva = false)
    (hp : c.page srcva = some p) {r : Except Int Unit} (h : memMap srcva dstva perm c = some (r, c')) :
    (r = .ok () ∧ ∀ va', c'.page va' = if Same va' dstva then some ⟨p.frame, perm ||| pteCCacheable ||| pteV⟩
      else c.page va') ∨
      (r = .error (-eNoMem) ∧ c.tables (pdx dstva) = none ∧ c'.page = c.page) := by
  rw [memMap_some hs hd hp] at h
  exact (pageInsert_page h).2

theorem mapData_other {ova nva : Word} : ∀ {os : List Word} {c c' : Client} {r : Except Int Unit},
    mapData ova nva os c = some (r, c') → (∀ o ∈ os, ¬Same va (nva + o)) →
    (∀ o ∈ os, isIllegalVa (ova + o) = false ∧ isIllegalVa (nva + o) = false) → c'.page va = c.page va
  | [], _, _, _, h, _, _ => by
    cases h
    rfl
  | o :: os, c, c', r, h, hno, hlegal => by
    have hlegal' := fun x hx => hlegal x (List.mem_cons_of_mem _ hx)
    have hno' := fun x hx => hno x (List.mem_cons_of_mem _ hx)
    unfold mapData at h
    rcases bind_eq_some h with ⟨e, he, -⟩ | ⟨q, c₁, hv, h⟩
    · cases (vpt_eq_some he).1
    obtain ⟨hq, hpage, hsame⟩ := vpt_eq_some hv
    cases hq
    cases hp : c.page (ova + o) with
    | none =>
      rw [hp] at h
      rw [mapData_other h hno' hlegal', hpage]
    | some p =>
      obtain rfl := (hsame (Option.isSome_iff_exists.2 ⟨p, hp⟩)).symm
      obtain ⟨hs, hd⟩ := hlegal o List.mem_cons_self
      rw [hp] at h
      dsimp only at h
      rcases bind_eq_some h with ⟨e, he, -⟩ | ⟨u, c₂, hu, h⟩
      · rcases memMap_page hs hd hp he with ⟨-, hpage⟩ | ⟨-, -, hpage⟩
        · rw [hpage, if_neg (hno o List.mem_cons_self)]
        · rw [hpage]
      · have hsame : c₂.page va = c.page va := by
          rcases memMap_page hs hd hp hu with ⟨-, hpage⟩ | ⟨-, -, hpage⟩
          · rw [hpage, if_neg (hno o List.mem_cons_self)]
          · rw [hpage]
        rw [mapData_other h hno' hlegal', hsame]

/-- **Every page is shared**, when the loop comes to its end. -/
theorem mapData_shares {ova nva : Word} : ∀ {os : List Word} {c c' : Client}, mapData ova nva os c = some (.ok (), c') →
    os.Pairwise (fun o o' => ¬Same (nva + o) (nva + o')) → (∀ o ∈ os, ∀ o' ∈ os, ¬Same (ova + o) (nva + o')) →
    (∀ o ∈ os, isIllegalVa (ova + o) = false ∧ isIllegalVa (nva + o) = false) →
    ∀ o ∈ os, ∀ p, c.page (ova + o) = some p → ∃ q, c'.page (nva + o) = some q ∧ q.frame = p.frame
  | [], _, _, _, _, _, _, _, ho => nomatch ho
  | x :: os, c, c', h, hpair, hapart, hlegal, o, ho => by
    intro p hp
    rw [List.pairwise_cons] at hpair
    have hlegal' := fun y hy => hlegal y (List.mem_cons_of_mem _ hy)
    have hapart' := fun y hy z hz => hapart y (List.mem_cons_of_mem _ hy) z (List.mem_cons_of_mem _ hz)
    unfold mapData at h
    rcases bind_eq_some h with ⟨e, he, -⟩ | ⟨q, c₁, hv, h⟩
    · cases (vpt_eq_some he).1
    obtain ⟨hq, hpage, hsame⟩ := vpt_eq_some hv
    cases hq
    cases hpx : c.page (ova + x) with
    | none =>
      rw [hpx] at h
      rcases List.mem_cons.1 ho with rfl | ho
      · cases hpx.symm.trans hp
      · exact mapData_shares h hpair.2 hapart' hlegal' o ho p (by rw [hpage, hp])
    | some px =>
      obtain rfl := (hsame (Option.isSome_iff_exists.2 ⟨px, hpx⟩)).symm
      obtain ⟨hs, hd⟩ := hlegal x List.mem_cons_self
      rw [hpx] at h
      dsimp only at h
      rcases bind_eq_some h with ⟨e, -, he⟩ | ⟨u, c₂, hu, hrest⟩
      · cases he
      rcases memMap_page hs hd hpx hu with ⟨-, hpage⟩ | ⟨he, -⟩
      · rcases List.mem_cons.1 ho with rfl | ho
        · cases hpx.symm.trans hp
          refine ⟨⟨p.frame, p.perm &&& (pteD ||| pteLibrary) ||| pteCCacheable ||| pteV⟩,
            (mapData_other hrest (fun y hy => hpair.1 y hy) hlegal').trans ?_, rfl⟩
          rw [hpage, if_pos ⟨rfl, rfl⟩]
        · refine mapData_shares hrest hpair.2 hapart' hlegal' o ho p ?_
          rw [hpage, if_neg (hapart o (List.mem_cons_of_mem _ ho) x List.mem_cons_self)]
          exact hp
      · cases he

/-! ## The pages of a region -/

theorem mem_dataPages {o : Word} (ho : o ∈ dataPages) : o.toNat < 0x400000 :=
  (mem_pagesOf ho (by decide)).2

theorem legal_dataPages (hi : i.toNat < maxFd) : ∀ o ∈ dataPages, isIllegalVa (index2data i + o) = false :=
  fun _ ho => legal_data hi (mem_dataPages ho)

theorem dataPages_pairwise (hi : i.toNat < maxFd) :
    dataPages.Pairwise fun o o' => ¬Same (index2data i + o) (index2data i + o') := by
  have hps : pageSize = 4096 := rfl
  have hpd := pdmap_toNat
  unfold dataPages pagesOf
  rw [List.pairwise_map]
  refine List.pairwise_lt_range.imp_of_mem fun {a b} ha hb hab hs => ?_
  rw [List.mem_range, hpd, hps] at ha hb
  have hoff : ∀ k, k < 1024 → (BitVec.ofNat 32 (0 + k * pageSize)).toNat = k * 4096 := by
    intro k hk
    rw [BitVec.toNat_ofNat, hps]
    omega
  have ha' := hoff a (by omega)
  have hb' := hoff b (by omega)
  rw [same_data hi (by omega) (by omega), ha', hb'] at hs
  omega

theorem dataPages_cover (hi : i.toNat < maxFd) {o : Word} (ho : o.toNat < 0x400000) :
    ∃ o' ∈ dataPages, o'.toNat = o.toNat / 4096 * 4096 ∧ Same (index2data i + o) (index2data i + o') := by
  have hps : pageSize = 4096 := rfl
  have hpd := pdmap_toNat
  refine ⟨BitVec.ofNat 32 (0 + o.toNat / 4096 * pageSize), ?_, ?_, ?_⟩
  · refine List.mem_map.2 ⟨o.toNat / 4096, ?_, rfl⟩
    rw [List.mem_range, hpd, hps]
    omega
  · rw [BitVec.toNat_ofNat, hps]
    omega
  · have hoff : (BitVec.ofNat 32 (0 + o.toNat / 4096 * pageSize)).toNat = o.toNat / 4096 * 4096 := by
      rw [BitVec.toNat_ofNat, hps]
      omega
    refine (same_data hi ho (by omega)).2 ?_
    omega

theorem page_same {va' : Word} (h : Same va va') : c.page va = c.page va' := by
  unfold page
  rw [h.1, h.2]

theorem unmapAll_dataPages (hi : i.toNat < maxFd) {r : Except Int Unit}
    (h : unmapAll (index2data i) dataPages c = some (r, c')) : NoData c' i := by
  intro o ho
  obtain ⟨o', ho', -, hs⟩ := dataPages_cover hi ho
  obtain ⟨k, hk⟩ := List.mem_iff_getElem?.1 ho'
  exact unmapAll_reached h hk (fun x hx => legal_dataPages hi x (List.mem_of_mem_take hx)) hs

theorem unmapAll_ok (hi : i.toNat < maxFd) : ∀ (os : List Word) (c : Client), (∀ o ∈ os, o.toNat < 0x400000) →
    ∃ c', unmapAll (index2data i) os c = some (.ok (), c')
  | [], c, _ => ⟨c, rfl⟩
  | o :: os, c, h => by
    obtain ⟨c₁, h₁⟩ := memUnmap_ok (legal_data hi (h o List.mem_cons_self)) c
    obtain ⟨c₂, h₂⟩ := unmapAll_ok hi os c₁ fun x hx => h x (List.mem_cons_of_mem _ hx)
    exact ⟨c₂, (bind_of_ok h₁).trans h₂⟩

/-! ## What `dup` is for -/

/-- The number is that of an open descriptor. -/
def Open (c : Client) (i : Word) : Prop := fdLookup i c = some (.ok (index2fd i), c)

/-- The address is in the page or in the data of the number. -/
def Of (i va : Word) : Prop := va = index2fd i ∨ ∃ o : Word, o.toNat < pdmap.toNat ∧ va = fd2data (index2fd i) + o

/-- **Both numbers are the same descriptor**, with the same data. -/
structure Shares (c : Client) (old new : Word) : Prop where
  still : Open c old
  found : Open c new
  descriptor : ∃ p q, c.page (index2fd old) = some p ∧ c.page (index2fd new) = some q ∧ q.frame = p.frame
  data : ∀ o : Word, o.toNat < pdmap.toNat → ∀ p, c.page (fd2data (index2fd old) + o) = some p →
    ∃ q, c.page (fd2data (index2fd new) + o) = some q ∧ q.frame = p.frame

/-- **The old number is as before**, and the new one has none of its pages. -/
structure Intact (c c' : Client) (old new : Word) : Prop where
  same : ∀ va, Of old va → c'.page va = c.page va
  apart : ∀ va va', Of new va → Of old va' → ∀ q p, c'.page va = some q → c.page va' = some p → q.frame ≠ p.frame

/-- What `dup` promises, by the sign of what it returns. -/
def DupSound (c : Client) (old new : Word) : Prop := ∀ r c', dup old new c = some (r, c') →
  (∀ v, r = .ok v → 0 ≤ v.toInt → v = new ∧ Shares c' old new) ∧
    ((∀ v, r = .ok v → v.toInt < 0) → Open c old → Intact c c' old new)

theorem open_iff (hi : i.toNat < maxFd) : Open c i ↔ c.Mapped (index2fd i) := by
  constructor
  · intro h
    unfold Open fdLookup at h
    split at h
    · cases h
    · rcases bind_eq_some h with ⟨e, -, he⟩ | ⟨q, c₁, hv, h⟩
      · cases he
      cases (vpt_eq_some hv).1
      unfold Mapped
      cases hp : c.page (index2fd i) with
      | none =>
        rw [hp] at h
        cases h
      | some p => rfl
  · intro h
    obtain ⟨p, hp⟩ := Option.isSome_iff_exists.1 h
    exact fdLookup_open hi hp

theorem fdLookup_ok {i fd : Word} (h : fdLookup i c = some (.ok fd, c')) : Open c i := by
  have h' := h
  unfold fdLookup at h
  split at h
  · cases h
  · rcases bind_eq_some h with ⟨e, -, he⟩ | ⟨q, c₁, hv, h⟩
    · cases he
    obtain ⟨hq, -, hsame⟩ := vpt_eq_some hv
    cases hq
    cases hp : c.page (index2fd i) with
    | none =>
      rw [hp] at h
      cases h
    | some p =>
      obtain rfl := (hsame (Option.isSome_iff_exists.2 ⟨p, hp⟩)).symm
      rw [hp] at h
      cases h
      exact h'

theorem dupSound_of_closed {old new : Word} (h : ¬Open c old) : DupSound c old new := by
  intro r c' hr
  unfold dup at hr
  rcases bind_eq_some hr with ⟨e, he, rfl⟩ | ⟨fd, c₁, hl, -⟩
  · exact ⟨fun v hv => (nomatch hv), fun _ ho => absurd ho h⟩
  · exact absurd (fdLookup_ok hl) h

section Apart

variable {old new : Word}

/-- An address that the calls on the new number leave alone. -/
def Away (new va : Word) : Prop := pdx va ≠ 0x180 + new.toNat ∧ ¬Same va (index2fd new)

theorem away_of (hold : old.toNat < maxFd) (hnew : new.toNat < maxFd) (hne : old ≠ new) {va : Word} (hva : Of old va) :
    Away new va := by
  have hm : maxFd = 32 := rfl
  have hne' : old.toNat ≠ new.toNat := fun h => hne (BitVec.eq_of_toNat_eq h)
  rcases hva with rfl | ⟨o, ho, rfl⟩
  · refine ⟨by rw [pdx_fd hold]; omega, fun hs => hne' ?_⟩
    have := hs.2
    rwa [ptx_fd hold, ptx_fd hnew] at this
  · rw [fd2data_index2fd hold]
    refine ⟨by rw [pdx_data hold ho]; omega, fun hs => ?_⟩
    have := hs.1
    rw [pdx_data hold ho, pdx_fd hnew] at this
    omega

theorem Away.not_data (hnew : new.toNat < maxFd) {va : Word} (h : Away new va) :
    ∀ o ∈ dataPages, ¬Same va (index2data new + o) := by
  intro o ho hs
  exact h.1 (hs.1.trans (pdx_data hnew (mem_dataPages ho)))

/-- **The last call of `dup`** cannot fail: the page table is that of the old descriptor. -/
theorem mapFd_page (hold : old.toNat < maxFd) (hnew : new.toNat < maxFd) (hp : c.page (index2fd old) = some p)
    {r : Except Int Unit} (h : mapFd (index2fd old) (index2fd new) c = some (r, c')) :
    r = .ok () ∧ (∃ q, c'.page (index2fd new) = some q ∧ q.frame = p.frame) ∧
      ∀ va, ¬Same va (index2fd new) → c'.page va = c.page va := by
  have hv : vpt (index2fd old) c = some (.ok (some p), c) := hp ▸ vpt_table (table_of_page hp)
  unfold mapFd at h
  rw [bind_of_ok hv] at h
  rcases memMap_page (legal_fd hold) (legal_fd hnew) hp h with ⟨hr, hpage⟩ | ⟨-, hnone, -⟩
  · refine ⟨hr, ⟨⟨p.frame, p.perm &&& (pteD ||| pteLibrary) ||| pteCCacheable ||| pteV⟩, ?_, rfl⟩, fun va hva => ?_⟩
    · rw [hpage, if_pos ⟨rfl, rfl⟩]
    · rw [hpage, if_neg hva]
  · have ht := table_of_page hp
    rw [pdx_fd hold, ← pdx_fd hnew, hnone] at ht
    cases ht

/-- **The pages that are shared.** -/
theorem share_page (hold : old.toNat < maxFd) (hnew : new.toNat < maxFd) (hne : old ≠ new)
    (hp : c.page (index2fd old) = some p) {r : Except Int Unit}
    (h : share (index2fd old) (index2fd new) c = some (r, c')) :
    (∀ va, Away new va → c'.page va = c.page va) ∧
      (r = .ok () → (∃ q, c'.page (index2fd new) = some q ∧ q.frame = p.frame) ∧
        ∀ o : Word, o.toNat < pdmap.toNat → ∀ p', c.page (index2data old + o) = some p' →
          ∃ q, c'.page (index2data new + o) = some q ∧ q.frame = p'.frame) := by
  have hm : maxFd = 32 := rfl
  have hne' : old.toNat ≠ new.toNat := fun h => hne (BitVec.eq_of_toNat_eq h)
  have hfd : Away new (index2fd old) := away_of hold hnew hne (.inl rfl)
  unfold share at h
  rw [bind_read, fd2data_index2fd hold, fd2data_index2fd hnew] at h
  by_cases ht : (c.tables (pdx (index2data old))).isSome = true
  · simp only [id, ht, if_true] at h
    have hlegal : ∀ o ∈ dataPages, isIllegalVa (index2data old + o) = false ∧
        isIllegalVa (index2data new + o) = false :=
      fun o ho => ⟨legal_dataPages hold o ho, legal_dataPages hnew o ho⟩
    rcases bind_eq_some h with ⟨e, he, rfl⟩ | ⟨u, c₁, hu, h⟩
    · exact ⟨fun va hva => mapData_other he (hva.not_data hnew) hlegal, fun hr => by cases hr⟩
    · have hp₁ : c₁.page (index2fd old) = some p := (mapData_other hu (hfd.not_data hnew) hlegal).trans hp
      obtain ⟨hr, hq, hother⟩ := mapFd_page hold hnew hp₁ h
      refine ⟨fun va hva => (hother va hva.2).trans (mapData_other hu (hva.not_data hnew) hlegal), fun _ => ⟨hq, ?_⟩⟩
      intro o ho p' hp'
      obtain ⟨o', ho', hoff, hs⟩ := dataPages_cover hold ho
      have ho'' := mem_dataPages ho'
      have hapart : ∀ x ∈ dataPages, ∀ y ∈ dataPages, ¬Same (index2data old + x) (index2data new + y) := by
        intro x hx y hy hxy
        have := hxy.1
        rw [pdx_data hold (mem_dataPages hx), pdx_data hnew (mem_dataPages hy)] at this
        omega
      obtain ⟨q, hq', hframe⟩ := mapData_shares hu (dataPages_pairwise hnew) hapart hlegal o' ho' p'
        ((page_same hs).symm.trans hp')
      have hs' : Same (index2data new + o) (index2data new + o') := (same_data hnew ho ho'').2 (by omega)
      refine ⟨q, ?_, hframe⟩
      rw [page_same hs', hother _ ?_, hq']
      exact fun hfd' => not_same_data hnew ho'' ⟨hfd'.1.symm, hfd'.2.symm⟩
  · simp only [id, ht] at h
    obtain ⟨hr, hq, hother⟩ := mapFd_page hold hnew hp h
    refine ⟨fun va hva => hother va hva.2, fun _ => ⟨hq, fun o ho p' hp' => ?_⟩⟩
    obtain ⟨t, ht', -⟩ := Option.bind_eq_some_iff.1 hp'
    have hsame : pdx (index2data old + o) = pdx (index2data old) := by
      have h0 : pdx (index2data old) = 0x180 + old.toNat := by
        rw [show index2data old = index2data old + 0 from (BitVec.add_zero _).symm]
        exact pdx_data hold (by decide)
      rw [pdx_data hold ho, h0]
    rw [hsame] at ht'
    rw [ht'] at ht
    exact absurd rfl ht

/-- **`dup` of a descriptor to another one.** -/
theorem dupSound_of_apart (hold : old.toNat < maxFd) (hnew : new.toNat < maxFd) (hne : old ≠ new) :
    DupSound c old new := by
  by_cases hopen : Open c old
  swap
  · exact dupSound_of_closed hopen
  intro r c' h
  obtain ⟨p, hp⟩ := Option.isSome_iff_exists.1 ((open_iff hold).1 hopen)
  unfold dup at h
  rw [bind_of_ok hopen] at h
  rcases bind_eq_some h with ⟨e, he, -⟩ | ⟨r₁, c₁, hr₁, h⟩
  · obtain ⟨y, -, hy⟩ := Option.map_eq_some_iff.1 he
    cases hy
  obtain ⟨⟨r₂, c₂⟩, hclose, hr₂⟩ := Option.map_eq_some_iff.1 hr₁
  cases hr₂
  have hafter : ∀ va, Away new va → c₂.page va = c.page va := fun va hva => close_other hnew hclose hva.1 hva.2
  have hp₂ : c₂.page (index2fd old) = some p := (hafter _ (away_of hold hnew hne (.inl rfl))).trans hp
  dsimp only at h
  rcases bind_eq_some h with ⟨e, he, -⟩ | ⟨r₃, c₃, hr₃, h⟩
  · obtain ⟨y, -, hy⟩ := Option.map_eq_some_iff.1 he
    cases hy
  obtain ⟨⟨r₄, c₄⟩, hshare, hr₄⟩ := Option.map_eq_some_iff.1 hr₃
  cases hr₄
  obtain ⟨hkeep, hshared⟩ := share_page hold hnew hne hp₂ hshare
  have hsame : ∀ va, Away new va → c₄.page va = c.page va := fun va hva => (hkeep va hva).trans (hafter va hva)
  have hm : maxFd = 32 := rfl
  cases r₄ with
  | ok u =>
    cases h
    obtain ⟨⟨q, hq, hframe⟩, hdata⟩ := hshared rfl
    have hpos : 0 ≤ new.toInt := by
      rw [BitVec.toInt_eq_toNat_of_lt (by omega)]
      omega
    refine ⟨fun v hv _ => ?_, fun hneg _ => absurd (hneg new rfl) (by omega)⟩
    cases hv
    have hpold : c₄.page (index2fd old) = some p := (hkeep _ (away_of hold hnew hne (.inl rfl))).trans hp₂
    refine ⟨rfl, (open_iff hold).2 ?_, (open_iff hnew).2 ?_, ⟨p, q, hpold, hq, hframe⟩, ?_⟩
    · unfold Mapped
      rw [hpold]
      rfl
    · unfold Mapped
      rw [hq]
      rfl
    · intro o ho p' hp'
      rw [hkeep _ (away_of hold hnew hne (.inr ⟨o, ho, rfl⟩)), fd2data_index2fd hold] at hp'
      rw [fd2data_index2fd hnew]
      exact hdata o ho p' hp'
  | error e =>
    dsimp only at h
    rcases bind_eq_some h with ⟨e', he', -⟩ | ⟨u, c₅, hu, h⟩
    · exact absurd he' (Sure.orPanic _ _ _ _)
    rcases bind_eq_some h with ⟨e', he', -⟩ | ⟨u', c₆, hu', h⟩
    · exact absurd he' (Sure.orPanic _ _ _ _)
    cases h
    obtain ⟨a, -, hun⟩ := orPanic_eq_some hu
    obtain ⟨b, -, hall⟩ := orPanic_eq_some hu'
    rw [fd2data_index2fd hnew] at hall
    refine ⟨fun v hv => (nomatch hv), fun _ _ => ⟨fun va hva => ?_, fun va va' hva _ q p' hq _ => ?_⟩⟩
    · have haway := away_of hold hnew hne hva
      rw [unmapAll_other hall (haway.not_data hnew), (memUnmap_beside haway.2 _ _ _ hun).page, hsame va haway]
    · -- nothing is mapped at the new number
      have hnone : ¬c'.Mapped va := by
        rcases hva with rfl | ⟨o, ho, rfl⟩
        · exact fun hmapped => unmapped_fd hun (unmapAll_mapped hall hmapped)
        · rw [fd2data_index2fd hnew]
          exact unmapAll_dataPages hnew hall o ho
      refine absurd ?_ hnone
      unfold Mapped
      rw [hq]
      rfl

end Apart

/-! ## The same number twice -/

/-- Page tables stay. -/
def TablesStay (c c' : Client) : Prop := ∀ d, (c.tables d).isSome → (c'.tables d).isSome

namespace TablesStay

theorem refl (c : Client) : TablesStay c c := fun _ h => h

theorem trans (a b c : Client) (h : TablesStay a b) (h' : TablesStay b c) : TablesStay a c := fun d hd => h' d (h d hd)

theorem setPage (c : Client) (va : Word) (t : Nat → Option Page) (new : Option Page) :
    TablesStay c (c.setPage va t new) := by
  intro d hd
  show (Function.update c.tables (pdx va) _ d).isSome
  rw [Function.update_apply]
  split
  · rfl
  · exact hd

theorem pageInsert (va : Word) (fr : Frame) (perm : Word) : Relates TablesStay (Client.pageInsert va fr perm) := by
  intro c r c' h
  unfold Client.pageInsert at h
  dsimp only at h
  split at h
  · cases h
    exact setPage _ _ _ _
  · split at h
    · cases h
      exact setPage { c with supply := c.supply.tail } _ _ _
    · cases h
      exact refl _

theorem memUnmap (va : Word) : Relates TablesStay (Client.memUnmap va) := by
  intro c r c' h
  unfold Client.memUnmap at h
  split at h
  · cases h
    exact refl _
  · split at h
    · cases h
      exact refl _
    · cases h
      exact setPage _ _ _ _

theorem fsipc (req : Fsreq) (dstva : Word) : Relates TablesStay (Client.fsipc req dstva) := by
  intro c r c' h
  unfold Client.fsipc at h
  split at h
  · cases h
  · obtain ⟨⟨y, s'⟩, -, h⟩ := Option.bind_eq_some_iff.1 h
    dsimp only at h
    cases y with
    | error e => cases h
    | ok reply =>
      dsimp only at h
      split at h
      · cases h
        exact refl _
      · split at h
        · cases h
          exact refl _
        · split at h
          · cases h
            exact refl _
          · obtain ⟨a, -, hins⟩ := orPanic_eq_some h
            exact fun d hd => pageInsert _ _ _ _ _ _ hins d hd

theorem dirtyAll (fileid : Word) : ∀ os : List Word, Relates TablesStay (Client.dirtyAll fileid os)
  | [] => Relates.ret refl ()
  | _ :: os => Relates.bind trans (fsipc _ _) fun _ => dirtyAll fileid os

theorem unmapAll (va : Word) : ∀ os : List Word, Relates TablesStay (Client.unmapAll va os)
  | [] => Relates.ret refl ()
  | _ :: os => Relates.bind trans (memUnmap _) fun _ => unmapAll va os

theorem memMap (srcva dstva perm : Word) : Relates TablesStay (Client.memMap srcva dstva perm) := by
  refine Relates.ite (fun _ => Relates.fail refl _) fun _ => Relates.bind trans (Relates.read refl _) fun c => ?_
  cases c.page srcva with
  | none => exact Relates.fail refl _
  | some p => exact pageInsert _ _ _

theorem devClose (dev : Dev) (fd : Word) : Relates TablesStay (Client.devClose dev fd) := by
  have hfield : ∀ w, Relates TablesStay (Client.field fd w) := by
    intro w c r c' h
    obtain ⟨p, -, hp⟩ := Option.map_eq_some_iff.1 h
    cases hp
    exact refl _
  cases dev with
  | file =>
    exact Relates.bind trans (hfield _) fun _ => Relates.bind trans (hfield _) fun _ =>
      Relates.bind trans (dirtyAll _ _) fun _ => Relates.bind trans (fsipc _ _) fun _ => unmapAll _ _
  | cons => exact Relates.ret refl ()
  | pipe =>
    exact Relates.bind trans (Relates.attempt (memUnmap _)) fun _ =>
      Relates.bind trans (Relates.attempt (memUnmap _)) fun _ => Relates.ret refl ()

end TablesStay

theorem mapData_some (ova nva : Word) : ∀ (os : List Word) {c : Client}, (∀ o ∈ os, (c.tables (pdx (ova + o))).isSome) →
    ∃ r c', mapData ova nva os c = some (r, c') ∧ TablesStay c c'
  | [], c, _ => ⟨.ok (), c, rfl, TablesStay.refl c⟩
  | o :: os, c, h => by
    unfold mapData
    rw [bind_of_ok (vpt_table (h o List.mem_cons_self))]
    cases hp : c.page (ova + o) with
    | none => exact mapData_some ova nva os fun x hx => h x (List.mem_cons_of_mem _ hx)
    | some p =>
      dsimp only
      have hmap : ∃ r c', memMap (ova + o) (nva + o) (p.perm &&& (pteD ||| pteLibrary)) c = some (r, c') := by
        unfold memMap
        split
        · exact ⟨_, _, rfl⟩
        · rw [bind_read]
          simp only [id, hp]
          unfold Client.pageInsert
          dsimp only
          split
          · exact ⟨_, _, rfl⟩
          · split
            · exact ⟨_, _, rfl⟩
            · exact ⟨_, _, rfl⟩
      obtain ⟨r, c₁, h₁⟩ := hmap
      have hstay := TablesStay.memMap _ _ _ _ _ _ h₁
      cases r with
      | error e => exact ⟨_, c₁, bind_of_error h₁, hstay⟩
      | ok u =>
        obtain ⟨r, c', h', hstay'⟩ := mapData_some ova nva os fun x hx => hstay _ (h x (List.mem_cons_of_mem _ hx))
        exact ⟨r, c', (bind_of_ok h₁).trans h', TablesStay.trans _ _ _ hstay hstay'⟩

theorem mapData_self {ova : Word} : ∀ {os : List Word} {c c' : Client} {r : Except Int Unit},
    mapData ova ova os c = some (r, c') → (∀ o ∈ os, isIllegalVa (ova + o) = false) →
    r = .ok () ∧ ∀ va, (c'.page va).map (·.frame) = (c.page va).map (·.frame)
  | [], _, _, _, h, _ => by
    cases h
    exact ⟨rfl, fun _ => rfl⟩
  | o :: os, c, c', r, h, hlegal => by
    have hlegal' := fun x hx => hlegal x (List.mem_cons_of_mem _ hx)
    unfold mapData at h
    rcases bind_eq_some h with ⟨e, he, -⟩ | ⟨q, c₁, hv, h⟩
    · cases (vpt_eq_some he).1
    obtain ⟨hq, hpage, hsame⟩ := vpt_eq_some hv
    cases hq
    cases hp : c.page (ova + o) with
    | none =>
      rw [hp] at h
      obtain ⟨hr, hframes⟩ := mapData_self h hlegal'
      exact ⟨hr, fun va => (hframes va).trans (by rw [hpage])⟩
    | some p =>
      obtain rfl := (hsame (Option.isSome_iff_exists.2 ⟨p, hp⟩)).symm
      have hl := hlegal o List.mem_cons_self
      rw [hp] at h
      dsimp only at h
      rcases bind_eq_some h with ⟨e, he, -⟩ | ⟨u, c₂, hu, hrest⟩
      · rcases memMap_page hl hl hp he with ⟨hr, -⟩ | ⟨-, hnone, -⟩
        · cases hr
        · have ht := table_of_page hp
          rw [hnone] at ht
          cases ht
      · rcases memMap_page hl hl hp hu with ⟨-, hpage⟩ | ⟨hr, -⟩
        · obtain ⟨hok, hsame⟩ := mapData_self hrest hlegal'
          refine ⟨hok, fun va => (hsame va).trans ?_⟩
          rw [hpage]
          split
          · rename_i hs
            rw [page_same hs, hp]
            rfl
          · rfl
        · cases hr

theorem mapped_of_frame {va : Word} (h : (c'.page va).map (·.frame) = (c.page va).map (·.frame)) (hm : c.Mapped va) :
    c'.Mapped va := by
  unfold Mapped at hm ⊢
  rw [← Option.isSome_map (f := (·.frame)), h, Option.isSome_map]
  exact hm

section Twice

/-- A descriptor of no known device is not closed, and its pages are mapped onto themselves. -/
theorem dupSound_of_unknown (hi : i.toNat < maxFd) (hp : c.page (index2fd i) = some p)
    (hd : devLookup (c.words p.frame fdDevId) = none) : DupSound c i i := by
  have hm : maxFd = 32 := rfl
  have hopen : Open c i := fdLookup_open hi hp
  have hclose : close i c = some (.error (-eInval), c) := by
    unfold close
    rw [bind_of_ok hopen, bind_of_ok (field_open hp _), hd]
    rfl
  intro r c' h
  unfold dup at h
  rw [bind_of_ok hopen, bind_attempt hclose] at h
  rcases bind_eq_some h with ⟨e, he, -⟩ | ⟨r₃, c₃, hr₃, h⟩
  · obtain ⟨y, -, hy⟩ := Option.map_eq_some_iff.1 he
    cases hy
  obtain ⟨⟨r₄, c₄⟩, hshare, hr₄⟩ := Option.map_eq_some_iff.1 hr₃
  cases hr₄
  -- the descriptor is still there
  have hdone : r₄ = .ok () ∧ c₄.Mapped (index2fd i) := by
    have hmapped : c.Mapped (index2fd i) := (open_iff hi).1 hopen
    have hlast : ∀ {c₁ : Client}, c₁.Mapped (index2fd i) → mapFd (index2fd i) (index2fd i) c₁ = some (r₄, c₄) →
        r₄ = .ok () ∧ c₄.Mapped (index2fd i) := by
      intro c₁ h₁ hmap
      obtain ⟨p₁, hp₁⟩ := Option.isSome_iff_exists.1 h₁
      obtain ⟨hr, ⟨q, hq, -⟩, -⟩ := mapFd_page hi hi hp₁ hmap
      refine ⟨hr, ?_⟩
      unfold Mapped
      rw [hq]
      rfl
    unfold share at hshare
    rw [bind_read, fd2data_index2fd hi] at hshare
    by_cases ht : (c.tables (pdx (index2data i))).isSome = true
    · simp only [id, ht, if_true] at hshare
      rcases bind_eq_some hshare with ⟨e, he, -⟩ | ⟨u, c₁, hu, hmap⟩
      · cases (mapData_self he (legal_dataPages hi)).1
      · exact hlast (mapped_of_frame ((mapData_self hu (legal_dataPages hi)).2 _) hmapped) hmap
    · simp only [id, ht] at hshare
      exact hlast hmapped hshare
  obtain ⟨rfl, hmapped⟩ := hdone
  cases h
  have hpos : 0 ≤ i.toInt := by
    rw [BitVec.toInt_eq_toNat_of_lt (by omega)]
    omega
  obtain ⟨q, hq⟩ := Option.isSome_iff_exists.1 hmapped
  refine ⟨fun v hv _ => ?_, fun hneg _ => absurd (hneg i rfl) (by omega)⟩
  cases hv
  have hstill : Open c₄ i := (open_iff hi).2 hmapped
  exact ⟨rfl, hstill, hstill, ⟨q, q, hq, hq, rfl⟩, fun o _ p' hp' => ⟨p', hp', rfl⟩⟩

/-- **`dup(fd, fd)` closes the descriptor**, and finds nothing to share. -/
theorem not_dupSound_of_twice (hi : i.toNat < maxFd) (hp : c.page (index2fd i) = some p)
    (hd : devLookup (c.words p.frame fdDevId) = some dev) {r : Except Int Unit} (hclose : close i c = some (r, c')) :
    ¬DupSound c i i := by
  intro hsound
  have hopen : Open c i := fdLookup_open hi hp
  obtain ⟨c₁, hdev, hun⟩ := close_inv hi hp hd hclose
  have hgone := unmapped_fd hun
  have htable : (c'.tables (pdx (index2fd i))).isSome := by
    obtain ⟨t, ht, -⟩ := Option.bind_eq_some_iff.1 hp
    refine TablesStay.trans _ _ _ (TablesStay.devClose _ _ _ _ _ hdev) (TablesStay.memUnmap _ _ _ _ hun) _ ?_
    rw [ht]
    rfl
  -- the last call finds no page
  have hlast : ∀ {c₂ : Client}, TablesStay c' c₂ → ¬c₂.Mapped (index2fd i) →
      ∃ c₃, mapFd (index2fd i) (index2fd i) c₂ = some (.error (-eInval), c₃) ∧ c₃ = c₂ := by
    intro c₂ hstay hno
    have hpage : c₂.page (index2fd i) = none := Option.not_isSome_iff_eq_none.1 hno
    have hv : vpt (index2fd i) c₂ = some (.ok none, c₂) := hpage ▸ vpt_table (hstay _ htable)
    refine ⟨c₂, ?_, rfl⟩
    unfold mapFd
    rw [bind_of_ok hv]
    exact memMap_none (legal_fd hi) (legal_fd hi) hpage
  have hshare : ∃ c₃, share (index2fd i) (index2fd i) c' = some (.error (-eInval), c₃) ∧ ¬c₃.Mapped (index2fd i) := by
    unfold share
    rw [bind_read, fd2data_index2fd hi]
    by_cases ht : (c'.tables (pdx (index2data i))).isSome = true
    · simp only [id, ht, if_true]
      obtain ⟨r₁, c₂, hdata, hstay⟩ := mapData_some (index2data i) (index2data i) dataPages (c := c')
        fun o ho => by
          have h0 : pdx (index2data i) = 0x180 + i.toNat := by
            rw [show index2data i = index2data i + 0 from (BitVec.add_zero _).symm]
            exact pdx_data hi (by decide)
          rw [pdx_data hi (mem_dataPages ho), ← h0]
          exact ht
      obtain ⟨rfl, hsame⟩ := mapData_self hdata (legal_dataPages hi)
      have hno : ¬c₂.Mapped (index2fd i) := fun hm => hgone (mapped_of_frame (hsame _).symm hm)
      obtain ⟨c₃, h₃, rfl⟩ := hlast hstay hno
      exact ⟨c₃, (bind_of_ok hdata).trans h₃, hno⟩
    · simp only [id, ht]
      obtain ⟨c₃, h₃, rfl⟩ := hlast (TablesStay.refl _) hgone
      exact ⟨_, h₃, hgone⟩
  obtain ⟨c₃, h₃, hno⟩ := hshare
  obtain ⟨c₄, h₄⟩ := memUnmap_ok (legal_fd hi) c₃
  obtain ⟨c₅, h₅⟩ := unmapAll_ok hi dataPages c₄ fun o ho => mem_dataPages ho
  have hor : orPanic (memUnmap (index2fd i)) c₃ = some (.ok (), c₄) := by
    unfold orPanic
    rw [h₄]
    rfl
  have hor' : orPanic (unmapAll (index2data i) dataPages) c₄ = some (.ok (), c₅) := by
    unfold orPanic
    rw [h₅]
    rfl
  have hdup : dup i i c = some (.error (-eInval), c₅) := by
    unfold dup
    rw [bind_of_ok hopen, bind_attempt hclose]
    rw [bind_attempt h₃]
    dsimp only
    rw [bind_of_ok hor, fd2data_index2fd hi, bind_of_ok hor']
    rfl
  have hintact := (hsound _ _ hdup).2 (fun v hv => nomatch hv) hopen
  have hpage := hintact.same (index2fd i) (.inl rfl)
  have hm₅ : c₅.Mapped (index2fd i) := by
    unfold Mapped
    rw [hpage, hp]
    rfl
  exact unmapped_fd h₄ (unmapAll_mapped h₅ hm₅)

end Twice

/-- **When `dup` of numbers of the table is right**: the old one is not open, or the numbers differ, or `close` gives
nothing up. -/
theorem dupSound_iff {old new : Word} (hold : old.toNat < maxFd) (hnew : new.toNat < maxFd) : DupSound c old new ↔
    ∀ p, c.page (index2fd old) = some p → old ≠ new ∨ devLookup (c.words p.frame fdDevId) = none ∨
    close new c = none := by
  by_cases hne : old = new
  · subst hne
    constructor
    · intro hs p hp
      cases hd : devLookup (c.words p.frame fdDevId) with
      | none => exact .inr (.inl rfl)
      | some dev =>
        cases hclose : close old c with
        | none => exact .inr (.inr rfl)
        | some y => exact absurd hs (not_dupSound_of_twice hold hp hd hclose)
    · intro hall
      by_cases hopen : Open c old
      · obtain ⟨p, hp⟩ := Option.isSome_iff_exists.1 ((open_iff hold).1 hopen)
        rcases hall p hp with hc | hd | hnone
        · exact absurd rfl hc
        · exact dupSound_of_unknown hold hp hd
        · intro r c' h
          unfold dup at h
          rw [bind_of_ok hopen, bind_run] at h
          unfold attempt at h
          rw [hnone] at h
          cases h
      · exact dupSound_of_closed hopen
  · exact ⟨fun _ _ _ => .inl hne, fun _ => dupSound_of_apart hold hnew hne⟩

/-- A number behind the table is no descriptor, whatever `dup` has mapped there. -/
theorem not_dupSound_behind {old new : Word} (hnew : (maxFd : Int) ≤ new.toInt)
    (h : dup old new c = some (.ok new, c')) :
    ¬DupSound c old new := by
  intro hs
  obtain ⟨-, hshares⟩ := (hs _ _ h).1 new rfl (Int.le_trans (Int.natCast_nonneg _) hnew)
  have hfound := hshares.found
  unfold Open fdLookup at hfound
  rw [if_pos hnew] at hfound
  cases hfound

/-- **What `dup` promises**: for numbers of the table exactly when they differ or nothing is closed, for any other
number when the old one is not open, and never when it returns a number behind the table. -/
theorem dup_sound_iff (c : Client) (old new : Word) :
    (old.toNat < maxFd → new.toNat < maxFd → (DupSound c old new ↔ ∀ p, c.page (index2fd old) = some p →
      old ≠ new ∨ devLookup (c.words p.frame fdDevId) = none ∨ close new c = none)) ∧
    (¬Open c old → DupSound c old new) ∧
    ((maxFd : Int) ≤ new.toInt → ∀ c', dup old new c = some (.ok new, c') → ¬DupSound c old new) :=
  ⟨fun hold hnew => dupSound_iff hold hnew, dupSound_of_closed, fun hnew _ h => not_dupSound_behind hnew h⟩

theorem dup_sound_full : DupSound fullDisk 0 1 ↔ ∀ p, fullDisk.page (index2fd 0) = some p →
    (0 : Word) ≠ 1 ∨ devLookup (fullDisk.words p.frame fdDevId) = none ∨ close 1 fullDisk = none :=
  (dup_sound_iff fullDisk 0 1).1 (by decide) (by decide)

theorem fullDisk_dup : (dup 0 0 fullDisk).map (fun r => (r.1, (r.2.page (index2fd 0)).isSome)) =
    some (.error (-eInval), false) := by
  decide +kernel

/-- **`dup(0, 0)`** returns an error and has closed the descriptor. -/
theorem dup_sound_fails : ¬DupSound fullDisk 0 0 := by
  intro h
  obtain ⟨⟨r, c'⟩, hr, he⟩ := Option.map_eq_some_iff.1 fullDisk_dup
  have hopen : Open fullDisk 0 := fullDisk_open.fdLookup
  have herr : ∀ v, r = .ok v → v.toInt < 0 := by
    intro v hv
    subst hv
    cases he
  have hpage := ((h r c' hr).2 herr hopen).same (index2fd 0) (.inl rfl)
  have hgone : (c'.page (index2fd 0)).isSome = false := (Prod.mk.injEq .. ▸ he).2
  rw [hpage] at hgone
  cases hgone

end Client
end Mos
