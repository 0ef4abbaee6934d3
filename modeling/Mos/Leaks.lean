import Mos.Truncating
/-!
# Leaks — the pages that `open` and `close` leave mapped

`open` has the descriptor before it asks for the pages of the file, and gives back nothing when one is refused.  `close`
gives back the descriptor in the end, but the data only when the server has answered well.
-/
namespace Mos

open Fallible FilePtr

namespace Client

variable {c c' : Client} {va va' fileid fd i size : Word} {p : Page} {dev : Dev}

/-! ## Entries that come and go -/

theorem Mapped.of_page (h : c'.page va = c.page va) : c'.Mapped va ↔ c.Mapped va := by
  unfold Mapped
  rw [h]

theorem fsipc_mapped {req : Fsreq} {r : Except Int Unit} (h : fsipc req va c = some (r, c')) (hm : c.Mapped va') :
    c'.Mapped va' := by
  rcases (fsipc_page h).2 with hp | ⟨-, -, fr, hp⟩
  · exact (Mapped.of_page (by rw [hp])).2 hm
  · unfold Mapped
    rw [hp]
    split
    · rfl
    · exact hm

theorem mapAll_mapped : ∀ {os : List Word} {c c' : Client} {r : Except Int Unit}, mapAll fileid va os c = some (r, c') →
    c.Mapped va' → c'.Mapped va'
  | [], _, _, _, h, hm => by
    cases h
    exact hm
  | _ :: _, _, _, _, h, hm => by
    rcases bind_eq_some h with ⟨e, he, -⟩ | ⟨a, c₁, ha, h⟩
    · exact fsipc_mapped he hm
    · exact mapAll_mapped h (fsipc_mapped ha hm)

theorem dirtyAll_page : ∀ {os : List Word} {c c' : Client} {r : Except Int Unit}, dirtyAll fileid os c = some (r, c') →
    c'.page = c.page
  | [], _, _, _, h => by
    cases h
    rfl
  | _ :: _, _, _, _, h => by
    rcases bind_eq_some h with ⟨e, he, -⟩ | ⟨a, c₁, ha, h⟩
    · exact fsipc_zero_page he
    · exact (dirtyAll_page h).trans (fsipc_zero_page ha)

theorem memUnmap_mapped {r : Except Int Unit} (h : memUnmap va c = some (r, c')) (hm : c'.Mapped va') :
    c.Mapped va' := by
  obtain ⟨-, ⟨-, hp⟩ | ⟨-, -, rfl⟩⟩ := memUnmap_page h
  · unfold Mapped at hm ⊢
    rw [hp] at hm
    split at hm
    · cases hm
    · exact hm
  · exact hm

theorem unmapAll_some (va : Word) : ∀ (os : List Word) (c : Client), ∃ r c', unmapAll va os c = some (r, c')
  | [], c => ⟨.ok (), c, rfl⟩
  | o :: os, c => by
    unfold unmapAll
    by_cases hva : isIllegalVa (va + o) = true
    · have h : memUnmap (va + o) c = some (.error (-eInval), c) := by
        unfold memUnmap
        rw [if_pos hva]
      exact ⟨_, c, bind_of_error h⟩
    · obtain ⟨c₁, h⟩ := memUnmap_ok (Bool.not_eq_true _ ▸ hva) c
      rw [bind_of_ok h]
      exact unmapAll_some va os c₁

theorem unmapAll_mapped : ∀ {os : List Word} {c c' : Client} {r : Except Int Unit}, unmapAll va os c = some (r, c') →
    c'.Mapped va' → c.Mapped va'
  | [], _, _, _, h, hm => by
    cases h
    exact hm
  | _ :: _, _, _, _, h, hm => by
    rcases bind_eq_some h with ⟨e, he, -⟩ | ⟨a, c₁, ha, h⟩
    · exact memUnmap_mapped he hm
    · exact memUnmap_mapped ha (unmapAll_mapped h hm)

theorem unmapAll_other : ∀ {os : List Word} {c c' : Client} {r : Except Int Unit}, unmapAll va os c = some (r, c') →
    (∀ o ∈ os, ¬Same va' (va + o)) → c'.page va' = c.page va'
  | [], _, _, _, h, _ => by
    cases h
    rfl
  | o :: _, _, _, _, h, hno => by
    have hone : ∀ {r : Except Int Unit} {c₁ c₂ : Client}, memUnmap (va + o) c₁ = some (r, c₂) →
        c₂.page va' = c₁.page va' :=
      fun h => (memUnmap_beside (hno o List.mem_cons_self) _ _ _ h).page
    rcases bind_eq_some h with ⟨e, he, -⟩ | ⟨a, c₁, ha, h⟩
    · exact hone he
    · exact (unmapAll_other h fun x hx => hno x (List.mem_cons_of_mem _ hx)).trans (hone ha)

/-- **A page that is reached is unmapped**: the pages up to it have legal addresses. -/
theorem unmapAll_reached {o : Word} : ∀ {os : List Word} {k : Nat} {c c' : Client} {r : Except Int Unit},
    unmapAll va os c = some (r, c') → os[k]? = some o → (∀ x ∈ os.take (k + 1), isIllegalVa (va + x) = false) →
    Same va' (va + o) → ¬c'.Mapped va'
  | [], _, _, _, _, _, hk, _, _ => by cases hk
  | x :: os, k, c, c', r, h, hk, hlegal, hs => by
    obtain ⟨c₁, ha⟩ := memUnmap_ok (hlegal x (by rw [List.take_succ_cons]; exact List.mem_cons_self)) c
    have h' : unmapAll va os c₁ = some (r, c') := (bind_of_ok ha).symm.trans h
    cases k with
    | zero =>
      obtain rfl : x = o := by simpa using hk
      intro hm
      have hm₁ := unmapAll_mapped h' hm
      obtain ⟨-, ⟨-, hp⟩ | ⟨he, -⟩⟩ := memUnmap_page ha
      · unfold Mapped at hm₁
        rw [hp, if_pos hs] at hm₁
        cases hm₁
      · cases he
    | succ k =>
      refine unmapAll_reached h' (by simpa using hk) (fun y hy => hlegal y ?_) hs
      rw [List.take_succ_cons]
      exact List.mem_cons_of_mem _ hy

/-! ## Opening -/

/-- **Nothing is left** of an `open` that fails. -/
def OpenClean (c : Client) (path : List (BitVec 8)) (mode : Word) : Prop :=
  ∀ e c', openFile path mode c = some (.error e, c') → ∀ va, c'.Mapped va → c.Mapped va

/-- One of the pages is refused. -/
def PageRefused (fileid va : Word) : List Word → Client → Prop
  | [], _ => False
  | o :: os, c => (∃ e c', fsipcMap fileid o (va + o) c = some (.error e, c')) ∨
      ∃ c', fsipcMap fileid o (va + o) c = some (.ok (), c') ∧ PageRefused fileid va os c'

/-- The server opens the file and refuses one of its pages. -/
def OpenRefused (c : Client) (path : List (BitVec 8)) (mode : Word) : Prop :=
  ∃ fd c₁ p, openFd path mode c = some (.ok fd, c₁) ∧ c₁.page fd = some p ∧
    PageRefused (c₁.words p.frame fFileid) (fd2data fd) (pagesOf 0 (c₁.words p.frame fFileSize).toNat) c₁

theorem mapAll_error_iff : ∀ {os : List Word} {c : Client}, (∃ e c', mapAll fileid va os c = some (.error e, c')) ↔
    PageRefused fileid va os c
  | [], c => by
    constructor
    · rintro ⟨e, c', h⟩
      cases h
    · exact False.elim
  | o :: os, c => by
    unfold mapAll PageRefused
    constructor
    · rintro ⟨e, c', h⟩
      rcases bind_eq_some h with ⟨e', he', -⟩ | ⟨a, c₁, ha, h⟩
      · exact .inl ⟨e', c', he'⟩
      · exact .inr ⟨c₁, ha, mapAll_error_iff.1 ⟨e, c', h⟩⟩
    · rintro (⟨e, c', h⟩ | ⟨c₁, ha, h⟩)
      · exact ⟨e, c', bind_of_error h⟩
      · obtain ⟨e, c', h⟩ := mapAll_error_iff.2 h
        exact ⟨e, c', (bind_of_ok ha).trans h⟩

/-- **The descriptor that `open` takes was free**, and a refusal of the server leaves it so. -/
theorem openFd_cases {path : List (BitVec 8)} {mode : Word} {r : Except Int Word}
    (h : openFd path mode c = some (r, c')) :
    (∃ e, r = .error e ∧ c'.page = c.page) ∨ ∃ fd, r = .ok fd ∧ ¬c.Mapped fd := by
  unfold openFd at h
  rw [bind_read] at h
  cases hfd : c.fdAlloc with
  | none =>
    simp only [id, hfd] at h
    cases h
    exact .inl ⟨_, rfl, rfl⟩
  | some fd =>
    simp only [id, hfd] at h
    have hfree : ¬c.Mapped fd := by simpa using List.find?_some hfd
    rcases bind_eq_some h with ⟨e, he, rfl⟩ | ⟨a, c₁, -, h⟩
    · refine .inl ⟨e, rfl, ?_⟩
      unfold fsipcOpen at he
      split at he
      · cases he
        rfl
      · rcases (fsipc_page he).2 with hp | ⟨hok, -⟩
        · exact hp
        · cases hok
    · cases h
      exact .inr ⟨fd, rfl, hfree⟩

theorem openClean_iff (path : List (BitVec 8)) (mode : Word) : OpenClean c path mode ↔ ¬OpenRefused c path mode := by
  constructor
  · rintro hclean ⟨fd, c₁, p, hfd, hp, hrefused⟩
    obtain ⟨e, c', hmap⟩ := mapAll_error_iff.2 hrefused
    have hopen : openFile path mode c = some (.error e, c') := by
      unfold openFile
      rw [bind_of_ok hfd, bind_of_ok (field_open hp _), bind_of_ok (field_open hp _)]
      exact bind_of_error hmap
    rcases openFd_cases hfd with ⟨e, he, -⟩ | ⟨fd', hfd', hfree⟩
    · cases he
    cases hfd'
    refine hfree (hclean e c' hopen fd (mapAll_mapped hmap ?_))
    unfold Mapped
    rw [hp]
    rfl
  · intro hno e c' h va hm
    unfold openFile at h
    rcases bind_eq_some h with ⟨e', he', -⟩ | ⟨fd, c₁, hfd, h⟩
    · rcases openFd_cases he' with ⟨e'', -, hp⟩ | ⟨fd, hfd, -⟩
      · exact (Mapped.of_page (by rw [hp])).1 hm
      · cases hfd
    have hpage : ∃ p, c₁.page fd = some p := by
      cases hp : c₁.page fd with
      | some p => exact ⟨p, rfl⟩
      | none =>
        have hfield : field fd fFileSize c₁ = none := by
          unfold field
          rw [hp]
          rfl
        rw [bind_run, hfield] at h
        cases h
    obtain ⟨p, hp⟩ := hpage
    rw [bind_of_ok (field_open hp _), bind_of_ok (field_open hp _)] at h
    rcases bind_eq_some h with ⟨e', he', -⟩ | ⟨a, c₂, -, h⟩
    · exact absurd ⟨fd, c₁, p, hfd, hp, mapAll_error_iff.1 ⟨e', c', he'⟩⟩ hno
    · cases h

/-! ## Closing -/

/-- No page of the data of the descriptor is mapped. -/
def NoData (c : Client) (i : Word) : Prop := ∀ o : Word, o.toNat < pdmap.toNat → ¬c.Mapped (index2data i + o)

/-- **Nothing is left** of a descriptor that is closed. -/
def CloseClean (c : Client) (i : Word) : Prop :=
  ∀ r c', close i c = some (r, c') → ¬c'.Mapped (index2fd i) ∧ NoData c' i

/-- The requests of `file_close` are granted. -/
def CloseGranted (c : Client) (fileid size : Word) : Prop :=
  ∃ c₁ c₂, dirtyAll fileid (pagesOf 0 size.toNat) c = some (.ok (), c₁) ∧ fsipcClose fileid c₁ = some (.ok (), c₂)

/-- One of them is refused. -/
def CloseRefused (c : Client) (fileid size : Word) : Prop :=
  (∃ e c₁, dirtyAll fileid (pagesOf 0 size.toNat) c = some (.error e, c₁)) ∨
    ∃ e c₁ c₂, dirtyAll fileid (pagesOf 0 size.toNat) c = some (.ok (), c₁) ∧ fsipcClose fileid c₁ = some (.error e, c₂)

/-- **When `close` gives back the data**, for each of the devices: the data of a file has no page behind its size, and
no page at all when a request is refused; that of a pipe is one page, and the console has none. -/
def DataGoes (c : Client) (i : Word) (p : Page) : Dev → Prop
  | .file =>
    let fileid := c.words p.frame fFileid
    let size := c.words p.frame fFileSize
    (CloseRefused c fileid size → NoData c i) ∧
      (CloseGranted c fileid size → ∀ o : Word, o.toNat < pdmap.toNat → c.Mapped (index2data i + o) →
        o.toNat / pageSize < (size.toNat + (pageSize - 1)) / pageSize)
  | .cons => NoData c i
  | .pipe => ∀ o : Word, o.toNat < pdmap.toNat → c.Mapped (index2data i + o) → o.toNat < pageSize

theorem pdmap_toNat : pdmap.toNat = 0x400000 := rfl

theorem legal_fd (hi : i.toNat < maxFd) : isIllegalVa (index2fd i) = false := by
  have hm : maxFd = 32 := rfl
  have hlo : utemp.toNat = 0x3fe000 := rfl
  have hhi : utop.toNat = 0x7f400000 := rfl
  unfold isIllegalVa
  rw [Bool.or_eq_false_iff, decide_eq_false_iff_not, decide_eq_false_iff_not, ge_iff_le, BitVec.lt_def, BitVec.le_def,
    index2fd_toNat hi, hlo, hhi]
  omega

theorem legal_data (hi : i.toNat < maxFd) {o : Word} (ho : o.toNat < 0x400000) :
    isIllegalVa (index2data i + o) = false := by
  have hm : maxFd = 32 := rfl
  have hlo : utemp.toNat = 0x3fe000 := rfl
  have hhi : utop.toNat = 0x7f400000 := rfl
  unfold isIllegalVa
  rw [Bool.or_eq_false_iff, decide_eq_false_iff_not, decide_eq_false_iff_not, ge_iff_le, BitVec.lt_def, BitVec.le_def,
    BitVec.toNat_add, index2data_toNat hi, hlo, hhi]
  omega

theorem same_data (hi : i.toNat < maxFd) {o o' : Word} (ho : o.toNat < 0x400000) (ho' : o'.toNat < 0x400000) :
    Same (index2data i + o) (index2data i + o') ↔ o.toNat / 4096 = o'.toNat / 4096 := by
  unfold Same
  rw [pdx_data hi ho, pdx_data hi ho', ptx_data hi ho, ptx_data hi ho']
  exact and_iff_right rfl

/-- What `close` does with a descriptor that is there: the descriptor goes in any case. -/
theorem close_run (hi : i.toNat < maxFd) (hp : c.page (index2fd i) = some p)
    (hd : devLookup (c.words p.frame fdDevId) = some dev) : close i c = (devClose dev (index2fd i) c).bind fun r =>
      (memUnmap (index2fd i) r.2).map fun r' => (r.1, r'.2) := by
  unfold close
  rw [bind_of_ok (fdLookup_open hi hp), bind_of_ok (field_open hp _), hd]
  dsimp only
  cases hdev : devClose dev (index2fd i) c with
  | none =>
    rw [bind_run]
    unfold attempt
    rw [hdev]
    rfl
  | some y =>
    obtain ⟨r, c₁⟩ := y
    obtain ⟨c₂, h₂⟩ := memUnmap_ok (legal_fd hi) c₁
    have hor : orPanic (memUnmap (index2fd i)) c₁ = some (.ok (), c₂) := by
      unfold orPanic
      rw [h₂]
      rfl
    rw [bind_attempt hdev, bind_of_ok hor, Option.bind_some, h₂]
    cases r with
    | ok a => rfl
    | error e => rfl

theorem close_inv (hi : i.toNat < maxFd) (hp : c.page (index2fd i) = some p)
    (hd : devLookup (c.words p.frame fdDevId) = some dev) {r : Except Int Unit} (h : close i c = some (r, c')) :
    ∃ c₁, devClose dev (index2fd i) c = some (r, c₁) ∧ memUnmap (index2fd i) c₁ = some (.ok (), c') := by
  rw [close_run hi hp hd] at h
  obtain ⟨⟨r₁, c₁⟩, hdev, h⟩ := Option.bind_eq_some_iff.1 h
  obtain ⟨⟨r₂, c₂⟩, h₂, hr⟩ := Option.map_eq_some_iff.1 h
  cases hr
  refine ⟨c₁, hdev, ?_⟩
  obtain ⟨-, ⟨hok, -⟩ | ⟨-, hbad, -⟩⟩ := memUnmap_page h₂
  · rw [h₂, hok]
  · rw [legal_fd hi] at hbad
    cases hbad

theorem unmapped_fd {c₁ : Client} (h : memUnmap va c₁ = some (.ok (), c')) : ¬c'.Mapped va := by
  obtain ⟨-, ⟨-, hp⟩ | ⟨he, -⟩⟩ := memUnmap_page h
  · unfold Mapped
    rw [hp, if_pos ⟨rfl, rfl⟩]
    simp
  · cases he

theorem close_eq (hi : i.toNat < maxFd) (hp : c.page (index2fd i) = some p)
    (hd : devLookup (c.words p.frame fdDevId) = some dev) :
    CloseClean c i ↔ ∀ r c₁, devClose dev (index2fd i) c = some (r, c₁) → NoData c₁ i := by
  have hdata : ∀ {c₁ c₂}, memUnmap (index2fd i) c₁ = some (.ok (), c₂) → (NoData c₂ i ↔ NoData c₁ i) := by
    intro c₁ c₂ h
    refine forall_congr' fun o => forall_congr' fun ho => not_congr (Mapped.of_page ?_)
    have hb : Beside (index2data i + o) c₁ c₂ :=
      memUnmap_beside (fun hs => not_same_data hi ho ⟨hs.1.symm, hs.2.symm⟩) _ _ _ h
    exact hb.page
  constructor
  · intro hclean r c₁ h
    obtain ⟨c₂, h₂⟩ := memUnmap_ok (legal_fd hi) c₁
    have hclose : close i c = some (r, c₂) := by
      rw [close_run hi hp hd, h, Option.bind_some, h₂]
      rfl
    exact (hdata h₂).1 (hclean r c₂ hclose).2
  · intro hall r c' h
    obtain ⟨c₁, hdev, h₂⟩ := close_inv hi hp hd h
    exact ⟨unmapped_fd h₂, (hdata h₂).2 (hall r c₁ hdev)⟩

theorem pages_get {k : Nat} (hk : k < (size.toNat + (pageSize - 1)) / pageSize) :
    (pagesOf 0 size.toNat)[k]? = some (BitVec.ofNat 32 (k * pageSize)) := by
  have hlt : k < (size.toNat - 0 + pageSize - 1) / pageSize := hk
  unfold pagesOf
  rw [List.getElem?_map, List.getElem?_range hlt, Option.map_some, Nat.zero_add]

theorem pages_take {k : Nat} {x : Word} (hk : k < 1024) (hx : x ∈ (pagesOf 0 size.toNat).take (k + 1)) :
    x.toNat < 0x400000 := by
  have hp : pageSize = 4096 := rfl
  unfold pagesOf at hx
  rw [← List.map_take] at hx
  obtain ⟨n, hn, rfl⟩ := List.mem_map.1 hx
  rw [List.take_range, List.mem_range] at hn
  rw [BitVec.toNat_ofNat, hp]
  omega

/-- The pages of a file that is not larger than a region are in the region. -/
theorem pages_mem {x : Word} (hs : (size.toNat + (pageSize - 1)) / pageSize ≤ 1024) (hx : x ∈ pagesOf 0 size.toNat) :
    x.toNat < 0x400000 ∧ x.toNat / 4096 < (size.toNat + (pageSize - 1)) / pageSize := by
  have hp : pageSize = 4096 := rfl
  obtain ⟨n, hn, rfl⟩ := List.mem_map.1 hx
  rw [List.mem_range] at hn
  have hn' : n < (size.toNat + (pageSize - 1)) / pageSize := hn
  rw [BitVec.toNat_ofNat, hp]
  rw [hp] at hn' hs
  omega

theorem fileClose_eq (hp : c.page (index2fd i) = some p) : fileClose (index2fd i) c =
    (dirtyAll (c.words p.frame fFileid) (pagesOf 0 (c.words p.frame fFileSize).toNat) >>= fun _ =>
      fsipcClose (c.words p.frame fFileid) >>= fun _ =>
        unmapAll (fd2data (index2fd i)) (pagesOf 0 (c.words p.frame fFileSize).toNat)) c := by
  unfold fileClose
  rw [bind_of_ok (field_open hp _), bind_of_ok (field_open hp _)]

theorem noData_of_page (h : c'.page = c.page) : NoData c' i ↔ NoData c i :=
  forall_congr' fun _ => forall_congr' fun _ => not_congr (Mapped.of_page (by rw [h]))

/-- **The data of a file**, when `file_close` comes back. -/
theorem fileClose_data (hi : i.toNat < maxFd) (hp : c.page (index2fd i) = some p) :
    (∀ r c₁, fileClose (index2fd i) c = some (r, c₁) → NoData c₁ i) ↔ DataGoes c i p .file := by
  have hps : pageSize = 4096 := rfl
  have hpd := pdmap_toNat
  rw [fileClose_eq hp, fd2data_index2fd hi]
  unfold DataGoes
  dsimp only
  generalize c.words p.frame fFileid = fileid
  generalize c.words p.frame fFileSize = size
  constructor
  · intro hall
    refine ⟨?_, ?_⟩
    · rintro (⟨e, c₁, he⟩ | ⟨e, c₁, c₂, ha, he⟩)
      · exact (noData_of_page (dirtyAll_page he)).1 (hall _ c₁ (bind_of_error he))
      · exact (noData_of_page ((fsipc_zero_page he).trans (dirtyAll_page ha))).1
          (hall _ c₂ ((bind_of_ok ha).trans (bind_of_error he)))
    · rintro ⟨c₁, c₂, ha, hb⟩ o ho hm
      obtain ⟨r, c₃, h₃⟩ := unmapAll_some (index2data i) (pagesOf 0 size.toNat) c₂
      have hno := hall r c₃ ((bind_of_ok ha).trans ((bind_of_ok hb).trans h₃)) o ho
      by_contra hout
      rw [hpd] at ho
      have hsmall : (size.toNat + (pageSize - 1)) / pageSize ≤ 1024 := by
        rw [hps] at hout ⊢
        omega
      refine hno ((Mapped.of_page ?_).2 hm)
      have hother : c₃.page (index2data i + o) = c₂.page (index2data i + o) := by
        refine unmapAll_other h₃ fun x hx hs => ?_
        obtain ⟨hx₁, hx₂⟩ := pages_mem hsmall hx
        have := (same_data hi ho hx₁).1 hs
        rw [hps] at hout hx₂
        omega
      rw [hother, fsipc_zero_page hb, dirtyAll_page ha]
  · rintro ⟨hrefused, hgranted⟩ r c₁ h
    rcases bind_eq_some h with ⟨e, he, -⟩ | ⟨a, c₂, ha, h⟩
    · exact (noData_of_page (dirtyAll_page he)).2 (hrefused (.inl ⟨e, c₁, he⟩))
    rcases bind_eq_some h with ⟨e, he, -⟩ | ⟨b, c₃, hb, h⟩
    · exact (noData_of_page ((fsipc_zero_page he).trans (dirtyAll_page ha))).2 (hrefused (.inr ⟨e, c₂, c₁, ha, he⟩))
    intro o ho hm
    have hpage : c₃.page = c.page := (fsipc_zero_page hb).trans (dirtyAll_page ha)
    have hbelow := hgranted ⟨c₂, c₃, ha, hb⟩ o ho ((Mapped.of_page (by rw [hpage])).1 (unmapAll_mapped h hm))
    rw [hpd] at ho
    have hk : o.toNat / pageSize < 1024 := by
      rw [hps]
      omega
    refine unmapAll_reached h (pages_get hbelow) (fun x hx => legal_data hi (pages_take hk hx)) ?_ hm
    have hoff : (BitVec.ofNat 32 (o.toNat / pageSize * pageSize)).toNat = o.toNat / 4096 * 4096 := by
      rw [BitVec.toNat_ofNat, hps]
      omega
    refine (same_data hi ho ?_).2 ?_
    · rw [hoff]
      omega
    · rw [hoff]
      omega

/-- **The data of a pipe.** -/
theorem pipeClose_data (hi : i.toNat < maxFd) :
    (∀ r c₁, pipeClose (index2fd i) c = some (r, c₁) → NoData c₁ i) ↔ DataGoes c i p .pipe := by
  have hps : pageSize = 4096 := rfl
  have hpd := pdmap_toNat
  have hzero : index2data i = index2data i + 0 := (BitVec.add_zero _).symm
  obtain ⟨c₁, h₁⟩ := memUnmap_ok (legal_fd hi) c
  have hlegal : isIllegalVa (index2data i) = false := by
    rw [hzero]
    exact legal_data hi (by decide)
  obtain ⟨c₂, h₂⟩ := memUnmap_ok hlegal c₁
  have hrun : pipeClose (index2fd i) c = some (.ok (), c₂) := by
    unfold pipeClose
    rw [bind_attempt h₁, fd2data_index2fd hi, bind_attempt h₂]
    rfl
  have hpage : ∀ o : Word, o.toNat < pdmap.toNat → (c₂.Mapped (index2data i + o) ↔
      c.Mapped (index2data i + o) ∧ ¬o.toNat < pageSize) := by
    intro o ho
    obtain ⟨-, ⟨-, hp₁⟩ | ⟨he, -⟩⟩ := memUnmap_page h₁
    · obtain ⟨-, ⟨-, hp₂⟩ | ⟨he, -⟩⟩ := memUnmap_page h₂
      · have hfd : ¬Same (index2data i + o) (index2fd i) := fun hs => not_same_data hi ho ⟨hs.1.symm, hs.2.symm⟩
        have hdata : Same (index2data i + o) (index2data i) ↔ o.toNat < pageSize := by
          have h0 : (0 : Word).toNat = 0 := rfl
          rw [hpd] at ho
          conv => lhs; rw [show Same (index2data i + o) (index2data i) = Same (index2data i + o)
            (index2data i + 0) by rw [← hzero]]
          rw [same_data hi ho (by decide), h0, hps]
          omega
        unfold Mapped
        rw [hp₂, hp₁, if_neg hfd]
        by_cases hs : Same (index2data i + o) (index2data i)
        · rw [if_pos hs]
          constructor
          · intro h
            cases h
          · exact fun h => absurd (hdata.1 hs) h.2
        · rw [if_neg hs]
          exact (and_iff_left (fun h => hs (hdata.2 h))).symm
      · cases he
    · cases he
  constructor
  · intro hall o ho hm
    by_contra hout
    exact hall _ c₂ hrun o ho ((hpage o ho).2 ⟨hm, hout⟩)
  · intro hgoes r c₃ h o ho hm
    cases hrun.symm.trans h
    obtain ⟨hm', hout⟩ := (hpage o ho).1 hm
    exact hout (hgoes o ho hm')

/-- **When `close` leaves nothing behind.** -/
theorem closeClean_iff (hi : i.toNat < maxFd) (hp : c.page (index2fd i) = some p) :
    CloseClean c i ↔ ∃ dev, devLookup (c.words p.frame fdDevId) = some dev ∧ DataGoes c i p dev := by
  cases hd : devLookup (c.words p.frame fdDevId) with
  | none =>
    have hclose : close i c = some (.error (-eInval), c) := by
      unfold close
      rw [bind_of_ok (fdLookup_open hi hp), bind_of_ok (field_open hp _), hd]
      rfl
    constructor
    · intro hclean
      refine absurd ?_ (hclean _ c hclose).1
      unfold Mapped
      rw [hp]
      rfl
    · rintro ⟨dev, hdev, -⟩
      cases hdev
  | some dev =>
    have hdev : (∀ r c₁, devClose dev (index2fd i) c = some (r, c₁) → NoData c₁ i) ↔ DataGoes c i p dev := by
      cases dev with
      | file => exact fileClose_data hi hp
      | pipe => exact pipeClose_data hi
      | cons =>
        constructor
        · exact fun hall => hall _ c rfl
        · intro hno r c₁ h
          cases h
          exact hno
    rw [close_eq hi hp hd, hdev]
    constructor
    · exact fun h => ⟨dev, rfl, h⟩
    · rintro ⟨dev', hd', h⟩
      cases hd'
      exact h

/-- **What `open` and `close` leave mapped.** -/
theorem nothing_left_iff (hi : i.toNat < maxFd) (hp : c.page (index2fd i) = some p) (path : List (BitVec 8))
    (mode : Word) :
    (OpenClean c path mode ↔ ¬OpenRefused c path mode) ∧
      (CloseClean c i ↔ ∃ dev, devLookup (c.words p.frame fdDevId) = some dev ∧ DataGoes c i p dev) :=
  ⟨openClean_iff path mode, closeClean_iff hi hp⟩

/-! ## A file truncated meanwhile -/

/-- Block 4 is free again. -/
def truncatedMem (a : Nat) : Word :=
  if a = blockWords + 1 then 5 else if a = 2 * blockWords then 0x10 else fullMem a

/-- A client that has the file `a` open as descriptor 0, from when it had one byte, in block 4. -/
def truncated : Client where
  srv :=
    { fs := { mem := truncatedMem, mapped := fun b => decide (b < 5), dirty := fun _ => false, disk := truncatedMem,
              super := true, bitmap := true, pages := [] }
      oFile := fun _ => 3 * blockWords
      oMode := fun _ => 2
      oFf := fun _ w => if w = fdDevId then devfileId else if w = fdOmode then 2 else if w = fFileSize then 1 else 0 }
  refs := fun k => if k = 0 then 2 else 0
  tables := fun d =>
    let perm := pteD ||| pteLibrary ||| pteCCacheable ||| pteV
    if d = 0x17F then some fun t => if t = 0 then some ⟨.openFile 0, perm⟩ else none
    else if d = 0x180 then some fun t => if t = 0 then some ⟨.block 4, perm⟩ else none
    else none
  mem := fun _ _ => 0
  supply := []

/-- The page of descriptor 0 of `fullDisk`. -/
def fullPage : Page := ⟨.openFile 0, pteD ||| pteLibrary ||| pteCCacheable ||| pteV⟩

theorem nothing_left_full : (OpenClean fullDisk [0x61] 0 ↔ ¬OpenRefused fullDisk [0x61] 0) ∧
    (CloseClean fullDisk 0 ↔ ∃ dev, devLookup (fullDisk.words fullPage.frame fdDevId) = some dev ∧
      DataGoes fullDisk 0 fullPage dev) :=
  nothing_left_iff (i := 0) (p := fullPage) (by decide) rfl [0x61] 0

theorem truncated_close : (close 0 truncated).map (fun r => (r.1, (r.2.page (index2data 0)).isSome)) =
    some (.error (-eNotFound), true) := by
  decide

/-- **Closing a file that was truncated through another descriptor**: the page cannot be marked dirty, and stays. -/
theorem nothing_left_fails : ¬CloseClean truncated 0 := by
  intro h
  obtain ⟨⟨r, c'⟩, hr, he⟩ := Option.map_eq_some_iff.1 truncated_close
  have hzero : index2data 0 + 0 = index2data 0 := BitVec.add_zero _
  refine (h r c' hr).2 0 (by decide) ?_
  unfold Mapped
  rw [hzero]
  exact (Prod.mk.injEq .. ▸ he).2

end Client
end Mos
