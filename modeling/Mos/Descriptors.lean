import Mos.Client
/-!
# Descriptors — where the pages of a descriptor are

The descriptors `0..MAXFD` have their pages under one page table, and each has a page table of its own for its data. 
What is done to the data of a descriptor, and what is asked of the server meanwhile, leaves the descriptor as it is.
-/
namespace Mos

open Fallible FilePtr

namespace Client

variable {c c' : Client} {va fd : Word} {i : Word}

/-! ## Addresses -/

theorem index2fd_toNat (hi : i.toNat < maxFd) : (index2fd i).toNat = 0x5FC00000 + i.toNat * 4096 := by
  have hm : maxFd = 32 := rfl
  have ht : fdTable.toNat = 0x5FC00000 := rfl
  have hp : ptmap.toNat = 4096 := rfl
  unfold index2fd
  rw [BitVec.toNat_add, BitVec.toNat_mul, ht, hp]
  omega

theorem fd2num_index2fd (hi : i.toNat < maxFd) : fd2num (index2fd i) = i := by
  have hm : maxFd = 32 := rfl
  have ht : fdTable.toNat = 0x5FC00000 := rfl
  have hp : ptmap.toNat = 4096 := rfl
  apply BitVec.eq_of_toNat_eq
  unfold fd2num
  rw [BitVec.toNat_udiv, BitVec.toNat_sub, index2fd_toNat hi, ht, hp]
  omega

theorem fd2data_index2fd (hi : i.toNat < maxFd) : fd2data (index2fd i) = index2data i := by
  unfold fd2data
  rw [fd2num_index2fd hi]

theorem index2data_toNat (hi : i.toNat < maxFd) : (index2data i).toNat = 0x60000000 + i.toNat * 0x400000 := by
  have hm : maxFd = 32 := rfl
  have ht : fileBase.toNat = 0x60000000 := rfl
  have hp : pdmap.toNat = 0x400000 := rfl
  unfold index2data
  rw [BitVec.toNat_add, BitVec.toNat_mul, ht, hp]
  omega

theorem pdx_fd (hi : i.toNat < maxFd) : pdx (index2fd i) = 0x17F := by
  have hm : maxFd = 32 := rfl
  rw [pdx_eq, index2fd_toNat hi]
  omega

theorem ptx_fd (hi : i.toNat < maxFd) : ptx (index2fd i) = i.toNat := by
  have hm : maxFd = 32 := rfl
  rw [ptx_eq, index2fd_toNat hi]
  omega

theorem pdx_data (hi : i.toNat < maxFd) {o : Word} (ho : o.toNat < 0x400000) :
    pdx (index2data i + o) = 0x180 + i.toNat := by
  have hm : maxFd = 32 := rfl
  rw [pdx_eq, BitVec.toNat_add, index2data_toNat hi]
  omega

theorem ptx_data (hi : i.toNat < maxFd) {o : Word} (ho : o.toNat < 0x400000) :
    ptx (index2data i + o) = o.toNat / 4096 := by
  have hm : maxFd = 32 := rfl
  rw [ptx_eq, BitVec.toNat_add, index2data_toNat hi]
  omega

/-! ## Entries -/

/-- The addresses are in one page. -/
def Same (va va' : Word) : Prop := pdx va = pdx va' ∧ ptx va = ptx va'

instance (va va' : Word) : Decidable (Same va va') := inferInstanceAs (Decidable (_ ∧ _))

theorem page_setPage {t : Nat → Option Page} {new : Option Page} (va' : Word) : (c.setPage va t new).page va' =
    if Same va' va then new else if pdx va' = pdx va then t (ptx va') else c.page va' := by
  unfold page setPage
  show (Function.update c.tables (pdx va) _ (pdx va')).bind _ = _
  rw [Function.update_apply]
  by_cases hd : pdx va' = pdx va
  · rw [if_pos hd, if_pos hd, Option.bind_some, Function.update_apply]
    by_cases ht : ptx va' = ptx va
    · have hs : Same va' va := ⟨hd, ht⟩
      rw [if_pos ht, if_pos hs]
    · have hs : ¬Same va' va := fun h => ht h.2
      rw [if_neg ht, if_neg hs]
  · have hs : ¬Same va' va := fun h => hd h.1
    rw [if_neg hd, if_neg hd, if_neg hs]

theorem page_of_table {t : Nat → Option Page} (h : c.tables (pdx va) = some t) {va' : Word} (hd : pdx va' = pdx va) :
    c.page va' = t (ptx va') := by
  unfold page
  rw [hd, h]
  rfl

theorem page_setPage_table {t : Nat → Option Page} {new : Option Page} (h : c.tables (pdx va) = some t) (va' : Word) :
    (c.setPage va t new).page va' = if Same va' va then new else c.page va' := by
  rw [page_setPage]
  split
  · rfl
  · split
    · rename_i hd
      exact (page_of_table h hd).symm
    · rfl

theorem page_setPage_fresh {new : Option Page} (h : c.tables (pdx va) = none) (va' : Word) :
    (c.setPage va (fun _ => none) new).page va' = if Same va' va then new else c.page va' := by
  rw [page_setPage]
  split
  · rfl
  · split
    · rename_i hd
      unfold page
      rw [hd, h]
      rfl
    · rfl

theorem page_emptyTable {d : Nat} (h : c.tables d = none) (tables : Nat → Option (Nat → Option Page))
    (ht : tables = Function.update c.tables d (some fun _ => none)) (supply : List Bool) :
    Client.page { c with tables := tables, supply := supply } = c.page := by
  funext va
  unfold page
  dsimp only
  rw [ht, Function.update_apply]
  split
  · rename_i hd
    rw [hd, h]
    rfl
  · rfl

/-- **What `vpt` reads** is the entry, and the entries stay. -/
theorem vpt_eq_some {r : Except Int (Option Page)} (h : vpt va c = some (r, c')) :
    r = .ok (c.page va) ∧ c'.page = c.page ∧ (c.Mapped va → c' = c) := by
  unfold vpt at h
  split at h
  · rename_i t ht
    cases h
    exact ⟨by rw [page_of_table ht rfl], rfl, fun _ => rfl⟩
  · rename_i ht
    have hnone : c.page va = none := by
      unfold page
      rw [ht]
      rfl
    split at h
    · cases h
      refine ⟨by rw [hnone], page_emptyTable ht _ rfl _, fun hm => ?_⟩
      unfold Mapped at hm
      rw [hnone] at hm
      cases hm
    · cases h

theorem vpt_table (h : (c.tables (pdx va)).isSome) : vpt va c = some (.ok (c.page va), c) := by
  obtain ⟨t, ht⟩ := Option.isSome_iff_exists.1 h
  unfold vpt
  rw [page_of_table ht rfl, ht]

theorem table_of_page {p : Page} (h : c.page va = some p) : (c.tables (pdx va)).isSome := by
  obtain ⟨t, ht, -⟩ := Option.bind_eq_some_iff.1 h
  rw [ht]
  rfl

/-- **What `page_insert` does to the entries.** -/
theorem pageInsert_page {fr : Frame} {perm : Word} {r : Except Int Unit}
    (h : Client.pageInsert va fr perm c = some (r, c')) :
    c'.srv = c.srv ∧ ((r = .ok () ∧ ∀ va', c'.page va' =
      if Same va' va then some ⟨fr, perm ||| pteCCacheable ||| pteV⟩ else c.page va') ∨
      (r = .error (-eNoMem) ∧ c.tables (pdx va) = none ∧ c'.page = c.page)) := by
  unfold Client.pageInsert at h
  dsimp only at h
  split at h
  · rename_i t ht
    cases h
    exact ⟨rfl, .inl ⟨rfl, page_setPage_table ht⟩⟩
  · rename_i ht
    split at h
    · cases h
      exact ⟨rfl, .inl ⟨rfl, page_setPage_fresh (c := { c with supply := c.supply.tail }) ht⟩⟩
    · cases h
      exact ⟨rfl, .inr ⟨rfl, ht, rfl⟩⟩

/-- **What `syscall_mem_unmap` does to the entries.** -/
theorem memUnmap_page {r : Except Int Unit} (h : memUnmap va c = some (r, c')) :
    c'.srv = c.srv ∧ ((r = .ok () ∧ ∀ va', c'.page va' = if Same va' va then none else c.page va') ∨
      (r = .error (-eInval) ∧ isIllegalVa va = true ∧ c' = c)) := by
  unfold memUnmap at h
  split at h
  · rename_i hva
    cases h
    exact ⟨rfl, .inr ⟨rfl, hva, rfl⟩⟩
  · split at h
    · rename_i ht
      cases h
      refine ⟨rfl, .inl ⟨rfl, fun va' => ?_⟩⟩
      split
      · rename_i hs
        unfold page
        rw [hs.1, ht]
        rfl
      · rfl
    · rename_i t ht
      cases h
      exact ⟨rfl, .inl ⟨rfl, page_setPage_table ht⟩⟩

theorem memUnmap_ok (hva : isIllegalVa va = false) (c : Client) : ∃ c', memUnmap va c = some (.ok (), c') := by
  unfold memUnmap
  rw [if_neg (by simp [hva])]
  split
  · exact ⟨c, rfl⟩
  · exact ⟨_, rfl⟩

/-! ## Requests -/

/-- The pages of the open files have the same words. -/
def SameFiles (s s' : Server) : Prop := s'.oFf = s.oFf

theorem SameFiles.refl (s : Server) : SameFiles s s := rfl

theorem SameFiles.trans (a b c : Server) (h : SameFiles a b) (h' : SameFiles b c) : SameFiles a c :=
  Eq.trans h' h

theorem onFs_sameFiles {α : Type} (x : FsM α) : Relates SameFiles (Serv.onFs x) := by
  intro s r s' h
  obtain ⟨y, -, hy⟩ := Option.map_eq_some_iff.1 h
  cases hy
  rfl

theorem openLookup_sameFiles (refs : Nat → Nat) (fileid : Word) : Relates SameFiles (Serv.openLookup refs fileid) := by
  unfold Serv.openLookup
  exact Relates.ite (fun _ => Relates.fail SameFiles.refl _) fun _ =>
    Relates.ite (fun _ => Relates.fail SameFiles.refl _) fun _ => Relates.ret SameFiles.refl _

theorem onOpen_sameFiles (refs : Nat → Nat) (fileid : Word) (op : Nat → FsM ReplyPage) :
    Relates SameFiles (Serv.onOpen refs fileid op) := by
  refine Relates.bind SameFiles.trans (Relates.attempt ?_) fun r => ?_
  · refine Relates.bind SameFiles.trans (openLookup_sameFiles refs fileid) fun i => ?_
    refine Relates.bind SameFiles.trans (Relates.read SameFiles.refl _) fun s => ?_
    exact Relates.bind SameFiles.trans (onFs_sameFiles _) fun page => Relates.ret SameFiles.refl _
  · cases r with
    | ok a => exact Relates.ret SameFiles.refl _
    | error e => exact Relates.ret SameFiles.refl _

theorem serveTable_sameFiles {req : Fsreq} {w : Word} (hreq : req.fileid = some w) (refs : Nat → Nat) :
    Relates SameFiles (serveTable refs req) := by
  unfold serveTable
  cases req with
  | map fileid offset =>
    dsimp only
    unfold Serv.serveMap
    exact onOpen_sameFiles refs fileid _
  | setSize fileid size =>
    dsimp only
    unfold Serv.serveSetSize
    exact onOpen_sameFiles refs fileid _
  | close fileid =>
    dsimp only
    unfold Serv.serveClose
    exact onOpen_sameFiles refs fileid _
  | dirty fileid offset =>
    dsimp only
    unfold Serv.serveDirty
    exact onOpen_sameFiles refs fileid _
  | openFile _ _ => cases hreq
  | remove _ => cases hreq
  | sync => cases hreq

/-- **What a request does to the entries**: a page comes to `dstva`, or nothing changes. -/
theorem fsipc_page {req : Fsreq} {dstva : Word} {r : Except Int Unit} (h : fsipc req dstva c = some (r, c')) :
    (∃ refs' s' y, serveTable c.refs req c.srv = some (y, s') ∧ c'.srv = s' ∧ refs' = c'.refs) ∧
      (c'.page = c.page ∨ r = .ok () ∧ dstva ≠ 0 ∧ ∃ fr, ∀ va', c'.page va' =
        if Same va' dstva then some ⟨fr, pteD ||| pteLibrary ||| pteCCacheable ||| pteV⟩ else c.page va') := by
  unfold fsipc at h
  split at h
  · cases h
  · obtain ⟨⟨y, s'⟩, hs, h⟩ := Option.bind_eq_some_iff.1 h
    dsimp only at h
    cases y with
    | error e => cases h
    | ok reply =>
      dsimp only at h
      split at h
      · cases h
        exact ⟨⟨_, _, _, hs, rfl, rfl⟩, .inl rfl⟩
      · split at h
        · cases h
          exact ⟨⟨_, _, _, hs, rfl, rfl⟩, .inl rfl⟩
        · rename_i hne
          split at h
          · cases h
            exact ⟨⟨_, _, _, hs, rfl, rfl⟩, .inl rfl⟩
          · rename_i fr hfr
            obtain ⟨⟨y₁, c₁⟩, hins, hy⟩ := Option.bind_eq_some_iff.1 h
            obtain ⟨hsrv, hpage⟩ := pageInsert_page hins
            cases y₁ with
            | error e => cases hy
            | ok u =>
              cases hy
              rcases hpage with ⟨-, hp⟩ | ⟨he, -⟩
              · exact ⟨⟨_, _, _, hs, hsrv, rfl⟩, .inr ⟨rfl, hne, fr, hp⟩⟩
              · cases he

/-! ## The descriptor stays -/

/-- The page of the descriptor and the words of the open files are as before. -/
structure Beside (fd : Word) (c c' : Client) : Prop where
  page : c'.page fd = c.page fd
  words : c'.srv.oFf = c.srv.oFf

namespace Beside

theorem refl (fd : Word) (c : Client) : Beside fd c c := ⟨rfl, rfl⟩

theorem trans {a b c : Client} (h : Beside fd a b) (h' : Beside fd b c) : Beside fd a c :=
  ⟨h'.page.trans h.page, h'.words.trans h.words⟩

theorem field {j w : Nat} {p : Page} (h : Beside fd c c') (hp : c.page fd = some p) (hj : p.frame = .openFile j) :
    Client.field fd w c' = (Client.field fd w c).map fun r => (r.1, c') := by
  unfold Client.field
  rw [h.page, hp, Option.map_some, Option.map_some, Option.map_some, hj]
  show some (Except.ok (c'.srv.oFf j w), c') = some (Except.ok (c.srv.oFf j w), c')
  rw [h.words]

end Beside

theorem fsipc_beside {req : Fsreq} {w dstva : Word} (hreq : req.fileid = some w) (hd : ¬Same fd dstva) :
    Relates (Beside fd) (fsipc req dstva) := by
  intro c r c' h
  obtain ⟨⟨_, s', _, hs, hsrv, -⟩, hpage⟩ := fsipc_page h
  refine ⟨?_, by rw [hsrv]; exact serveTable_sameFiles hreq _ _ _ _ hs⟩
  rcases hpage with hp | ⟨-, -, fr, hp⟩
  · rw [hp]
  · rw [hp, if_neg hd]

theorem fsipc_zero_page {req : Fsreq} {r : Except Int Unit} (h : fsipc req 0 c = some (r, c')) : c'.page = c.page := by
  rcases (fsipc_page h).2 with hp | ⟨-, hne, -⟩
  · exact hp
  · exact absurd rfl hne

theorem fsipc_zero_beside {req : Fsreq} {w : Word} (hreq : req.fileid = some w) :
    Relates (Beside fd) (fsipc req 0) := by
  intro c r c' h
  obtain ⟨⟨_, s', _, hs, hsrv, -⟩, -⟩ := fsipc_page h
  exact ⟨by rw [fsipc_zero_page h], by rw [hsrv]; exact serveTable_sameFiles hreq _ _ _ _ hs⟩

theorem memUnmap_beside (hd : ¬Same fd va) : Relates (Beside fd) (memUnmap va) := by
  intro c r c' h
  obtain ⟨hsrv, ⟨-, hp⟩ | ⟨-, -, rfl⟩⟩ := memUnmap_page h
  · exact ⟨by rw [hp, if_neg hd], by rw [hsrv]⟩
  · exact Beside.refl fd _

theorem mapAll_beside {fileid : Word} : ∀ {is : List Word}, (∀ o ∈ is, ¬Same fd (va + o)) →
    Relates (Beside fd) (mapAll fileid va is)
  | [], _ => Relates.ret (Beside.refl fd) ()
  | o :: _, h => Relates.bind (fun _ _ _ => Beside.trans) (fsipc_beside (w := fileid) rfl (h o List.mem_cons_self))
      fun _ => mapAll_beside fun x hx => h x (List.mem_cons_of_mem _ hx)

theorem mapNew_beside {fileid oldsize : Word} : ∀ {is : List Word}, (∀ o ∈ is, ¬Same fd (va + o)) →
    Relates (Beside fd) (mapNew fileid va oldsize is)
  | [], _ => Relates.ret (Beside.refl fd) ()
  | o :: is, h => by
    refine Relates.bind (fun _ _ _ => Beside.trans)
      (Relates.attempt (fsipc_beside (w := fileid) rfl (h o List.mem_cons_self))) fun r => ?_
    cases r with
    | ok a => exact mapNew_beside fun x hx => h x (List.mem_cons_of_mem _ hx)
    | error e =>
      exact Relates.bind (fun _ _ _ => Beside.trans) (fsipc_zero_beside (w := fileid) rfl) fun _ =>
        Relates.fail (Beside.refl fd) e

theorem unmapAll_beside : ∀ {is : List Word}, (∀ o ∈ is, ¬Same fd (va + o)) → Relates (Beside fd) (unmapAll va is)
  | [], _ => Relates.ret (Beside.refl fd) ()
  | o :: _, h => Relates.bind (fun _ _ _ => Beside.trans) (memUnmap_beside (h o List.mem_cons_self))
      fun _ => unmapAll_beside fun x hx => h x (List.mem_cons_of_mem _ hx)

/-! ## Open files -/

theorem field_open {p : Page} (hp : c.page fd = some p) (w : Nat) :
    field fd w c = some (.ok (c.words p.frame w), c) := by
  unfold field
  rw [hp]
  rfl

theorem fdLookup_open (hi : i.toNat < maxFd) {p : Page} (hp : c.page (index2fd i) = some p) :
    fdLookup i c = some (.ok (index2fd i), c) := by
  have hm : maxFd = 32 := rfl
  have hint : ¬(maxFd : Int) ≤ i.toInt := by
    rw [BitVec.toInt_eq_toNat_of_lt (by omega)]
    omega
  have hv : vpt (index2fd i) c = some (.ok (some p), c) := hp ▸ vpt_table (table_of_page hp)
  unfold fdLookup
  rw [if_neg hint, bind_of_ok hv]
  rfl

/-- The descriptor `i` is that of an open file, of the given size. -/
structure OpenFile (c : Client) (i : Word) (j : Nat) (size : Word) : Prop where
  lt : i.toNat < maxFd
  page : ∃ perm, c.page (index2fd i) = some ⟨.openFile j, perm⟩
  size : c.srv.oFf j fFileSize = size

theorem OpenFile.field {j : Nat} {size : Word} (h : OpenFile c i j size) (w : Nat) :
    Client.field (index2fd i) w c = some (.ok (c.srv.oFf j w), c) := by
  obtain ⟨perm, hp⟩ := h.page
  exact field_open hp w

theorem OpenFile.fdLookup {j : Nat} {size : Word} (h : OpenFile c i j size) :
    Client.fdLookup i c = some (.ok (index2fd i), c) := by
  obtain ⟨perm, hp⟩ := h.page
  exact fdLookup_open h.lt hp

theorem mem_pagesOf {a b : Nat} {o : Word} (h : o ∈ pagesOf a b) (hb : b ≤ 2 ^ 32 - 4096) :
    a ≤ o.toNat ∧ o.toNat < b := by
  have hp : pageSize = 4096 := rfl
  obtain ⟨k, hk, rfl⟩ := List.mem_map.1 h
  rw [List.mem_range, hp] at hk
  rw [BitVec.toNat_ofNat, hp]
  omega

theorem not_same_data (hi : i.toNat < maxFd) {o : Word} (ho : o.toNat < 0x400000) :
    ¬Same (index2fd i) (index2data i + o) := by
  intro h
  have hd := h.1
  rw [pdx_fd hi, pdx_data hi ho] at hd
  omega

end Client
end Mos
