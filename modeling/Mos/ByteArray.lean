import Mos.Attached
/-!
# ByteArray — a file as an array of bytes

What a client that opens, seeks, writes, reads and closes one file sees: an array of bytes that keeps what was written
last at every position, has its first bytes where nothing was written, and zero where it grew.
-/
namespace Mos

open Fallible FilePtr Fs Client

namespace Contents

/-- What is read at an offset: as far as the file goes. -/
def read (x : Contents) (o n : Nat) : List (BitVec 8) := (List.range (min n (x.size - o))).map fun k => x.byte (o + k)

/-- A buffer is written at an offset: the file gets as long as it needs to be. -/
def write (x : Contents) (o : Nat) (buf : List (BitVec 8)) : Contents :=
  ⟨max x.size (o + buf.length), written x.byte o buf⟩

theorem read_length (x : Contents) (o n : Nat) : (x.read o n).length = min n (x.size - o) := by
  unfold read
  rw [List.length_map, List.length_range]

/-- The file ends in a file of the server, and has zeroes behind its end. -/
structure Bounded (x : Contents) : Prop where
  size : x.size ≤ maxFileSize
  tail : ∀ p, x.size ≤ p → x.byte p = 0

theorem Bounded.write {x : Contents} (h : x.Bounded) {o : Nat} {buf : List (BitVec 8)}
    (hle : o + buf.length ≤ maxFileSize) :
    (x.write o buf).Bounded := by
  refine ⟨Nat.max_le.2 ⟨h.size, hle⟩, fun p hp => ?_⟩
  obtain ⟨hx, hbuf⟩ := Nat.max_le.1 hp
  exact (if_neg fun hc => absurd hc.2 (Nat.not_lt.2 hbuf)).trans (h.tail p hx)

end Contents

namespace Client

variable {c c' : Client} {path : List (BitVec 8)} {f j : Nat} {i : Word} {x : Contents} {mode : Word} {offset : Nat}
    {drivers : Drivers}

/-- **The file is closed**, and has the contents. -/
structure Closed (path : List (BitVec 8)) (x : Contents) (c : Client) : Prop where
  shows : ShowsFile c.srv.fs path x
  alone : ∀ va p k, c.page va = some p → p.frame ≠ .openFile k

/-- **The file is open** as descriptor `i`, and has the contents; its size is in the descriptor as well. -/
structure Descriptor (path : List (BitVec 8)) (f : Nat) (i : Word) (j : Nat) (x : Contents) (mode : Word)
    (offset : Nat) (c : Client) : Prop where
  attached : Attached path f i j x.byte c
  omode : c.srv.oFf j fdOmode = mode
  offset : (c.srv.oFf j fdOffset).toNat = offset
  size : (c.srv.oFf j fFileSize).toNat = x.size
  length : c.srv.fs.view (fSize f) = c.srv.oFf j fFileSize
  pages : Pages f i x.size c

namespace Descriptor

theorem lookups (h : Descriptor path f i j x mode offset c) : lookups i c = some (.ok (index2fd i, .file), c) := by
  have hdev : devLookup (c.srv.oFf j fdDevId) = some .file := by
    rw [h.attached.devId]
    rfl
  unfold Client.lookups
  rw [bind_of_ok h.attached.openFile.fdLookup, bind_of_ok (h.attached.openFile.field fdDevId), hdev]
  rfl

theorem setOffset (h : Descriptor path f i j x mode offset c) (o : Word) :
    setField (index2fd i) fdOffset o c = some (.ok (), c.setWord fdOffset o (.openFile j)) ∧
      Descriptor path f i j x mode o.toNat (c.setWord fdOffset o (.openFile j)) := by
  obtain ⟨perm, hp⟩ := h.attached.page
  have hword : ∀ w, w ≠ fdOffset → (c.setWord fdOffset o (.openFile j)).srv.oFf j w = c.srv.oFf j w := fun w hw => by
    rw [oFf_setWord]
    exact Function.update_of_ne hw _ _
  refine ⟨?_, h.attached.setWord ⟨by decide, by decide⟩ o, (hword _ (by decide)).trans h.omode, ?_, ?_, ?_, h.pages⟩
  · unfold setField
    rw [hp]
    rfl
  · rw [oFf_setWord, Function.update_self]
  · rw [hword _ (by decide), h.size]
  · rw [hword _ (by decide)]
    exact h.length

theorem advance (h : Descriptor path f i j x mode offset c) {r : Word} (hr : r.toNat ≤ maxFileSize)
    (ho : offset + r.toNat < 2 ^ 32) :
    ∃ c', advance (index2fd i) r c = some (.ok (), c') ∧ Descriptor path f i j x mode (offset + r.toNat) c' := by
  have hm : maxFileSize = 0x400000 := rfl
  unfold Client.advance
  by_cases hpos : 0 < r.toInt
  · obtain ⟨hset, hd⟩ := h.setOffset (c.srv.oFf j fdOffset + r)
    have hsum : (c.srv.oFf j fdOffset + r).toNat = offset + r.toNat := by
      rw [BitVec.toNat_add, h.offset]
      exact Nat.mod_eq_of_lt ho
    rw [if_pos hpos, bind_of_ok (h.attached.openFile.field fdOffset), hset]
    exact ⟨_, rfl, hsum ▸ hd⟩
  · have hzero : r.toNat = 0 := by
      rw [BitVec.toInt_eq_toNat_of_lt (by omega)] at hpos
      omega
    rw [if_neg hpos, hzero]
    exact ⟨c, rfl, h⟩

/-- **`seek`** -/
theorem seek (h : Descriptor path f i j x mode offset c) (o : Word) :
    ∃ c', seek i o c = some (.ok (), c') ∧ Descriptor path f i j x mode o.toNat c' := by
  obtain ⟨hset, hd⟩ := h.setOffset o
  unfold Client.seek
  rw [bind_of_ok h.attached.openFile.fdLookup, hset]
  exact ⟨_, rfl, hd⟩

/-- **`read`** gets the bytes of the file, into a buffer that has room for them. -/
theorem read (h : Descriptor path f i j x mode offset c) (drivers : Drivers) (hx : x.size ≤ maxFileSize) {buf n : Word}
    (ho : offset + n.toNat < 2 ^ 32) (hbuf : InUser utop buf (x.read offset n.toNat).length) :
    ∃ r c', Client.read drivers i buf n c = some (r, c') ∧
      (mode &&& oAccmode = oWronly → r = .error (-eInval) ∧ c' = c) ∧
      (mode &&& oAccmode ≠ oWronly →
        r = .ok (BitVec.ofNat 32 (x.read offset n.toNat).length, x.read offset n.toNat) ∧
        Descriptor path f i j x mode (offset + (x.read offset n.toNat).length) c') := by
  have hm : maxFileSize = 0x400000 := rfl
  have hlen := x.read_length offset n.toNat
  unfold Client.read
  rw [bind_of_ok h.lookups]
  dsimp only
  rw [bind_of_ok (h.attached.openFile.field fdOmode), h.omode]
  by_cases hmode : mode &&& oAccmode = oWronly
  · rw [if_pos hmode]
    exact ⟨_, c, rfl, fun _ => ⟨rfl, rfl⟩, fun hc => absurd hmode hc⟩
  rw [if_neg hmode, bind_of_ok (h.attached.openFile.field fdOffset)]
  -- what `file_read` copies is what there is of the file
  obtain ⟨y, hread, hva, hn, hret, hend⟩ := (reads_exactly_iff h.attached.openFile (h.size ▸ hx)
    (by rw [h.size, h.offset, ← hlen]; exact hbuf)).2 (.inr (h.offset ▸ ho))
  rw [h.offset, h.size] at hn hend
  have hload : load y.va y.len c = some (.ok (x.read offset n.toNat), c) := by
    rw [hva]
    rcases hend with hzero | hend
    · have hmin : min n.toNat (x.size - offset) = 0 := hn.symm.trans hzero
      unfold Contents.read
      rw [hzero, hmin]
      rfl
    · rw [h.attached.load h.pages (hm ▸ hx) (by rw [h.offset]; exact hend), h.offset, hn]
      rfl
  have hword : (BitVec.ofNat 32 (x.read offset n.toNat).length : Word).toNat = (x.read offset n.toNat).length := by
    rw [BitVec.toNat_ofNat]
    exact Nat.mod_eq_of_lt (by omega)
  have hrets : y.ret = BitVec.ofNat 32 (x.read offset n.toNat).length :=
    BitVec.eq_of_toNat_eq (by rw [hret, hn, hword, hlen])
  obtain ⟨c', hadv, hd⟩ := h.advance (r := BitVec.ofNat 32 (x.read offset n.toNat).length) (by omega) (by omega)
  have hdev : Client.devRead drivers .file (index2fd i) buf n (c.srv.oFf j fdOffset) c =
      some (.ok (BitVec.ofNat 32 (x.read offset n.toNat).length, x.read offset n.toNat), c) :=
    (bind_of_ok hread).trans ((bind_of_ok hload).trans (by rw [hrets]; rfl))
  refine ⟨_, c', ?_, fun hc => absurd hc hmode, fun _ => ⟨rfl, hword ▸ hd⟩⟩
  rw [bind_of_ok hdev, bind_of_ok hadv]
  rfl

/-- **`file_write` makes room** for what it writes, and then copies all of it. -/
theorem room (h : Descriptor path f i j x mode offset c) {buf n : Word} (ho : offset + n.toNat ≤ maxFileSize)
    {r : Except Int Copy} (hrun : fileWrite (index2fd i) buf n (c.srv.oFf j fdOffset) c = some (r, c')) :
    (∃ e, r = .error e ∧ Exhausted e) ∨
      (r = .ok ⟨index2data i + c.srv.oFf j fdOffset, n.toNat, n⟩ ∧
        Descriptor path f i j ⟨max x.size (offset + n.toNat), x.byte⟩ mode offset c') := by
  have hm : maxFileSize = 0x400000 := rfl
  have hsum : (c.srv.oFf j fdOffset + n).toNat = offset + n.toNat := by
    rw [BitVec.toNat_add, h.offset]
    exact Nat.mod_eq_of_lt (by omega)
  have hmax : ¬maxFileSizeW < c.srv.oFf j fdOffset + n :=
    fun hc => absurd (BitVec.lt_def.1 hc) (by rw [hsum]; exact Nat.not_lt.2 ho)
  have hwhole : ∀ {r : Except Int Copy} {c₁ c₂ : Client},
      transfer (index2data i + c.srv.oFf j fdOffset) buf (index2data i + c.srv.oFf j fdOffset) n c₁ = some (r, c₂) →
        c₂ = c₁ ∧ r = .ok ⟨index2data i + c.srv.oFf j fdOffset, n.toNat, n⟩ := fun htr =>
    transfer_whole h.attached.lt (by rw [h.offset]; omega) (by rw [hsum]; exact hm ▸ ho) htr
  rw [fileWrite_eq h.attached.openFile, if_neg hmax] at hrun
  by_cases hlt : c.srv.oFf j fFileSize < c.srv.oFf j fdOffset + n
  · rw [if_pos hlt] at hrun
    have hlt := BitVec.lt_def.1 hlt
    rw [h.size, hsum] at hlt
    have hle : (c.srv.oFf j fFileSize).toNat ≤ (c.srv.oFf j fdOffset + n).toNat := by
      rw [h.size, hsum]; exact Nat.le_of_lt hlt
    have hgrow : ∀ {r : Except Int Unit} {c₁ : Client}, ftruncate i (c.srv.oFf j fdOffset + n) c =
        some (r, c₁) → _ := fun hg =>
      h.attached.grow rfl h.length (h.size.symm ▸ h.pages) hle (by rw [hsum]; exact hm ▸ ho) hg
    rcases bind_eq_some hrun with ⟨e, hg, rfl⟩ | ⟨_, c₁, hg, hcp⟩
    · rcases hgrow hg with ⟨e', he, hex⟩ | ⟨hc, -⟩
      · cases he
        exact .inl ⟨e, rfl, hex⟩
      · cases hc
    · rcases hgrow hg with ⟨e', he, -⟩ | ⟨-, hgrown⟩
      · cases he
      obtain ⟨rfl, rfl⟩ := hwhole hcp
      have hword : ∀ w, w ≠ fFileSize → c'.srv.oFf j w = c.srv.oFf j w := fun w hw => by
        rw [hgrown.words]
        exact Function.update_of_ne hw _ _
      have hnew : c'.srv.oFf j fFileSize = c.srv.oFf j fdOffset + n := by
        rw [hgrown.words]
        exact Function.update_self _ _ _
      have hmaxeq : max x.size (offset + n.toNat) = (c.srv.oFf j fdOffset + n).toNat := by
        rw [hsum]
        exact Nat.max_eq_right (Nat.le_of_lt hlt)
      refine .inr ⟨rfl, hgrown.attached, (hword fdOmode (by decide)).trans h.omode, ?_, ?_, ?_, ?_⟩
      · rw [hword fdOffset (by decide), h.offset]
      · rw [hnew]
        exact hmaxeq.symm
      · rw [hnew, hgrown.size]
      · exact hmaxeq.symm ▸ hgrown.pages
  · rw [if_neg hlt] at hrun
    obtain ⟨rfl, rfl⟩ := hwhole hrun
    have hge := Nat.not_lt.1 (mt BitVec.lt_def.2 hlt)
    rw [h.size, hsum] at hge
    have hmaxeq : max x.size (offset + n.toNat) = x.size := Nat.max_eq_left hge
    exact .inr ⟨rfl, h.attached, h.omode, h.offset, h.size.trans hmaxeq.symm, h.length, hmaxeq.symm ▸ h.pages⟩

theorem devWrite (h : Descriptor path f i j x mode offset c) (hx : x.size ≤ maxFileSize) {va : Word}
    {buf : List (BitVec 8)} (ho : offset + buf.length ≤ maxFileSize) {r : Except Int Word}
    (hrun : Client.devWrite drivers .file (index2fd i) va buf (c.srv.oFf j fdOffset) c = some (r, c')) :
    (∃ e, r = .error e ∧ Exhausted e) ∨
      (r = .ok (BitVec.ofNat 32 buf.length) ∧ Descriptor path f i j (x.write offset buf) mode offset c') := by
  have hm : maxFileSize = 0x400000 := rfl
  have hlen : (BitVec.ofNat 32 buf.length : Word).toNat = buf.length := by
    rw [BitVec.toNat_ofNat]
    exact Nat.mod_eq_of_lt (by omega)
  have hle : max x.size (offset + buf.length) ≤ 0x400000 := Nat.max_le.2 ⟨hm ▸ hx, hm ▸ ho⟩
  rcases bind_eq_some hrun with ⟨e, hw, rfl⟩ | ⟨y, c₁, hw, hstore⟩
  · rcases h.room (hlen.symm ▸ ho) hw with ⟨e', he, hex⟩ | ⟨hc, -⟩
    · cases he
      exact .inl ⟨e, rfl, hex⟩
    · cases hc
  · rcases h.room (hlen.symm ▸ ho) hw with ⟨e', he, -⟩ | ⟨hy, hd⟩
    · cases he
    cases hy
    rw [hlen] at hd
    dsimp only at hstore
    rw [hlen, List.take_length] at hstore
    obtain ⟨c₂, hst, hmaps⟩ := Attached.store hle buf (c.srv.oFf j fdOffset) hd.attached hd.pages
      (by rw [h.offset]; exact Nat.le_max_right _ _)
    rw [bind_of_ok hst] at hstore
    cases hstore
    refine .inr ⟨rfl, h.offset ▸ hmaps.attached, ?_, ?_, ?_, ?_, hd.pages.maps hle hmaps⟩
    · rw [hmaps.words]
      exact hd.omode
    · rw [hmaps.words]
      exact hd.offset
    · rw [hmaps.words]
      exact hd.size
    · rw [hmaps.words, hmaps.size]
      exact hd.length

/-- **`write`** puts the buffer into the file, all of it. -/
theorem write (h : Descriptor path f i j x mode offset c) (hx : x.size ≤ maxFileSize) {va : Word}
    {buf : List (BitVec 8)} (ho : offset + buf.length ≤ maxFileSize) {r : Except Int Word}
    (hrun : Client.write drivers i va buf c = some (r, c')) :
    (mode &&& oAccmode = oRdonly → r = .error (-eInval) ∧ c' = c) ∧
      (mode &&& oAccmode ≠ oRdonly → (∃ e, r = .error e ∧ Exhausted e) ∨
        (r = .ok (BitVec.ofNat 32 buf.length) ∧ Descriptor path f i j (x.write offset buf) mode
          (offset + buf.length) c')) := by
  have hm : maxFileSize = 0x400000 := rfl
  have hlen : (BitVec.ofNat 32 buf.length : Word).toNat = buf.length := by
    rw [BitVec.toNat_ofNat]
    exact Nat.mod_eq_of_lt (by omega)
  unfold Client.write at hrun
  rw [bind_of_ok h.lookups] at hrun
  dsimp only at hrun
  rw [bind_of_ok (h.attached.openFile.field fdOmode), h.omode] at hrun
  by_cases hmode : mode &&& oAccmode = oRdonly
  · rw [if_pos hmode] at hrun
    cases hrun
    exact ⟨fun _ => ⟨rfl, rfl⟩, fun hc => absurd hmode hc⟩
  rw [if_neg hmode, bind_of_ok (h.attached.openFile.field fdOffset)] at hrun
  refine ⟨fun hc => absurd hc hmode, fun _ => ?_⟩
  rcases bind_eq_some hrun with ⟨e, hdev, rfl⟩ | ⟨r₁, c₁, hdev, hadv⟩
  · rcases h.devWrite hx ho hdev with ⟨e', he, hex⟩ | ⟨hc, -⟩
    · cases he
      exact .inl ⟨e, rfl, hex⟩
    · cases hc
  · rcases h.devWrite hx ho hdev with ⟨e', he, -⟩ | ⟨hr, hd⟩
    · cases he
    cases hr
    obtain ⟨c₂, hset, hd₂⟩ := hd.advance (r := BitVec.ofNat 32 buf.length) (by omega) (by omega)
    rw [bind_of_ok hset] at hadv
    cases hadv
    exact .inr ⟨rfl, hlen ▸ hd₂⟩

end Descriptor

/-! ## Closing -/

/-- **`fsipc_close`** -/
theorem Attached.close {byte : Nat → BitVec 8} (h : Attached path f i j byte c) :
    ∃ c', fsipcClose (BitVec.ofNat 32 j) c = some (.ok (), c') ∧ Maps path f i j byte [] c c' := by
  obtain ⟨t, hclose, hq⟩ := fileClose_quiet h.served.kept h.served.file h.served.held
  have hserve : serveTable c.refs (.close (BitVec.ofNat 32 j)) c.srv = _ :=
    Serv.onOpen_ok (x := Mos.fileClose) h.opens (h.oFile.symm ▸ hclose)
  exact ⟨_, fsipc_zero rfl hserve (Int.le_refl 0), h.upkeep (hq.served h.served), rfl, hq.edit.view _ id, fun y _ hor =>
    (hor.resolve_right fun ⟨_, hc, _⟩ => List.not_mem_nil hc).upkeep (hq.upkeep h.served.kept h.served.file)⟩

/-- The server is as it was, and the pages are some of those that were there. -/
def Fewer (c c' : Client) : Prop := c'.srv = c.srv ∧ ∀ va p, c'.page va = some p → c.page va = some p

theorem Fewer.trans {a b c : Client} (h : Fewer a b) (h' : Fewer b c) : Fewer a c :=
  ⟨h'.1.trans h.1, fun va p hp => h.2 va p (h'.2 va p hp)⟩

theorem memUnmap_fewer (va : Word) : Relates Fewer (memUnmap va) := by
  intro c r c' h
  obtain ⟨hsrv, ⟨-, hpage⟩ | ⟨-, -, rfl⟩⟩ := memUnmap_page h
  · refine ⟨hsrv, fun va' p hp => ?_⟩
    rw [hpage] at hp
    split at hp
    · cases hp
    · exact hp
  · exact ⟨rfl, fun _ _ hp => hp⟩

theorem unmapAll_fewer (va : Word) : ∀ os : List Word, Relates Fewer (unmapAll va os)
  | [] => Relates.ret (fun _ => ⟨rfl, fun _ _ hp => hp⟩) ()
  | o :: os => Relates.bind (fun _ _ _ => Fewer.trans) (memUnmap_fewer (va + o)) fun _ => unmapAll_fewer va os

theorem Descriptor.fileClose (h : Descriptor path f i j x mode offset c) (hx : x.size ≤ maxFileSize)
    {r : Except Int Unit} (hrun : Client.fileClose (index2fd i) c = some (r, c')) :
    (∃ e, r = .error e ∧ Exhausted e) ∨ (r = .ok () ∧ ∃ c₁, Maps path f i j x.byte [] c c₁ ∧ Fewer c₁ c') := by
  have hm : maxFileSize = 0x400000 := rfl
  have hos : ∀ o ∈ pagesOf 0 (c.srv.oFf j fFileSize).toNat, o.toNat < 0x400000 ∧ DataPage f i o c := fun o ho => by
    have hlt := (mem_pagesOf ho (by rw [h.size]; omega)).2
    rw [h.size] at hlt
    exact ⟨by omega, h.pages o (by omega)⟩
  unfold Client.fileClose at hrun
  rw [bind_of_ok (h.attached.openFile.field fFileid),
    bind_of_ok (h.attached.openFile.field fFileSize), h.attached.fileid,
    fd2data_index2fd h.attached.lt] at hrun
  rcases bind_eq_some hrun with ⟨e, hd, rfl⟩ | ⟨_, c₂, hd, hrest⟩
  · rcases dirtyAll_maps h.attached hos hd with ⟨e', he, hex⟩ | ⟨hc, -⟩
    · cases he
      exact .inl ⟨e, rfl, hex⟩
    · cases hc
  · rcases dirtyAll_maps h.attached hos hd with ⟨e', he, -⟩ | ⟨-, hmaps⟩
    · cases he
    obtain ⟨c₃, hcl, hmaps₃⟩ := hmaps.attached.close
    obtain ⟨c₄, hun⟩ := unmapAll_ok h.attached.lt (pagesOf 0 (c.srv.oFf j fFileSize).toNat) c₃ fun o ho => (hos o ho).1
    rw [bind_of_ok hcl, hun] at hrest
    cases hrest
    exact .inr ⟨rfl, c₃, hmaps.trans hmaps₃, unmapAll_fewer _ _ _ _ _ hun⟩

/-- **`close`** leaves the contents in the file. -/
theorem Descriptor.close (h : Descriptor path f i j x mode offset c) (hx : x.size ≤ maxFileSize) {r : Except Int Unit}
    (hrun : Client.close i c = some (r, c')) : (∃ e, r = .error e ∧ Exhausted e) ∨ (r = .ok () ∧ Closed path x c') := by
  have hdev : devLookup (c.srv.oFf j fdDevId) = some .file := by
    rw [h.attached.devId]
    rfl
  unfold Client.close at hrun
  rw [bind_of_ok h.attached.openFile.fdLookup, bind_of_ok (h.attached.openFile.field fdDevId), hdev] at hrun
  rcases bind_eq_some hrun with ⟨e, hatt, -⟩ | ⟨r₁, c₁, hatt, hrest⟩
  · exact absurd hatt (Sure.attempt _ _ _ _)
  obtain ⟨⟨r₂, c₂⟩, hdc, heq⟩ := Option.map_eq_some_iff.1 hatt
  cases heq
  rcases bind_eq_some hrest with ⟨e, hun, -⟩ | ⟨_, c₃, hun, hret⟩
  · exact absurd hun (Sure.orPanic _ _ _ _)
  obtain ⟨_, -, hun⟩ := orPanic_eq_some hun
  rcases h.fileClose hx hdc with ⟨e, rfl, hex⟩ | ⟨rfl, c₀, hmaps, hfewer⟩
  · cases hret
    exact .inl ⟨e, rfl, hex⟩
  · cases hret
    have hfew := hfewer.trans (memUnmap_fewer _ _ _ _ hun)
    have hshows := hmaps.attached.served.shows (by rw [hmaps.size, h.length, h.size])
    refine .inr ⟨rfl, hfew.1 ▸ hshows, fun va p k hp hk => ?_⟩
    -- the page of the descriptor was the only one
    have hsame := hmaps.attached.lone va p k (hfew.2 va p hp) hk
    obtain ⟨-, ⟨-, hpage⟩ | ⟨hc, -⟩⟩ := memUnmap_page hun
    · rw [hpage, if_pos hsame] at hp
      cases hp
    · cases hc

/-! ## Opening -/

theorem fdAlloc_free {fd : Word} (h : c.fdAlloc = some fd) :
    ∃ i : Word, i.toNat < maxFd ∧ fd = index2fd i ∧ c.page fd = none := by
  have hm : maxFd = 32 := rfl
  obtain ⟨k, hk, rfl⟩ := List.mem_map.1 (List.mem_of_find?_eq_some h)
  have hfree : ¬c.Mapped (index2fd (BitVec.ofNat 32 k)) := by simpa using List.find?_some h
  refine ⟨BitVec.ofNat 32 k, ?_, rfl, Option.not_isSome_iff_eq_none.1 hfree⟩
  have hk := List.mem_range.1 hk
  rw [BitVec.toNat_ofNat]
  omega

theorem afterAlloc_pos {refs : Nat → Nat} {srv : Server}
    (hfind : ((List.range maxOpen).find? fun i => decide (refs i ≤ 1)) = some j)
    (hpage : refs j = 0 → srv.fs.pages.headD true = true) : 0 < afterAlloc refs srv j := by
  unfold afterAlloc
  rw [hfind]
  dsimp only
  by_cases h0 : refs j = 0
  · rw [if_pos ⟨h0, hpage h0⟩, Function.update_self]
    decide
  · rw [if_neg fun hc => h0 hc.1]
    exact Nat.pos_of_ne_zero h0

theorem retake_new {refs : Nat → Nat} {perm : Word} (h : 0 < refs j) :
    1 < retake refs none (some ⟨.openFile j, perm⟩) j := by
  show 1 < refs j - 0 + if some (Frame.openFile j) = some (.openFile j) then 1 else 0
  rw [if_pos rfl]
  exact Nat.succ_lt_succ h

/-- **The descriptor is there**, before the pages of the data. -/
structure Entered (path : List (BitVec 8)) (f : Nat) (i : Word) (j : Nat) (x : Contents) (mode : Word)
    (c : Client) : Prop where
  attached : Attached path f i j x.byte c
  filled : Serv.Filled c.srv j mode x
  length : (c.srv.fs.view (fSize f)).toNat = x.size

theorem Closed.fsipcOpen (h : Closed path x c) (h0 : (0 : BitVec 8) ∉ path) (hmkdir : mode &&& oMkdir = 0)
    (htrunc : mode &&& oTrunc = 0) (hc : mode &&& oCreat ≠ 0 → c.srv.fs.Creatable path) (hi : i.toNat < maxFd)
    (hfree : c.page (index2fd i) = none) {r : Except Int Unit}
    (hrun : Client.fsipcOpen path mode (index2fd i) c = some (r, c')) : (∃ e, r = .error e ∧ Closed path x c') ∨
      (r = .ok () ∧ (c'.page (index2fd i) = none ∨ ∃ f j, Entered path f i j x mode c')) := by
  have hlegal := legal_fd hi
  have hne : index2fd i ≠ 0 := by
    intro hz
    have hsum := congrArg BitVec.toNat hz
    rw [index2fd_toNat hi] at hsum
    have hzero : (0 : Word).toNat = 0 := rfl
    omega
  unfold Client.fsipcOpen at hrun
  split at hrun
  · cases hrun
    exact .inl ⟨_, rfl, h⟩
  -- the server answers every request that does not make it panic
  have hserved : ∃ reply s, serveTable c.refs (.openFile path mode) c.srv = some (.ok reply, s) := by
    unfold fsipc at hrun
    rw [if_neg fun hc => Bool.eq_false_iff.1 hlegal hc.2] at hrun
    obtain ⟨⟨y, s⟩, hs, hy⟩ := Option.bind_eq_some_iff.1 hrun
    cases y with
    | error e => cases hy
    | ok reply => exact ⟨reply, s, hs⟩
  obtain ⟨reply, s, hserve⟩ := hserved
  obtain ⟨hshows, ⟨e, rfl⟩ | ⟨j, f, hfind, hpages, rfl, hfound, hheld, hfile, hfilled⟩⟩ :=
    Serv.serveOpen_shows h.shows h0 hmkdir htrunc hc hserve
  · by_cases hv : e < 0
    · rw [fsipc_refused (fun hc => Bool.eq_false_iff.1 hlegal hc.2) hserve hv] at hrun
      cases hrun
      exact .inl ⟨e, rfl, hshows, h.alone⟩
    · unfold fsipc at hrun
      rw [if_neg fun hc => Bool.eq_false_iff.1 hlegal hc.2, hserve, Option.bind_some] at hrun
      dsimp only at hrun
      rw [if_neg hv, if_neg hne] at hrun
      cases hrun
      exact .inr ⟨rfl, .inl hfree⟩
  · have hopen : isOpen (.openFile path mode) = true := rfl
    rw [fsipc_page_run (.openFile j) hlegal hne hserve rfl, if_pos hopen] at hrun
    obtain ⟨_, rfl, hins⟩ := orPanic_eq_some hrun
    have hrefs := pageInsert_refs (by exact hfree) hins
    obtain ⟨hsrv, ⟨-, hpage⟩ | ⟨hc, -⟩⟩ := pageInsert_page hins
    · have hj : j < maxOpen := List.mem_range.1 (List.mem_of_find?_eq_some hfind)
      have hone : 0 < afterAlloc c.refs c.srv j := afterAlloc_pos hfind hpages
      refine .inr ⟨rfl, .inr ⟨f, j, ⟨?_, hi, ⟨pteD ||| pteLibrary ||| pteCCacheable ||| pteV, ?_⟩, hj, ?_, ?_, ?_, ?_,
        fun va p k hp hk => ?_⟩, ?_, ?_⟩⟩
      · rw [hsrv]
        exact ⟨hshows.kept, hshows.blank, hfound.found, hfound.regular, hheld, hfound.bytes⟩
      · rw [hpage, if_pos ⟨rfl, rfl⟩]
      · rw [hrefs]
        dsimp only
        exact retake_new hone
      · rw [hsrv]
        exact hfile
      · rw [hsrv]
        exact hfilled.devId
      · rw [hsrv]
        exact hfilled.fileid
      · rw [hpage] at hp
        split at hp
        · rename_i hs
          exact hs
        · exact absurd hk (h.alone va p k hp)
      · rw [hsrv]
        exact hfilled
      · rw [hsrv]
        exact hfound.size
    · cases hc

/-- **`open`** finds the contents in the file. -/
theorem Closed.openFile (h : Closed path x c) (h0 : (0 : BitVec 8) ∉ path) (hmkdir : mode &&& oMkdir = 0)
    (htrunc : mode &&& oTrunc = 0) (hc : mode &&& oCreat ≠ 0 → c.srv.fs.Creatable path) (hx : x.size ≤ maxFileSize)
    {r : Except Int Word} (hrun : Client.openFile path mode c = some (r, c')) :
    (∃ e, r = .error e ∧ (Exhausted e ∨ Closed path x c')) ∨
      ∃ i f j, r = .ok i ∧ Descriptor path f i j x mode (if mode &&& oAppend ≠ 0 then x.size else 0) c' := by
  have hm : maxFileSize = 0x400000 := rfl
  unfold Client.openFile openFd at hrun
  rcases bind_eq_some hrun with ⟨e, hfd, rfl⟩ | ⟨fd, c₁, hfd, hrest⟩
  · rw [bind_read, id_eq] at hfd
    cases hal : c.fdAlloc with
    | none =>
      rw [hal] at hfd
      cases hfd
      exact .inl ⟨_, rfl, .inr h⟩
    | some fd =>
      rw [hal] at hfd
      obtain ⟨i, hi, rfl, hfree⟩ := fdAlloc_free hal
      rcases bind_eq_some hfd with ⟨e', hop, he⟩ | ⟨_, c₂, -, hret⟩
      · cases he
        rcases h.fsipcOpen h0 hmkdir htrunc hc hi hfree hop with ⟨e', he, hclosed⟩ | ⟨hc, -⟩
        · cases he
          exact .inl ⟨e, rfl, .inr hclosed⟩
        · cases hc
      · cases hret
  · rw [bind_read, id_eq] at hfd
    cases hal : c.fdAlloc with
    | none =>
      rw [hal] at hfd
      cases hfd
    | some fd' =>
      rw [hal] at hfd
      obtain ⟨i, hi, rfl, hfree⟩ := fdAlloc_free hal
      rcases bind_eq_some hfd with ⟨e', -, he⟩ | ⟨_, c₂, hop, hret⟩
      · cases he
      cases hret
      rcases h.fsipcOpen h0 hmkdir htrunc hc hi hfree hop with ⟨e', he, -⟩ | ⟨-, hnone | ⟨f, j, hent⟩⟩
      · cases he
      · have hfault : field (index2fd i) fFileSize c₁ = none := by
          unfold field
          rw [hnone]
          rfl
        rw [bind_run, hfault] at hrest
        cases hrest
      have hatt := hent.attached
      have hsize : (c₁.srv.oFf j fFileSize).toNat = x.size := hent.filled.size
      rw [bind_of_ok (hatt.openFile.field fFileSize), bind_of_ok (hatt.openFile.field fFileid), hatt.fileid,
        fd2data_index2fd hatt.lt] at hrest
      have hos : ∀ o ∈ pagesOf 0 (c₁.srv.oFf j fFileSize).toNat, o.toNat < 0x400000 := fun o ho => by
        have hlt := (mem_pagesOf ho (by rw [hsize]; omega)).2
        rw [hsize] at hlt
        omega
      rcases bind_eq_some hrest with ⟨e, hmap, rfl⟩ | ⟨_, c₂, hmap, hret⟩
      · rcases mapAll_maps hatt hos hmap with ⟨e', he, hex⟩ | ⟨hc, -⟩
        · cases he
          exact .inl ⟨e, rfl, .inl hex⟩
        · cases hc
      · rcases mapAll_maps hatt hos hmap with ⟨e', he, -⟩ | ⟨-, hmaps⟩
        · cases he
        cases hret
        refine .inr ⟨i, f, j, ?_, hmaps.attached, ?_, ?_, ?_, ?_, fun o ho => hmaps.data o (by omega) (.inr ?_)⟩
        · rw [fd2num_index2fd hi]
        · rw [hmaps.words]
          exact hent.filled.omode
        · rw [hmaps.words]
          exact hent.filled.offset
        · rw [hmaps.words]
          exact hsize
        · rw [hmaps.words, hmaps.size]
          exact BitVec.eq_of_toNat_eq (hent.length.trans hsize.symm)
        · exact pagesOf_cover rfl (by rw [hsize]; omega) (Nat.zero_le _) (by rw [hsize]; exact ho)

end Client

end Mos
