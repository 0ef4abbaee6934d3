import Mos.Durable
import Mos.FileSession
import Mos.Formatting
/-!
# Imaged — the server on what `fsformat` wrote

Of the nodes of the tree each has its place (`Part`), and the files of the volume are these nodes and the blank
entries behind the last one of a directory.  So the volume is one that the requests keep, and its paths lead where the
paths of the tree do.
-/
namespace Mos

open Fallible FilePtr Fs Fsformat

/-! ## The tree -/

/-- **The entry of a name**, the first one. -/
def HostDir.lookup (name : List (BitVec 8)) : HostDir → Option HostNode
  | .nil => none
  | .snoc before n node => (before.lookup name).or (if n = name then some node else none)

def HostDir.names : HostDir → List (List (BitVec 8))
  | .nil => []
  | .snoc before name _ => before.names ++ [name]

/-- **What stands at a path** of the tree. -/
def HostNode.at : HostNode → List (List (BitVec 8)) → Option HostNode
  | node, [] => some node
  | .file _, _ :: _ => none
  | .dir es, name :: names => (es.lookup name).bind fun node => node.at names

namespace Fs

/-- **The server sees the tree.** -/
structure Images (s : Fs) (es : HostDir) : Prop where
  up : Up s
  count : s.sNblocks = nblock
  disk : Formatted s.view es
  fits : 3 + es.blocks ≤ nblock
  fitting : es.fitting = true

/-- **The file is the node of the tree**: it has the bytes of a file, or lists the names of a directory. -/
inductive Shows (s : Fs) (f : Nat) : HostNode → Prop where
  | file (bytes : List (BitVec 8)) : ¬s.IsDir f → (s.view (fSize f)).toNat = bytes.length →
      (∀ p, s.byteAtPos f p = bytes.getD p 0) →
      Shows s f (.file bytes)
  | dir (es : HostDir) : s.IsDir f → ((s.listing f).map s.nameOf).filter (· ≠ []) = es.names → Shows s f (.dir es)

/-- **The server finds the node**: its type and its size, and of a file the blocks, with zeroes behind the last byte. -/
inductive Yields (s : Fs) (f : Nat) : HostNode → Prop where
  | file (bytes : List (BitVec 8)) : s.mem (fType f) = ftypeReg → (s.mem (fSize f)).toNat = bytes.length →
      (∀ i < chunks bytes, ∃ a s', fileGetBlock f i s = some (.ok a, s') ∧
        ∀ j < blockSize, byteAt s'.mem (4 * a + j) = (chunk bytes i).getD j 0) → Yields s f (.file bytes)
  | dir (es : HostDir) : s.mem (fType f) = ftypeDir →
      (s.mem (fSize f)).toNat = blockSize * ((es.len + 15) / file2blk) → Yields s f (.dir es)

theorem Shows.passes {s s' : Fs} {P : Nat → Prop} {f : Nat} {node : HostNode} (h : s.Shows f node) (hk : Kept s)
    (hp : Passes P s s') (hP : ∀ f, P f → Entry s f) (hf : File s f) : s'.Shows f node := by
  have hsame := hk.same_passes hp hP hf
  cases h with
  | file bytes hreg hsize hbytes =>
    refine .file bytes (mt hsame.dir.1 hreg) (hsame.size ▸ hsize) fun p => ?_
    rw [byteAtPos_congr (hsame.blockAt _) fun b hb k hlt => hsame.data hreg _ b hb k hlt]
    exact hbytes p
  | dir es hdir hnames =>
    refine .dir es (hsame.dir.2 hdir) (Eq.trans ?_ hnames)
    rw [passes_listing hk hp hP hf]
    refine congrArg (List.filter _) (List.map_congr_left fun x hx => (hk.same_passes hp hP ?_).name)
    obtain ⟨i, hi, b, hb, hin⟩ := mem_listing.1 hx
    exact .entry f i b x hf hdir hi hb hin

/-- An entry in which there is nothing. -/
def Vacant (s : Fs) (f : Nat) : Prop := ∀ k < fileWords, s.view (f + k) = 0

end Fs

namespace Fsformat

/-- The nodes of a tree whose root is the root of the volume: where the entry is, and where the blocks begin. -/
inductive Part (es : HostDir) : Nat → Nat → HostNode → Prop where
  | root : Part es sRoot 3 (.dir es)
  | kid (f lo : Nat) (es' : HostDir) (kid : Kid) : Part es f lo (.dir es') → kid ∈ es'.kids lo →
      Part es kid.ptr kid.lo kid.node

variable {s : Fs} {disk : Nat → Word} {es : HostDir}

theorem Formatted.congr {m m' : Nat → Word} (h : Formatted m es) (hm : ∀ a, 1 ≤ a / blockWords → m' a = m a) :
    Formatted m' es := by
  refine ⟨(hm _ (by decide)).trans h.magic, (hm _ (by decide)).trans h.nblocks, h.root.congr (fun k hk => ?_)
    fun a ha _ => ?_, fun b hb => ?_,
    fun a ha hlt => ?_⟩
  · apply hm
    rw [root_word hk]
  · apply hm
    omega
  · rw [hm _ (by rw [bitmapWord_block hb]; decide)]
    exact h.bits b hb
  · rw [hm a (by omega)]
    exact h.blank a ha hlt

/-! ## The server starts -/

/-- Pages are taken at most. -/
def Takings (s s' : Fs) : Prop := s'.pages <:+ s.pages

theorem takings_refl (s : Fs) : Takings s s := List.suffix_refl _

theorem takings_trans (s s' s'' : Fs) (h : Takings s s') (h' : Takings s' s'') : Takings s s'' := h'.trans h

theorem takings_modify {g : Fs → Fs} (hg : ∀ s, (g s).pages = s.pages) : Relates Takings (modify g : FsM Unit) := by
  intro s r s' h
  cases h
  simp [Takings, hg s]

theorem readBlock_takes (b : Nat) : Relates Takings (readBlock b) := by
  apply Relates.bind takings_trans (.read takings_refl _)
  intro s
  refine .ite (fun _ => .panic) fun _ => .ite (fun _ => .panic) fun _ => .ite (fun _ => .ret takings_refl _) fun _ => ?_
  apply Relates.bind takings_trans
  · intro s r s' h
    rw [memAllocBlock_eq] at h
    split at h
    · cases h
      exact List.tail_suffix _
    · cases h
      exact List.tail_suffix _
  · intro _
    exact .bind takings_trans (takings_modify fun _ => rfl) fun _ => .ret takings_refl _

theorem readBlocks_takes (bs : List Nat) : Relates Takings (readBlocks bs) := by
  induction bs with
  | nil => exact .ret takings_refl _
  | cons b bs ih => exact .bind takings_trans (.attempt (readBlock_takes b)) fun _ => ih

theorem assert_takes (c : Bool) : Relates Takings (assert c : FsM Unit) :=
  .ite (fun _ => .ret takings_refl _) fun _ => .panic

theorem writeBlock_takes (b : Nat) : Relates Takings (writeBlock b) := by
  apply Relates.bind takings_trans (.read takings_refl _)
  intro s
  exact .ite (fun _ => .panic) fun _ => takings_modify fun _ => rfl

theorem fsInit_takes : Relates Takings fsInit := by
  apply Relates.bind takings_trans
  · apply Relates.bind takings_trans (.orPanic (readBlock_takes 1))
    intro _
    exact .bind takings_trans (takings_modify fun _ => rfl) fun _ => .bind takings_trans (.read takings_refl _) fun _ =>
      .bind takings_trans (assert_takes _) fun _ => assert_takes _
  intro _
  apply Relates.bind takings_trans
  · exact .bind takings_trans (takings_modify fun _ => rfl) fun _ =>
      .bind takings_trans (.orPanic (readBlock_takes 0)) fun _ =>
      .bind takings_trans (takings_modify fun _ => rfl) fun _ =>
        .bind takings_trans (takings_modify fun _ => rfl) fun _ =>
      .bind takings_trans (writeBlock_takes 1) fun _ => .bind takings_trans (takings_modify fun _ => rfl) fun _ =>
      .bind takings_trans (.orPanic (readBlock_takes 1)) fun _ => .bind takings_trans (.read takings_refl _) fun _ =>
      .bind takings_trans (assert_takes _) fun _ => .bind takings_trans (takings_modify fun _ => rfl) fun _ =>
      .bind takings_trans (writeBlock_takes 1) fun _ => takings_modify fun _ => rfl
  intro _
  apply Relates.bind takings_trans (.read takings_refl _)
  intro _
  exact .bind takings_trans (readBlocks_takes _) fun _ => .bind takings_trans (takings_modify fun _ => rfl) fun _ =>
    .bind takings_trans (.read takings_refl _) fun _ => assert_takes _

theorem fsInit_pages {disk : Nat → Word} {s : Fs} (h : fsInit (restart disk) = some (.ok (), s)) : s.pages = [] :=
  List.suffix_nil.1 (fsInit_takes _ _ _ h)

/-- **`fs_init`** takes the image. -/
theorem Formatted.boots (h : Formatted disk es) (hfits : 3 + es.blocks ≤ nblock) (hnames : es.fitting = true) :
    ∃ s, fsInit (restart disk) = some (.ok (), s) ∧ s.Images es := by
  have hboot : Bootable disk nblock := by
    refine ⟨h.magic, ?_, by decide, by decide, fun b hb => ?_⟩
    · rw [h.nblocks, toNat_block (Nat.le_refl _)]
    · have hb : b < 3 := hb
      rw [h.bits b (Nat.lt_trans hb (by decide))]
      apply decide_eq_false
      omega
  obtain ⟨s, hinit, hup, hcount, hview⟩ := fsInit_start hboot
  exact ⟨s, hinit, hup, hcount, h.congr hview, hfits, hnames⟩

end Fsformat

namespace Fs.Images

variable {s : Fs} {es : HostDir} {b : Nat} (h : s.Images es)
include h

theorem reserved : s.reserved = 3 := by
  unfold Fs.reserved
  rw [h.count]
  decide

/-- **The blocks behind those of the tree are free**, and no others. -/
theorem free (b : Nat) : s.blockIsFree b = true ↔ 3 + es.blocks ≤ b ∧ b < nblock := by
  unfold blockIsFree
  rw [h.up.super, h.count, Bool.true_and]
  by_cases hb : b < nblock
  · have hm : s.mapped (bitmapWord b / blockWords) = true := h.up.bitmap_mapped (h.count ▸ hb)
    rw [mem_eq_view hm, h.disk.bits b (Nat.lt_trans hb (by decide))]
    simp [hb]
  · simp [hb]

theorem data (hle : 3 ≤ b) (hlt : b < 3 + es.blocks) : Data s b := by
  have hfits := h.fits
  refine ⟨h.reserved ▸ hle, ?_, Bool.eq_false_iff.2 fun hc => ?_⟩
  · rw [h.count]
    omega
  · have := ((h.free b).1 hc).1
    omega

end Fs.Images

namespace Fsformat

variable {s : Fs} {es : HostDir} {f lo n i b c : Nat} {u : Use} {node : HostNode} {bs : List Nat}
    {bytes name : List (BitVec 8)}

/-! ## What a file holds -/

theorem Attaches.holds (h : Attaches s.view f bs) (hlen : bs.length ≤ nIndirect) (hbs : ∀ b ∈ bs, b ≠ 0 ∧ b < nblock) :
    s.indirect f = indirectBlock bs ∧ ∀ i, s.blockAt f i = bs[i]? := by
  have hword : ∀ i, (if BitVec.ofNat 32 (bs.getD i 0) = 0 then none
    else some (BitVec.ofNat 32 (bs.getD i 0)).toNat) = bs[i]? := by
    intro i
    by_cases hi : i < bs.length
    · obtain ⟨h0, hlt⟩ := hbs _ (getD_mem hi)
      rw [if_neg (block_ne_zero h0 (Nat.le_of_lt hlt)), toNat_block (Nat.le_of_lt hlt), List.getElem?_eq_getElem hi,
        List.getD_eq_getElem _ _ hi]
    · rw [List.getD_eq_default _ _ (Nat.not_lt.1 hi), List.getElem?_eq_none (Nat.not_lt.1 hi)]
      rfl
  have hind : s.indirect f = indirectBlock bs := by
    unfold Fs.indirect
    rw [h.indirect]
    cases hc : indirectBlock bs with
    | none => rfl
    | some c =>
      obtain ⟨b, hb, rfl⟩ := Option.map_eq_some_iff.1 hc
      have hle : b + 1 ≤ nblock := (hbs b (List.mem_of_getElem? hb)).2
      rw [Option.getD_some, if_neg (block_ne_zero (Nat.succ_ne_zero b) hle), toNat_block hle]
  refine ⟨hind, fun i => ?_⟩
  unfold blockAt slot
  by_cases h10 : i < nDirect
  · rw [if_pos h10, Option.bind_some, h.direct i h10, hword]
  rw [if_neg h10, hind]
  by_cases hlt : i < nIndirect
  · rw [if_pos hlt]
    cases hc : indirectBlock bs with
    | none =>
      -- no indirect block: the file has ten blocks at most
      have hnone : bs[nDirect]? = none := by simpa [indirectBlock] using hc
      have := List.getElem?_eq_none_iff.1 hnone
      rw [List.getElem?_eq_none (by omega)]
      rfl
    | some c => rw [Option.map_some, Option.bind_some, h.links c hc i hlt (Nat.not_lt.1 h10), hword]
  · rw [if_neg hlt, List.getElem?_eq_none (by omega)]
    rfl

namespace Part

theorem fits (h : Part es f lo node) : 3 ≤ lo ∧ lo + node.blocks ≤ 3 + es.blocks := by
  induction h with
  | root => exact ⟨Nat.le_refl 3, by simp only [HostNode.blocks, Nat.le_refl]⟩
  | kid f lo es' kid _ hk ih =>
    have := HostDir.kids_bound es' kid hk
    simp only [HostNode.blocks] at ih
    omega

theorem slots (h : Part es f lo node) : ∀ x ∈ node.slots f lo, x ∈ es.slots sRoot 3 := by
  induction h with
  | root => exact fun x hx => by simpa only [HostNode.slots] using hx
  | kid f lo es' kid _ hk ih =>
    intro x hx
    apply ih
    simp only [HostNode.slots]
    exact HostDir.kids_slots es' kid hk x hx

theorem placed {m : Nat → Word} (h : Part es f lo node) (hroot : Placed m sRoot 3 (.dir es)) : Placed m f lo node := by
  induction h with
  | root => exact hroot
  | kid f lo es' kid _ hk ih =>
    cases ih with
    | dir _ _ _ _ _ kids => exact kids kid hk

end Part

/-! ## The nodes -/

/-- The blocks of a node itself. -/
def ownBlocks (lo : Nat) : HostNode → List Nat
  | .file bytes => fileBlocks lo (chunks bytes)
  | .dir es => es.dirBlocks lo

theorem ownBlocks_slots (node : HostNode) {i b : Nat} (hb : (ownBlocks lo node)[i]? = some b) {x : (Nat × Use) × Nat}
    (hx : x ∈ linkSlots f i b) : x ∈ node.slots f lo := by
  cases node with
  | file bytes =>
    simp only [ownBlocks] at hb
    have hi := (List.getElem?_eq_some_iff.1 hb).1
    rw [length_fileBlocks] at hi
    rw [getElem?_fileBlocks hi] at hb
    obtain rfl := Option.some.inj hb
    simp only [HostNode.slots]
    exact List.mem_flatMap.2 ⟨i, List.mem_range.2 hi, hx⟩
  | dir es =>
    simp only [HostNode.slots]
    exact HostDir.own_slots es i b hb x hx

theorem ownBlocks_bound (lo : Nat) (node : HostNode) : (∀ b ∈ ownBlocks lo node, lo ≤ b ∧ b < lo + node.blocks) ∧
    (ownBlocks lo node).length ≤ node.blocks := by
  cases node with
  | file bytes =>
    simp only [ownBlocks, HostNode.blocks, length_fileBlocks]
    exact ⟨fun b hb => fileBlocks_bound hb, span_ge _⟩
  | dir es =>
    simp only [ownBlocks, HostNode.blocks]
    exact ⟨HostDir.dirBlocks_bound es, HostDir.length_dirBlocks_le lo es⟩

namespace Part

theorem here (h : Part es f lo node) (hs : s.Images es) : Placed s.view f lo node := h.placed hs.disk.root

/-- **What the server sees of a node**: its blocks. -/
theorem holds (h : Part es f lo node) (hs : s.Images es) : s.indirect f = indirectBlock (ownBlocks lo node) ∧
    ∀ i, s.blockAt f i = (ownBlocks lo node)[i]? := by
  have hfits := hs.fits
  have hin := h.fits
  obtain ⟨hbound, hlen⟩ := ownBlocks_bound lo node
  have hattach : Attaches s.view f (ownBlocks lo node) := by
    cases h.here hs with
    | file _ _ _ hfile => exact hfile.blocks
    | dir _ _ _ hdir _ _ => exact hdir.blocks
  apply hattach.holds
  · unfold nblock at hfits
    unfold nIndirect blockSize pageSize
    omega
  · intro b hb
    have := hbound b hb
    omega

theorem holds_iff (h : Part es f lo node) (hs : s.Images es) :
    s.vol.holds f u = some b ↔ ∃ i c, (ownBlocks lo node)[i]? = some c ∧ ((f, u), b) ∈ linkSlots f i c := by
  obtain ⟨hind, hblock⟩ := h.holds hs
  constructor
  · intro hb
    cases u with
    | indirect =>
      have hb : s.indirect f = some b := hb
      rw [hind] at hb
      obtain ⟨c, hc, rfl⟩ := Option.map_eq_some_iff.1 hb
      exact ⟨nDirect, c, hc, link_indirect_mem⟩
    | block i =>
      have hb : s.blockAt f i = some b := hb
      exact ⟨i, b, (hblock i).symm.trans hb, link_mem⟩
  · rintro ⟨i, c, hc, hx⟩
    obtain ⟨-, ⟨rfl, rfl⟩ | ⟨rfl, rfl, rfl⟩⟩ := mem_linkSlots hx
    · exact (hblock i).trans hc
    · refine hind.trans ?_
      unfold indirectBlock
      rw [hc]
      rfl

theorem dir_size {es' : HostDir} (h : Part es f lo (.dir es')) (hs : s.Images es) : s.IsDir f ∧
    s.nblocks f = (es'.dirBlocks lo).length ∧ (s.view (fSize f)).toNat = blockSize * s.nblocks f ∧
    s.view (fDir f) = 0 := by
  have hfits := hs.fits
  have hin := h.fits
  have hlen := HostDir.length_dirBlocks_le lo es'
  simp only [HostNode.blocks] at hin
  have hsize : (BitVec.ofNat 32 (blockSize * (es'.dirBlocks lo).length) : Word).toNat = blockSize *
      (es'.dirBlocks lo).length := by
    rw [BitVec.toNat_ofNat]
    apply Nat.mod_eq_of_lt
    unfold nblock at hfits
    unfold blockSize pageSize
    omega
  cases h.here hs with
  | dir _ _ _ hdir _ _ =>
    have hcount : s.nblocks f = (es'.dirBlocks lo).length := by
      unfold Fs.nblocks
      rw [hdir.size, hsize, Nat.mul_div_cancel_left _ (by decide)]
    refine ⟨hdir.type, hcount, ?_, hdir.link⟩
    rw [hdir.size, hsize, hcount]

theorem file_not_dir (h : Part es f lo (.file bytes)) (hs : s.Images es) : ¬s.IsDir f := by
  cases h.here hs with
  | file _ _ _ hfile =>
    intro hd
    exact absurd (hfile.type.symm.trans hd) (by decide)

end Part

/-- The entries of a directory of the tree are the nodes in it, and vacant ones. -/
theorem Part.entries {es' : HostDir} {e : Nat} (h : Part es f lo (.dir es')) (hs : s.Images es)
    (hb : (es'.dirBlocks lo)[i]? = some b) (he : Inside b e) : (∃ kid ∈ es'.kids lo, kid.ptr = e) ∨ s.Vacant e := by
  have hi := (List.getElem?_eq_some_iff.1 hb).1
  have hentries := entries_eq (es'.dirBlocks lo) i
  rw [List.getD_eq_getElem?_getD, hb, Option.getD_some] at hentries
  unfold Inside at he
  rw [hentries] at he
  obtain ⟨j, hj, rfl⟩ := List.mem_map.1 he
  have hj := List.mem_range.1 hj
  by_cases hk : file2blk * i + j < es'.len
  · left
    rw [← HostDir.length_kids lo] at hk
    exact ⟨_, List.getElem_mem hk, HostDir.getElem?_kids es' _ _ (List.getElem?_eq_getElem hk)⟩
  · right
    cases h.here hs with
    | dir _ _ _ hdir _ _ =>
      intro k hk'
      apply hdir.blank _ (Nat.not_lt.1 hk) _ k hk'
      unfold file2blk at *
      omega

/-- **The files are the nodes of the tree, and vacant entries.** -/
theorem file_part (hs : s.Images es) {f : Nat} (hf : File s f) : (∃ lo node, Part es f lo node) ∨ s.Vacant f := by
  induction hf with
  | root => exact .inl ⟨3, .dir es, .root⟩
  | entry d i b e _ hdir _ hb he ih =>
    rcases ih with ⟨lo, node, hpart⟩ | hvacant
    · cases node with
      | file bytes => exact absurd hdir (hpart.file_not_dir hs)
      | dir es' =>
        have hb : (es'.dirBlocks lo)[i]? = some b := ((hpart.holds hs).2 i).symm.trans hb
        rcases hpart.entries hs hb he with ⟨kid, hk, rfl⟩ | hvacant
        · exact .inl ⟨kid.lo, kid.node, .kid d lo es' kid hpart hk⟩
        · exact .inr hvacant
    · have hdir : s.view (fType d) = ftypeDir := hdir
      rw [show fType d = d + 33 from rfl, hvacant 33 (by decide)] at hdir
      cases hdir

/-! ## The volume -/

theorem vacant_holds (h : s.Vacant f) (u : Use) : s.vol.holds f u = none := by
  have hind : s.indirect f = none := if_pos (h 44 (by decide))
  cases u with
  | indirect => exact hind
  | block i =>
    show s.blockAt f i = none
    unfold blockAt slot
    by_cases h10 : i < nDirect
    · have hword : s.view (fDirect f i) = 0 := by
        unfold fDirect
        rw [Nat.add_assoc]
        apply h
        unfold nDirect at h10
        unfold fileWords
        omega
      rw [if_pos h10, Option.bind_some, if_pos hword]
    · rw [if_neg h10, hind, Option.map_none, ite_self]
      rfl

/-- **A block that a file holds** has this slot in the layout. -/
theorem holds_slots (hs : s.Images es) (hf : File s f) (hb : s.vol.holds f u = some b) :
    ((f, u), b) ∈ es.slots sRoot 3 := by
  rcases file_part hs hf with ⟨lo, node, hpart⟩ | hvacant
  · obtain ⟨i, c, hc, hx⟩ := (hpart.holds_iff hs).1 hb
    exact hpart.slots _ (ownBlocks_slots node hc hx)
  · cases (vacant_holds hvacant u).symm.trans hb

theorem slots_sole {x y : (Nat × Use) × Nat} (hx : x ∈ es.slots f lo) (hy : y ∈ es.slots f lo) (h : x.2 = y.2) :
    x = y := by
  have hnodup : ((es.slots f lo).map Prod.snd).Nodup := by
    rw [HostDir.slots_blocks]
    exact List.nodup_range'
  exact List.inj_on_of_nodup_map hnodup hx hy h

theorem slots_block {x : (Nat × Use) × Nat} (hx : x ∈ es.slots f lo) : lo ≤ x.2 ∧ x.2 < lo + es.blocks := by
  have hmem := List.mem_map_of_mem (f := Prod.snd) hx
  rw [HostDir.slots_blocks] at hmem
  exact List.mem_range'_1.1 hmem

theorem kid_inside {kid : Kid} (hk : kid ∈ es.kids lo) :
    ∃ i b : Nat, (es.dirBlocks lo)[i]? = some b ∧ Inside b kid.ptr := by
  obtain ⟨k, -, hlt, hptr⟩ := KidWord.kid_index hk
  refine ⟨k / file2blk, _, List.getElem?_eq_getElem hlt, mem_entries.2 ⟨k % file2blk, Nat.mod_lt _ (by decide), ?_⟩⟩
  rw [hptr, ← List.getD_eq_getElem _ 0 hlt]
  rfl

theorem slots_holds (hs : s.Images es) {node : HostNode} {m : Nat → Word} (h : Placed m f lo node) :
    Part es f lo node → File s f →
    ∀ x ∈ node.slots f lo, File s x.1.1 ∧ s.vol.holds x.1.1 x.1.2 = some x.2 := by
  induction h with
  | file f lo bytes _ =>
    rintro hpart hf ⟨⟨n, u⟩, c⟩ hx
    simp only [HostNode.slots] at hx
    obtain ⟨i, hi, hx⟩ := List.mem_flatMap.1 hx
    obtain ⟨rfl, -⟩ := mem_linkSlots hx
    exact ⟨hf, (hpart.holds_iff hs).2 ⟨i, _, getElem?_fileBlocks (List.mem_range.1 hi), hx⟩⟩
  | dir f lo es' _ _ _ ih =>
    rintro hpart hf ⟨⟨n, u⟩, c⟩ hx
    simp only [HostNode.slots] at hx
    obtain ⟨hdir, hcount, -, -⟩ := hpart.dir_size hs
    rcases HostDir.mem_slots es' _ hx with ⟨i, b, hb, hx⟩ | ⟨kid, hk, hx⟩
    · obtain ⟨rfl, -⟩ := mem_linkSlots hx
      exact ⟨hf, (hpart.holds_iff hs).2 ⟨i, b, hb, hx⟩⟩
    · obtain ⟨i, b, hb, hin⟩ := kid_inside hk
      have hi := (List.getElem?_eq_some_iff.1 hb).1
      exact ih kid hk (.kid f lo es' kid hpart hk)
        (.entry f i b kid.ptr hf hdir (Nat.lt_of_lt_of_eq hi hcount.symm) (((hpart.holds hs).2 i).trans hb) hin) _ hx

end Fsformat

namespace Fs.Images

variable {s : Fs} {es : HostDir} (hs : s.Images es)
include hs

theorem owned : Owned s := by
  refine ⟨hs.up, ?_, fun b hb => ?_, ?_, ?_⟩
  · rw [hs.count]
    decide
  · rw [hs.reserved] at hb
    apply Bool.eq_false_iff.2
    intro hc
    have := ((hs.free b).1 hc).1
    omega
  · intro n u b hn hb
    have := slots_block (holds_slots hs hn hb)
    exact hs.data this.1 this.2
  · intro n n' u u' b hn hn' hb hb'
    have heq := slots_sole (holds_slots hs hn hb) (holds_slots hs hn' hb') rfl
    simpa using heq

theorem dir_part {d : Nat} (hd : File s d) (hdir : s.IsDir d) : ∃ lo es', Part es d lo (.dir es') := by
  rcases file_part hs hd with ⟨lo, node, hpart⟩ | hvacant
  · cases node with
    | file bytes => exact absurd hdir (hpart.file_not_dir hs)
    | dir es' => exact ⟨lo, es', hpart⟩
  · have hdir : s.view (fType d) = ftypeDir := hdir
    rw [show fType d = d + 33 from rfl, hvacant 33 (by decide)] at hdir
    cases hdir

theorem sound : Sound s := by
  refine ⟨hs.owned, fun d hd hdir i => ?_, fun d hd hdir => ?_⟩
  · obtain ⟨lo, es', hpart⟩ := hs.dir_part hd hdir
    obtain ⟨-, hcount, -, -⟩ := hpart.dir_size hs
    show i < s.nblocks d ↔ (s.blockAt d i).isSome
    rw [hcount, (hpart.holds hs).2 i]
    simp [ownBlocks]
  · obtain ⟨lo, es', hpart⟩ := hs.dir_part hd hdir
    exact (hpart.dir_size hs).2.2.1

theorem unlinked {f : Nat} (hf : File s f) : s.view (fDir f) = 0 := by
  rcases file_part hs hf with ⟨lo, node, hpart⟩ | hvacant
  · cases hpart.here hs with
    | file _ _ _ hfile => exact hfile.link
    | dir _ _ _ hdir _ _ => exact hdir.link
  · exact hvacant 45 (by decide)

/-- **The volume is one that the requests keep.** -/
theorem kept : Fs.Kept s := by
  refine ⟨hs.sound, hs.unlinked .root, fun d i b e hd hdir hb he => .inl (hs.unlinked ?_)⟩
  exact .entry d i b e hd hdir ((hs.sound.blockAt_iff hd hdir).2 (by rw [hb]; rfl)) hb he

theorem blank : AllBlank s := by
  intro c k hc hk
  have hfree := (hs.free c).1 hc
  apply hs.disk.blank
  · rw [diskAddr_div c hk]
    exact hfree.1
  · rw [diskAddr_div c hk]
    exact hfree.2

/-- **Every block that is in use, behind the bitmap, is held by one file, in one of its slots.** -/
theorem held {b : Nat} (hle : 3 ≤ b) (hlt : b < s.sNblocks) (hused : s.blockIsFree b = false) :
    ∃! x : Nat × Use, File s x.1 ∧ s.vol.holds x.1 x.2 = some b := by
  have hb : b < 3 + es.blocks := by
    apply Nat.not_le.1
    intro hc
    rw [(hs.free b).2 ⟨hc, hs.count ▸ hlt⟩] at hused
    cases hused
  have hmem : b ∈ (es.slots sRoot 3).map Prod.snd := by
    rw [HostDir.slots_blocks]
    exact List.mem_range'_1.2 ⟨hle, hb⟩
  obtain ⟨x, hx, rfl⟩ := List.mem_map.1 hmem
  refine ⟨x.1, slots_holds hs hs.disk.root .root .root x (by simpa only [HostNode.slots] using hx), ?_⟩
  rintro y ⟨hn, hy⟩
  exact congrArg Prod.fst (slots_sole (holds_slots hs hn hy) hx rfl)

end Fs.Images

/-! ## Paths -/

namespace Fsformat

variable {s : Fs} {es : HostDir} {f lo n i b c : Nat} {node : HostNode} {bytes name : List (BitVec 8)}

theorem Part.listing {es' : HostDir} (h : Part es f lo (.dir es')) (hs : s.Images es) :
    s.listing f = (List.range (file2blk * (es'.dirBlocks lo).length)).map (entryAt (es'.dirBlocks lo)) := by
  have hblock := (h.holds hs).2
  obtain ⟨-, hcount, -, -⟩ := h.dir_size hs
  simp only [ownBlocks] at hblock
  unfold Fs.listing
  rw [hcount]
  generalize hbs : es'.dirBlocks lo = bs at hblock
  have hat : ∀ i ∈ List.range bs.length, s.entriesAt f i = (List.range file2blk).map fun j =>
      entryAt bs (file2blk * i + j) := by
    intro i hi
    have hi := List.mem_range.1 hi
    unfold entriesAt
    rw [hblock i, ← entries_eq bs i, List.getElem?_eq_getElem hi, List.getD_eq_getElem _ _ hi]
    rfl
  rw [List.flatMap_congr hat]
  clear hbs hblock hcount hat
  induction bs.length with
  | zero => rfl
  | succ k ih =>
    rw [List.range_succ, List.flatMap_append, ih, List.flatMap_singleton, Nat.mul_succ, List.range_add,
      List.map_append, List.map_map]
    rfl

theorem nameOf_nameAt (h : NameAt s.view f name) (hname : fitsEntry name = true) : s.nameOf f = name := by
  obtain ⟨-, hlen, h0, -⟩ := fitsEntry_iff.1 hname
  have hsplit : (List.range maxNameLen).map (fName s.view f) =
      name ++ (List.range (maxNameLen - name.length)).map fun i => fName s.view f (name.length + i) := by
    have hrange : List.range maxNameLen = List.range (name.length + (maxNameLen - name.length)) := by
      congr 1
      omega
    rw [hrange, List.range_add, List.map_append, List.map_map]
    congr 1
    apply List.ext_getElem
    · simp
    · intro i hi hi'
      rw [List.getElem_map, List.getElem_range, h i (by omega), List.getD_eq_getElem _ _ hi']
  have hzero : maxNameLen - name.length = (maxNameLen - name.length - 1) + 1 := by omega
  unfold Fs.nameOf
  rw [hsplit, List.takeWhile_append_of_pos]
  · rw [hzero, List.range_succ_eq_map, List.map_cons, List.takeWhile_cons, Nat.add_zero, h _ hlen,
      List.getD_eq_default _ _ (Nat.le_refl _)]
    simp
  · intro c hc
    simpa using fun heq : c = 0 => h0 (heq ▸ hc)

theorem nameOf_vacant (h : s.Vacant f) : s.nameOf f = [] := by
  apply nameOf_nil
  unfold fName byteAt
  rw [show (4 * f + 0) / 4 = f + 0 by omega, h 0 (by decide)]
  exact Fs.getByte_zero _

theorem fitting_kids (es : HostDir) (h : es.fitting = true) {kid : Kid} (hk : kid ∈ es.kids lo) :
    fitsEntry kid.name = true ∧ kid.node.fitting = true := by
  cases es with
  | nil => simp [HostDir.kids] at hk
  | snoc before name node =>
    simp only [HostDir.fitting, Bool.and_eq_true] at h
    simp only [HostDir.kids] at hk
    rcases List.mem_append.1 hk with hk | hk
    · exact fitting_kids before h.1.1 hk
    · obtain rfl := List.mem_singleton.1 hk
      exact ⟨h.1.2, h.2⟩

theorem Part.fitting (h : Part es f lo node) (hes : es.fitting = true) : node.fitting = true := by
  induction h with
  | root => simpa only [HostNode.fitting] using hes
  | kid f lo es' kid _ hk ih =>
    simp only [HostNode.fitting] at ih
    exact (fitting_kids es' ih hk).2

theorem lookup_kids (lo : Nat) (name : List (BitVec 8)) (es : HostDir) :
    es.lookup name = ((es.kids lo).find? fun kid => kid.name == name).map Kid.node := by
  cases es with
  | nil => rfl
  | snoc before n node =>
    have ih := lookup_kids lo name before
    simp only [HostDir.lookup, HostDir.kids]
    rw [ih, List.find?_append]
    cases (before.kids lo).find? fun kid => kid.name == name with
    | some kid => rfl
    | none =>
      by_cases hn : n = name
      · simp [hn]
      · simp [hn]

/-- **The entries of a directory** are those of the tree, and vacant ones behind them. -/
theorem Part.listing_kids {es' : HostDir} (h : Part es f lo (.dir es')) (hs : s.Images es) :
    ∃ blanks, s.listing f = (es'.kids lo).map Kid.ptr ++ blanks ∧ (∀ e ∈ blanks, s.Vacant e) ∧
      ∀ kid ∈ es'.kids lo, s.nameOf kid.ptr = kid.name := by
  have hfit := h.fitting hs.fitting
  simp only [HostNode.fitting] at hfit
  have hlen := HostDir.length_dirBlocks lo es'
  have hkids : (List.range es'.len).map (entryAt (es'.dirBlocks lo)) = (es'.kids lo).map Kid.ptr := by
    apply List.ext_getElem
    · simp [HostDir.length_kids]
    · intro k hk hk'
      rw [List.getElem_map, List.getElem_range, List.getElem_map]
      rw [List.length_map] at hk'
      exact (HostDir.getElem?_kids es' k _ (List.getElem?_eq_getElem hk')).symm
  have hrange : List.range (file2blk * (es'.dirBlocks lo).length) =
      List.range (es'.len + (file2blk * (es'.dirBlocks lo).length - es'.len)) := by
    congr 1
    unfold file2blk at *
    omega
  rw [h.listing hs, hrange, List.range_add, List.map_append, hkids]
  cases h.here hs with
  | dir _ _ _ hdir hnames _ =>
    refine ⟨_, rfl, fun e he => ?_, fun kid hk => nameOf_nameAt (hnames kid hk) (fitting_kids es' hfit hk).1⟩
    obtain ⟨k', hk', rfl⟩ := List.mem_map.1 he
    obtain ⟨k, hk, rfl⟩ := List.mem_map.1 hk'
    have hk := List.mem_range.1 hk
    exact fun j hj => hdir.blank _ (Nat.le_add_right _ _) (by omega) j hj

/-- **A name is looked up** in a directory as in the tree. -/
theorem Part.lookup {es' : HostDir} (h : Part es f lo (.dir es')) (hs : s.Images es) (hne : name ≠ []) :
    s.lookup f name = ((es'.kids lo).find? fun kid => kid.name == name).map Kid.ptr := by
  obtain ⟨blanks, hlist, hblanks, hnames⟩ := h.listing_kids hs
  have hsame : (es'.kids lo).find? ((fun f => s.nameOf f == name) ∘ Kid.ptr) = (es'.kids lo).find? fun kid =>
      kid.name == name := by
    apply List.find?_congr
    intro kid hk
    rw [Function.comp_apply, hnames kid hk]
  have hnone : blanks.find? (fun f => s.nameOf f == name) = none := by
    apply List.find?_eq_none.2
    intro e he
    rw [nameOf_vacant (hblanks e he)]
    simpa using Ne.symm hne
  unfold Fs.lookup
  rw [hlist, List.find?_append, List.find?_map, hsame, hnone, Option.or_none]

theorem names_kids (lo : Nat) (es : HostDir) : (es.kids lo).map Kid.name = es.names := by
  cases es with
  | nil => rfl
  | snoc before name node =>
    have ih := names_kids lo before
    simp only [HostDir.kids, HostDir.names]
    rw [List.map_append, ih]
    rfl

/-- **A directory lists its names**, in the order in which they came. -/
theorem Part.names {es' : HostDir} (h : Part es f lo (.dir es')) (hs : s.Images es) :
    ((s.listing f).map s.nameOf).filter (· ≠ []) = es'.names := by
  obtain ⟨blanks, hlist, hblanks, hnames⟩ := h.listing_kids hs
  have hfit := h.fitting hs.fitting
  simp only [HostNode.fitting] at hfit
  have hkids : ((es'.kids lo).map Kid.ptr).map s.nameOf = es'.names := by
    rw [← names_kids lo es', List.map_map]
    exact List.map_congr_left hnames
  rw [hlist, List.map_append, List.filter_append, hkids, List.filter_eq_self.2,
    List.filter_eq_nil_iff.2, List.append_nil]
  · intro n hn
    obtain ⟨e, he, rfl⟩ := List.mem_map.1 hn
    simp [nameOf_vacant (hblanks e he)]
  · intro n hn
    rw [← names_kids lo es'] at hn
    obtain ⟨kid, hk, rfl⟩ := List.mem_map.1 hn
    simpa using (fitsEntry_iff.1 (fitting_kids es' hfit hk).1).1

/-- **A path leads where it leads in the tree**, and otherwise nowhere. -/
theorem Part.resolve (hs : s.Images es) {names : List (List (BitVec 8))} (hne : ∀ n ∈ names, n ≠ []) :
    ∀ {p : Option Nat} {f lo : Nat} {node : HostNode},
    Part es f lo node →
    (∀ node', node.at names = some node' → ∃ p' f' lo', s.resolve p f names = ⟨0, p', some f', []⟩ ∧
      Part es f' lo' node') ∧
    (node.at names = none → (s.resolve p f names).pfile = none) := by
  induction names with
  | nil =>
    intro p f lo node h
    refine ⟨fun node' hat => ?_, fun hat => ?_⟩
    · cases (show some node = some node' by simpa only [HostNode.at] using hat)
      exact ⟨p, f, lo, rfl, h⟩
    · simp only [HostNode.at] at hat
      cases hat
  | cons name names ih =>
    intro p f lo node h
    obtain ⟨hname, hrest⟩ := List.forall_mem_cons.1 hne
    rw [Fs.resolve]
    cases node with
    | file bytes =>
      have hreg : s.view (fType f) ≠ ftypeDir := h.file_not_dir hs
      refine ⟨fun node' hat => ?_, fun _ => ?_⟩
      · simp only [HostNode.at] at hat
        cases hat
      · rw [if_pos hreg]
        split <;> rfl
    | dir es' =>
      have hdir : s.view (fType f) = ftypeDir := (h.dir_size hs).1
      have hfit := h.fitting hs.fitting
      simp only [HostNode.fitting] at hfit
      rw [if_neg (not_not.2 hdir), h.lookup hs hname]
      simp only [HostNode.at]
      rw [lookup_kids lo]
      cases hfind : (es'.kids lo).find? fun kid => kid.name == name with
      | none =>
        refine ⟨fun node' hat => ?_, fun _ => ?_⟩
        · cases hat
        simp only [Option.map_none]
        split
        · rfl
        · split <;> rfl
      | some kid =>
        have hk := List.mem_of_find?_eq_some hfind
        have hkn : kid.name = name := by simpa using List.find?_some hfind
        have hlen : ¬maxNameLen ≤ name.length := by
          rw [← hkn]
          exact Nat.not_le.2 (fitsEntry_iff.1 (fitting_kids es' hfit hk).1).2.1
        rw [if_neg hlen]
        exact ih hrest (.kid f lo es' kid h hk)

/-! ## Files -/

/-- **The bytes of a file** are those of the host, and zeroes behind them. -/
theorem Part.contents (h : Part es f lo (.file bytes)) (hs : s.Images es) :
    (s.view (fSize f)).toNat = bytes.length ∧ ∀ p, s.byteAtPos f p = bytes.getD p 0 := by
  have hblock := (h.holds hs).2
  have hfits := hs.fits
  have hin := h.fits
  have hspan := span_ge (chunks bytes)
  simp only [HostNode.blocks] at hin
  simp only [ownBlocks] at hblock
  have hchunks : bytes.length ≤ blockSize * chunks bytes := by
    unfold chunks blockSize pageSize
    omega
  cases h.here hs with
  | file _ _ _ hfile =>
    refine ⟨?_, fun p => ?_⟩
    · rw [hfile.size, BitVec.toNat_ofNat]
      apply Nat.mod_eq_of_lt
      unfold nblock at hfits
      unfold blockSize pageSize at hchunks
      omega
    · unfold byteAtPos byteOf
      rw [hblock]
      by_cases hp : p / blockSize < (fileBlocks lo (chunks bytes)).length
      · have hbyte := hfile.contents (p / blockSize) hp (p % blockSize) (Nat.mod_lt p (by decide))
        unfold byteAt at hbyte
        rw [List.getD_eq_getElem _ _ hp, Nat.mul_add_div (by decide), Nat.mul_add_mod, Nat.div_add_mod] at hbyte
        rw [List.getElem?_eq_getElem hp, ← hbyte, Nat.mod_mod_of_dvd p (by decide)]
        rfl
      · rw [List.getElem?_eq_none (Nat.not_lt.1 hp)]
        rw [length_fileBlocks] at hp
        rw [List.getD_eq_default]
        · rfl
        · unfold blockSize pageSize at *
          omega

theorem Part.shows (h : Part es f lo node) (hs : s.Images es) : s.Shows f node := by
  cases node with
  | file bytes =>
    obtain ⟨hsize, hbytes⟩ := h.contents hs
    exact .file bytes (h.file_not_dir hs) hsize hbytes
  | dir es' => exact .dir es' (h.dir_size hs).1 (h.names hs)

/-- **A block of a file is got**, after paths have been walked, with the bytes of the host. -/
theorem Part.block {s' : Fs} {P : Nat → Prop} (h : Part es f lo (.file bytes)) (hs : s.Images es) (hp : Passes P s s')
    (hP : ∀ f, P f → Entry s f) (hf : File s f) (hheld : Fs.Held s' f) (hpages : s.pages = []) (hi : i < chunks bytes) :
    ∃ a s'', fileGetBlock f i s' = some (.ok a, s'') ∧
      ∀ j < blockSize, byteAt s''.mem (4 * a + j) = (chunk bytes i).getD j 0 := by
  have hkept := (hs.kept.passes hp hP).1
  have hsame := hs.kept.same_passes hp hP hf
  have hf' := (hs.kept.stays_passes hp hP).file f hf
  have hb : s.blockAt f i = some (lo + span i) := ((h.holds hs).2 i).trans (getElem?_fileBlocks hi)
  have hb' : s'.blockAt f i = some (lo + span i) := (hsame.blockAt i).trans hb
  obtain ⟨r, s'', hget, hl, ⟨a, rfl, rfl, hmapped⟩ | hout⟩ := fileGetBlock_spec hheld hb'
    (hkept.toOwned.data_block hf' hb') hkept.up fun c _ hc => hkept.toOwned.data_indirect hf' hc
  · refine ⟨_, s'', hget, fun j hj => ?_⟩
    have hword : (4 * diskAddr (lo + span i) + j) / 4 = diskAddr (lo + span i) + j / 4 := by omega
    have hk : j / 4 < blockWords := by
      unfold blockSize pageSize at hj
      unfold blockWords
      omega
    have hblock : (diskAddr (lo + span i) + j / 4) / blockWords = lo + span i := by
      unfold diskAddr blockWords at *
      omega
    have hview : s''.mem (diskAddr (lo + span i) + j / 4) = s.view (diskAddr (lo + span i) + j / 4) := by
      rw [mem_eq_view (hblock.symm ▸ hmapped), hl.view]
      exact hsame.data (h.file_not_dir hs) i _ hb _ hk
    cases h.here hs with
    | file _ _ _ hfile =>
      have hbyte := hfile.contents i (by rw [length_fileBlocks]; exact hi) j hj
      rw [List.getD_eq_getElem?_getD, getElem?_fileBlocks hi, Option.getD_some] at hbyte
      rw [getD_chunk hj, ← hbyte]
      unfold byteAt
      rw [hword, hview]
  · have hmem := hp.pages.mem hout.2.1
    rw [hpages] at hmem
    cases hmem

/-- **What is found is got** from the image. -/
theorem Part.yields {s' : Fs} {P : Nat → Prop} (h : Part es f lo node) (hs : s.Images es) (hp : Passes P s s')
    (hP : ∀ f, P f → Entry s f) (hf : File s f) (hheld : Fs.Held s' f) (hpages : s.pages = []) : s'.Yields f node := by
  have hsame := hs.kept.same_passes hp hP hf
  have htype : s'.mem (fType f) = s.view (fType f) := (mem_eq_view (hheld 33 (by decide))).trans hsame.type
  have hsize : s'.mem (fSize f) = s.view (fSize f) := (mem_eq_view (hheld 32 (by decide))).trans hsame.size
  cases node with
  | file bytes =>
    refine .file bytes ?_ ?_ fun i hi => h.block hs hp hP hf hheld hpages hi
    · rw [htype]
      cases h.here hs with
      | file _ _ _ hfile => exact hfile.type
    · rw [hsize]
      exact (h.contents hs).1
  | dir es' =>
    obtain ⟨hdir, hcount, hbytes, -⟩ := h.dir_size hs
    refine .dir es' (htype.trans hdir) ?_
    rw [hsize, hbytes, hcount, HostDir.length_dirBlocks]

end Fsformat

namespace Fs.Images

variable {s : Fs} {es : HostDir} (hs : s.Images es)
include hs

theorem free_vacant {d f : Nat} (hd : Dir s d) (hf : s.freeEntry d = some f) : s.Vacant f := by
  obtain ⟨lo, es', hpart⟩ := hs.dir_part hd.file hd.isDir
  have hfit := hpart.fitting hs.fitting
  simp only [HostNode.fitting] at hfit
  obtain ⟨i, -, b, hb, hin⟩ := mem_listing.1 (List.mem_of_find?_eq_some hf)
  rcases hpart.entries hs (((hpart.holds hs).2 i).symm.trans hb) hin with ⟨kid, hk, rfl⟩ | hvacant
  · cases hpart.here hs with
    | dir _ _ _ _ hnames _ =>
      -- an entry of the tree has a name
      have hfirst : fName s.view kid.ptr 0 = 0 := by simpa using List.find?_some hf
      rw [hnames kid hk 0 (by decide)] at hfirst
      exact absurd hfirst (fitsEntry_first (fitting_kids es' hfit hk).1)
  · exact hvacant

/-- **A walk on the image** leads where the path leads in the tree. -/
theorem walk (hpages : s.pages = []) {path : List (BitVec 8)} (h0 : (0 : BitVec 8) ∉ path) :
    ∃ w s', walkPath path s = some (.ok w, s') ∧ Passes (· ∈ s.passed sRoot (components path)) s s' ∧
      match (HostNode.dir es).at (components path) with
      | some node => ∃ p f lo, w = ⟨0, p, some f, []⟩ ∧ Part es f lo node ∧ File s f ∧ Fs.Held s' f
      | none => w.r ≠ 0 ∧ w.pfile = none := by
  obtain ⟨w, s', hwalk, hp, harrived, rfl | hstarved⟩ := walkPath_spec hs.sound.tree h0
  · obtain ⟨hsome, hnone⟩ := Part.resolve hs (@components_ne_nil path) (p := none) .root
    refine ⟨_, s', hwalk, hp, ?_⟩
    cases hat : (HostNode.dir es).at (components path) with
    | none =>
      have hmiss := hnone hat
      rcases path_cases s path with ⟨p, f, hr, -⟩ | ⟨d, name, hr, -⟩ | hr | hr
      · rw [hr] at hmiss
        cases hmiss
      all_goals
        rw [hr]
        refine ⟨?_, rfl⟩
        dsimp only
        decide
    | some node =>
      obtain ⟨p, f, lo, hr, hpart⟩ := hsome node hat
      exact ⟨p, f, lo, hr, hpart, (path_found hr).file, (harrived.file f (congrArg Walked.pfile hr)).held⟩
  · have hmem := hstarved.2.1
    rw [hpages] at hmem
    cases hmem

/-- **The file of a path** has the bytes that the file of the tree has. -/
theorem shows {path bytes : List (BitVec 8)} (hat : (HostNode.dir es).at (components path) = some (.file bytes)) :
    ShowsFile s path ⟨bytes.length, fun p => bytes.getD p 0⟩ := by
  obtain ⟨p, f, lo, hr, hpart⟩ := (Part.resolve hs components_ne_nil (p := none) .root).1 _ hat
  obtain ⟨hsize, hbytes⟩ := hpart.contents hs
  exact ⟨hs.kept, hs.blank, .inl ⟨f, ⟨p, hr⟩, hpart.file_not_dir hs, hsize, hbytes⟩⟩

theorem shows_none {path : List (BitVec 8)} (hat : (HostNode.dir es).at (components path) = none) :
    ShowsFile s path ⟨0, fun _ => 0⟩ := by
  have hnone := (Part.resolve hs components_ne_nil (p := none) .root).2 hat
  refine ⟨hs.kept, hs.blank, .inr ⟨fun p f hr => ?_, fun d name f hr hf k _ hk => ?_, rfl, fun _ => rfl⟩⟩
  · rw [hr] at hnone
    cases hnone
  · exact hs.free_vacant (path_missing hr).dir hf k (Nat.lt_trans hk (by decide))

end Fs.Images

/-! ## What the tool writes for the server -/

namespace Fsformat

variable {args : Args} {disk : Nat → Word} {s : Fs}

/-- **The tool writes an image, and the server sees the tree on it.** -/
theorem main_boots (hne : args ≠ []) (hnames : (argsDir args).fitting = true)
    (hfit : 3 + (argsDir args).blocks ≤ nblock) :
    ∃ disk s, main args = some disk ∧ fsInit (restart disk) = some (.ok (), s) ∧ s.Images (argsDir args) := by
  obtain ⟨disk, d, hformat, -, hdisk⟩ := format_spec hne hnames hfit
  obtain ⟨s, hinit, hs⟩ := hdisk.boots hfit hnames
  exact ⟨disk, s, main_of_format hformat, hinit, hs⟩

/-- **The volume on the image**: the requests keep it, what is free is blank, the blocks of the tree are in use and no
others, and each of them is held by one file in one of its slots. -/
theorem image_sound (hne : args ≠ []) (hnames : (argsDir args).fitting = true)
    (hfit : 3 + (argsDir args).blocks ≤ nblock) :
    ∃ disk s, main args = some disk ∧ fsInit (restart disk) = some (.ok (), s) ∧ Fs.Kept s ∧ AllBlank s ∧
      (∀ b, s.blockIsFree b = true ↔ 3 + (argsDir args).blocks ≤ b ∧ b < nblock) ∧
      ∀ b, 3 ≤ b → b < nblock → s.blockIsFree b = false → ∃! x : Nat × Use, File s x.1 ∧
        s.vol.holds x.1 x.2 = some b := by
  obtain ⟨disk, s, hmain, hinit, hs⟩ := main_boots hne hnames hfit
  exact ⟨disk, s, hmain, hinit, hs.kept, hs.blank, hs.free, fun b hle hlt => hs.held hle (hs.count ▸ hlt)⟩

/-- The file `/a` with three bytes, and the empty directory `/d`. -/
def twoArgs : Args := [([0x61], .file [1, 2, 3]), ([0x64], .dir .nil)]

theorem image_sound_two :
    ∃ disk s, main twoArgs = some disk ∧ fsInit (restart disk) = some (.ok (), s) ∧ Fs.Kept s ∧ AllBlank s ∧
      (∀ b, s.blockIsFree b = true ↔ 5 ≤ b ∧ b < nblock) ∧
      ∀ b, 3 ≤ b → b < nblock → s.blockIsFree b = false → ∃! x : Nat × Use, File s x.1 ∧ s.vol.holds x.1 x.2 = some b :=
  image_sound (by decide) (by decide) (by decide)

/-- **The server opens what is in the tree**, and nothing else: a file has the bytes of the host's, a directory lists
its names, before and after the open. -/
theorem image_opens (hne : args ≠ []) (hnames : (argsDir args).fitting = true)
    (hfit : 3 + (argsDir args).blocks ≤ nblock) :
    ∃ disk s, main args = some disk ∧ fsInit (restart disk) = some (.ok (), s) ∧ ∀ path, (0 : BitVec 8) ∉ path →
      ∃ r s', fileOpen path s = some (r, s') ∧
        match (HostNode.dir (argsDir args)).at (components path) with
        | some node => ∃ f, r = .ok f ∧ s.Shows f node ∧ s'.Shows f node
        | none => ∃ e, r = .error e := by
  obtain ⟨disk, s, hmain, hinit, hs⟩ := main_boots hne hnames hfit
  refine ⟨disk, s, hmain, hinit, fun path h0 => ?_⟩
  obtain ⟨w, s', hwalk, hp, hw⟩ := hs.walk (fsInit_pages hinit) h0
  unfold fileOpen
  rw [bind_of_ok hwalk]
  cases hat : (HostNode.dir (argsDir args)).at (components path) with
  | none =>
    rw [hat] at hw
    rw [hw.2]
    exact ⟨_, s', rfl, _, rfl⟩
  | some node =>
    rw [hat] at hw
    obtain ⟨p, f, lo, rfl, hpart, hf, -⟩ := hw
    exact ⟨_, s', rfl, f, rfl, hpart.shows hs, (hpart.shows hs).passes hs.kept hp walk_entry hf⟩

theorem image_opens_two : ∃ disk s, main twoArgs = some disk ∧ fsInit (restart disk) = some (.ok (), s) ∧ ∃ s' f,
    fileOpen [slash, 0x61] s = some (.ok f, s') ∧ s.Shows f (.file [1, 2, 3]) ∧ s'.Shows f (.file [1, 2, 3]) := by
  obtain ⟨disk, s, hmain, hinit, hopens⟩ := @image_opens twoArgs (by decide) (by decide) (by decide)
  obtain ⟨r, s', hopen, hshows⟩ := hopens [slash, 0x61] (by decide)
  rw [show (HostNode.dir (argsDir twoArgs)).at (components [slash, 0x61]) = some (.file [1, 2, 3]) from rfl] at hshows
  obtain ⟨f, rfl, hf⟩ := hshows
  exact ⟨disk, s, hmain, hinit, s', f, hopen, hf⟩

/-- **The round trip**: `walk_path` finds what is in the tree and nothing else, with its type and its size, and of a
file every block as the host has it; the bitmap has the blocks that were not taken as free, and each block that was
taken is in one slot of one file. -/
theorem image_round_trip (hne : args ≠ []) (hnames : (argsDir args).fitting = true)
    (hfit : 3 + (argsDir args).blocks ≤ nblock) :
    ∃ disk d s, format args ⟨fun _ => 0, 0⟩ = some (.ok disk, d) ∧ fsInit (restart disk) = some (.ok (), s) ∧
      (∀ path, (0 : BitVec 8) ∉ path → ∃ w s', walkPath path s = some (.ok w, s') ∧
        match (HostNode.dir (argsDir args)).at (components path) with
        | some node => w.r = 0 ∧ ∃ f, w.pfile = some f ∧ s'.Yields f node
        | none => w.r ≠ 0 ∧ w.pfile = none) ∧
      (∀ b < blockSizeBit, (disk (bitmapWord b)).getLsbD (b % 32) = decide (d.nextbno ≤ b ∧ b < nblock)) ∧
      ∀ b, 3 ≤ b → b < d.nextbno → ∃! x : Nat × Use, File s x.1 ∧ s.vol.holds x.1 x.2 = some b := by
  obtain ⟨disk, d, hformat, hnext, hdisk⟩ := format_spec hne hnames hfit
  obtain ⟨s, hinit, hs⟩ := hdisk.boots hfit hnames
  refine ⟨disk, d, s, hformat, hinit, fun path h0 => ?_, fun b hb => hnext.symm ▸ hdisk.bits b hb, fun b hle hlt => ?_⟩
  · obtain ⟨w, s', hwalk, hp, hw⟩ := hs.walk (fsInit_pages hinit) h0
    refine ⟨w, s', hwalk, ?_⟩
    cases hat : (HostNode.dir (argsDir args)).at (components path) with
    | none =>
      rw [hat] at hw
      exact hw
    | some node =>
      rw [hat] at hw
      obtain ⟨p, f, lo, rfl, hpart, hf, hheld⟩ := hw
      exact ⟨rfl, f, rfl, hpart.yields hs hp walk_entry hf hheld (fsInit_pages hinit)⟩
  · rw [hnext] at hlt
    refine hs.held hle (hs.count ▸ Nat.lt_of_lt_of_le hlt hfit) (Bool.eq_false_iff.2 fun hfree => ?_)
    exact Nat.not_le.2 hlt ((hs.free b).1 hfree).1

theorem image_round_trip_two : ∃ disk d s, format twoArgs ⟨fun _ => 0, 0⟩ = some (.ok disk, d) ∧
    fsInit (restart disk) = some (.ok (), s) ∧ ∃ w s' f, walkPath [slash, 0x61] s =
    some (.ok w, s') ∧ w.pfile = some f ∧
      ∃ a s'', fileGetBlock f 0 s' = some (.ok a, s'') ∧ byteAt s''.mem (4 * a + 2) = 3 ∧
        byteAt s''.mem (4 * a + 3) = 0 := by
  obtain ⟨disk, d, s, hformat, hinit, hwalks, -⟩ := @image_round_trip twoArgs (by decide) (by decide) (by decide)
  obtain ⟨w, s', hwalk, hfound⟩ := hwalks [slash, 0x61] (by decide)
  rw [show (HostNode.dir (argsDir twoArgs)).at (components [slash, 0x61]) = some (.file [1, 2, 3]) from rfl] at hfound
  obtain ⟨-, f, hf, hyields⟩ := hfound
  cases hyields with
  | file _ _ _ hblocks =>
    obtain ⟨a, s'', hget, hbytes⟩ := hblocks 0 (by decide)
    exact ⟨disk, d, s, hformat, hinit, w, s', f, hwalk, hf, a, s'', hget, hbytes 2 (by decide), hbytes 3 (by decide)⟩

/-- What a path has in it, where it is no directory of the tree. -/
def fileOf (es : HostDir) (path : List (BitVec 8)) : Option Contents :=
  match (HostNode.dir es).at (components path) with
  | some (.file bytes) => some ⟨bytes.length, fun p => bytes.getD p 0⟩
  | some (.dir _) => none
  | none => some ⟨0, fun _ => 0⟩

/-- A client of the server, with no file open, beside the contents. -/
structure Begins (s : Fs) (x : Contents) (t : FileSession) : Prop where
  volume : t.client.srv.fs = s
  closed : t.fd = none
  alone : ∀ va p k, t.client.page va = some p → p.frame ≠ .openFile k
  file : t.file = x

theorem begins_init {es : HostDir} (hs : s.Images es) {path : List (BitVec 8)} {x : Contents}
    (hx : fileOf es path = some x) {t : FileSession} (h : Begins s x t) : FileSession.Init path t := by
  have hshows : ShowsFile s path x ∧ x.Bounded := by
    unfold fileOf at hx
    split at hx
    · rename_i bytes hat
      cases hx
      refine ⟨hs.shows hat, ?_, fun p hp => List.getD_eq_default _ _ hp⟩
      obtain ⟨p, f, lo, -, hpart⟩ := (Part.resolve hs (@components_ne_nil path) (p := none) .root).1 _ hat
      have hfits := hs.fits
      have hin := hpart.fits
      have hspan := span_ge (chunks bytes)
      simp only [HostNode.blocks] at hin
      unfold chunks at *
      unfold nblock at hfits
      unfold maxFileSize nIndirect blockSize pageSize at *
      dsimp only
      omega
    · cases hx
    · rename_i hat
      cases hx
      exact ⟨hs.shows_none hat, Nat.zero_le _, fun _ _ => rfl⟩
  obtain ⟨hshows, hbounded⟩ := hshows
  exact ⟨h.closed, ⟨h.volume ▸ h.file ▸ hshows, h.alone⟩, h.file ▸ hbounded⟩

/-- **A client reads what the host's file had**, and what it wrote over it: in every run of a client of the server
that has started on the image, a read gets the bytes of an array that begins as the file of the tree. -/
theorem image_reads (hne : args ≠ []) (hnames : (argsDir args).fitting = true)
    (hfit : 3 + (argsDir args).blocks ≤ nblock) :
    ∃ disk s, main args = some disk ∧ fsInit (restart disk) = some (.ok (), s) ∧
      ∀ drivers path x t, (0 : BitVec 8) ∉ path → fileOf (argsDir args) path = some x →
        Run (Begins s x) (FileSession.step drivers path) (FileSession.Safe drivers path) t →
        ∀ fd omode, t.fd = some (fd, omode) → omode &&& oAccmode ≠ oWronly →
          ∀ va n : Word, t.offset + n.toNat < 2 ^ 32 →
          Client.InUser utop va (t.file.read t.offset n.toNat).length → ∃ c', Client.read drivers fd va n t.client =
            some (.ok (BitVec.ofNat 32 (t.file.read t.offset n.toNat).length, t.file.read t.offset n.toNat), c') := by
  obtain ⟨disk, s, hmain, hinit, hs⟩ := main_boots hne hnames hfit
  refine ⟨disk, s, hmain, hinit, fun drivers path x t h0 hx hrun fd omode hfd hmode va n hn hbuf => ?_⟩
  have hinv : FileSession.Inv path t := Run.invariant (FileSession.Inv path)
    (fun t₀ h => by
      obtain ⟨hfd, hclosed, hb⟩ := begins_init hs hx h
      exact .of_closed hb hfd hclosed)
    (fun _ _ _ hi hsafe ht => hi.step h0 hsafe ht) t hrun
  obtain ⟨f, j, hd⟩ := hinv.opened fd omode hfd
  obtain ⟨r, c', hread, -, hreads⟩ := hd.read drivers hinv.bounded.size hn hbuf
  obtain ⟨rfl, -⟩ := hreads hmode
  exact ⟨c', hread⟩

/-- The client that opens `/a` on the server. -/
def readsA (s : Fs) : FileSession :=
  { FileSession.atBoot with
    client := { FileSession.atBoot.client with srv := { FileSession.atBoot.client.srv with fs := s } }
    file := ⟨3, fun p => ([1, 2, 3] : List (BitVec 8)).getD p 0⟩ }

theorem image_reads_two :
    ∃ disk s, main twoArgs = some disk ∧ fsInit (restart disk) = some (.ok (), s) ∧
    (readsA s).file.read 0 5 = [1, 2, 3] ∧
    ∀ t, Run (· = readsA s) (FileSession.step FileSession.filesOnly [slash, 0x61])
    (FileSession.Safe FileSession.filesOnly [slash, 0x61]) t →
      ∀ fd, t.fd = some (fd, 0) → ∀ va n : Word, t.offset + n.toNat < 2 ^ 32 →
        Client.InUser utop va (t.file.read t.offset n.toNat).length →
          ∃ c', Client.read FileSession.filesOnly fd va n t.client =
          some (.ok (BitVec.ofNat 32 (t.file.read t.offset n.toNat).length, t.file.read t.offset n.toNat), c') := by
  obtain ⟨disk, s, hmain, hinit, hreads⟩ := @image_reads twoArgs (by decide) (by decide) (by decide)
  refine ⟨disk, s, hmain, hinit, rfl, fun t hrun fd hfd va n hn hbuf => ?_⟩
  have hbegins : Begins s (readsA s).file (readsA s) := ⟨rfl, rfl, fun va p k hp => (by cases hp), rfl⟩
  exact hreads _ [slash, 0x61] (readsA s).file t (by decide) rfl (.trans (.start _ hbegins) hrun) fd 0 hfd
    (by decide) va n hn hbuf

end Fsformat

end Mos
