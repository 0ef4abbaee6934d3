import Mos.FsView
/-!
# FsTree — the tree of directories, and what a path resolves to in it

The objects of the tree are the root and the entries of its directories that have a name.  `resolve` looks the
components of a path up one after another; `Passes` is a state in which blocks may have been loaded and some entries
have got their `f_dir`, which changes nothing of that.
-/
namespace Mos

open Fallible FilePtr

namespace Fs

/-! ## Directories -/

/-- `f_size / BLOCK_SIZE` -/
def nblocks (s : Fs) (d : Nat) : Nat := (s.view (fSize d)).toNat / blockSize

def IsDir (s : Fs) (f : Nat) : Prop := s.view (fType f) = ftypeDir

/-- The name of an entry. -/
def nameOf (s : Fs) (f : Nat) : List (BitVec 8) := ((List.range maxNameLen).map (fName s.view f)).takeWhile (· != 0)

/-- The entries of one block of a directory, and of all of them. -/
def entriesAt (s : Fs) (d i : Nat) : List Nat := ((s.blockAt d i).map fun b => entries (diskAddr b)).getD []

def listing (s : Fs) (d : Nat) : List Nat := (List.range (s.nblocks d)).flatMap (s.entriesAt d)

/-- **The entry with a name.** -/
def lookup (s : Fs) (d : Nat) (name : List (BitVec 8)) : Option Nat := (s.listing d).find? fun f => s.nameOf f == name

/-- **The objects of the tree.** -/
inductive Object (s : Fs) : Nat → Prop where
  | root : Object s sRoot
  | entry (d f : Nat) : Object s d → s.IsDir d → f ∈ s.listing d → s.nameOf f ≠ [] → Object s f

/-- A directory of the tree. -/
structure Dir (s : Fs) (d : Nat) : Prop where
  object : Object s d
  isDir : s.IsDir d

/-- **A tree whose directories have all their blocks.** -/
structure Tree (s : Fs) : Prop where
  up : Up s
  block : ∀ d, Dir s d → ∀ i < s.nblocks d, ∃ b, s.blockAt d i = some b ∧ Data s b
  indirect : ∀ d, Dir s d → nDirect < s.nblocks d → ∀ b, s.indirect d = some b → Data s b
  apart : ∀ d e, Dir s d → Dir s e → nDirect < s.nblocks d → ∀ i < s.nblocks e, ∀ b, s.blockAt e i = some b →
    s.indirect d ≠ some b

/-! ## Paths -/

/-- The components of a path. -/
def components (path : List (BitVec 8)) : List (List (BitVec 8)) := (path.splitOn slash).filter (· ≠ [])

/-- **What a path resolves to**, from the object `file` in the directory `dir` on. -/
def resolve (s : Fs) : Option Nat → Nat → List (List (BitVec 8)) → Walked
  | dir, file, [] => ⟨0, dir, some file, []⟩
  | _, file, name :: names =>
    if maxNameLen ≤ name.length then ⟨-eBadPath, none, none, []⟩
    else if s.view (fType file) ≠ ftypeDir then ⟨-eNotFound, none, none, []⟩
    else match s.lookup file name with
      | some f => resolve s (some file) f names
      | none => if names = [] then ⟨-eNotFound, some file, none, name⟩ else ⟨-eNotFound, none, none, []⟩

/-- The entries that are passed through. -/
def passed (s : Fs) : Nat → List (List (BitVec 8)) → List Nat
  | _, [] => []
  | file, name :: names =>
    if maxNameLen ≤ name.length then []
    else if s.view (fType file) ≠ ftypeDir then []
    else match s.lookup file name with
      | some f => f :: passed s f names
      | none => []

/-! ## States that differ in `f_dir` -/

/-- **Blocks may have been loaded, and the entries of `P` have another `f_dir`**: the directory they are in. -/
structure Passes (P : Nat → Prop) (s s' : Fs) : Prop where
  view : ∀ a, (∀ f, P f → a ≠ fDir f) → s'.view a = s.view a
  link : ∀ f, P f → s'.view (fDir f) = s.view (fDir f) ∨
    ∃ d, Dir s d ∧ f ∈ s.listing d ∧ Held s' d ∧ s'.view (fDir f) = addrOf d
  mapped : ∀ b, s.mapped b = true → s'.mapped b = true
  read : ∀ b, s'.mapped b = true → s.mapped b = true ∨ s.blockIsFree b = false
  dirty : ∀ b, s.mapped b = true → s'.dirty b = s.dirty b
  disk : s'.disk = s.disk
  super : s'.super = s.super
  bitmap : s'.bitmap = s.bitmap
  pages : s'.pages <:+ s.pages

theorem mem_entries {a f : Nat} : f ∈ entries a ↔ ∃ j < file2blk, f = a + fileWords * j := by
  unfold entries
  rw [List.mem_map]
  constructor
  · rintro ⟨j, hj, rfl⟩
    exact ⟨j, List.mem_range.1 hj, rfl⟩
  · rintro ⟨j, hj, rfl⟩
    exact ⟨j, List.mem_range.2 hj, rfl⟩

variable {s s' s'' : Fs} {P : Nat → Prop} {d f : Nat}

theorem mem_listing : f ∈ s.listing d ↔ ∃ i < s.nblocks d, ∃ b, s.blockAt d i = some b ∧ f ∈ entries (diskAddr b) := by
  unfold listing
  rw [List.mem_flatMap]
  refine exists_congr fun i => ?_
  rw [List.mem_range]
  refine and_congr_right fun _ => ?_
  unfold entriesAt
  cases s.blockAt d i with
  | none => simp
  | some b => simp

/-- An entry of a directory. -/
def Entry (s : Fs) (f : Nat) : Prop := ∃ d, Dir s d ∧ f ∈ s.listing d

theorem Object.entry_or_root (h : Object s f) : f = sRoot ∨ Entry s f := by
  cases h with
  | root => exact .inl rfl
  | entry d f hd hdir hf _ => exact .inr ⟨d, ⟨hd, hdir⟩, hf⟩

theorem Entry.block (h : Entry s f) (ht : Tree s) : ∃ b j, Data s b ∧ j < file2blk ∧ f = diskAddr b + fileWords * j ∧
    ∀ d, Dir s d → nDirect < s.nblocks d → s.indirect d ≠ some b := by
  obtain ⟨e, he, hf⟩ := h
  obtain ⟨i, hi, b, hb, hfb⟩ := mem_listing.1 hf
  obtain ⟨j, hj, rfl⟩ := mem_entries.1 hfb
  obtain ⟨b', hb', hd⟩ := ht.block e he i hi
  cases hb.symm.trans hb'
  exact ⟨b, j, hd, hj, rfl, fun d hd hn => ht.apart d e hd he hn i hi b hb⟩

theorem diskAddr_div (b : Nat) {k : Nat} (hk : k < blockWords) : (diskAddr b + k) / blockWords = b := by
  unfold diskAddr blockWords at *
  omega

namespace Entry

variable {k : Nat}

theorem lt_block {j : Nat} (hj : j < file2blk) (hk : k < fileWords) : fileWords * j + k < blockWords := by
  unfold file2blk fileWords blockWords at *
  omega

theorem word (h : Entry s f) (ht : Tree s) : ∃ b, Data s b ∧ (∀ k < fileWords, (f + k) / blockWords = b) ∧
    ∀ d, Dir s d → nDirect < s.nblocks d → s.indirect d ≠ some b := by
  obtain ⟨b, j, hd, hj, rfl, hind⟩ := h.block ht
  refine ⟨b, hd, fun k hk => ?_, hind⟩
  rw [Nat.add_assoc]
  exact diskAddr_div b (lt_block hj hk)

end Entry

/-- An entry or the root: what has the fields of a file. -/
def FileAt (s : Fs) (f : Nat) : Prop := f = sRoot ∨ Entry s f

namespace Passes

theorem refl (s : Fs) (P : Nat → Prop) : Passes P s s :=
  ⟨fun _ _ => rfl, fun _ _ => .inl rfl, fun _ h => h, fun _ => .inl, fun _ _ => rfl, rfl, rfl, rfl, List.suffix_refl _⟩

theorem mono {Q : Nat → Prop} (h : Passes P s s') (hq : ∀ f, P f → Q f) : Passes Q s s' := by
  refine ⟨fun a ha => h.view a fun f hf => ha f (hq f hf), fun f _ => ?_, h.mapped, h.read, h.dirty,
    h.disk, h.super, h.bitmap,
    h.pages⟩
  by_cases hf : P f
  · exact h.link f hf
  · exact .inl (h.view _ fun e he heq => hf (Nat.add_right_cancel heq ▸ he))

theorem loads {B : Nat → Prop} (h : Passes P s s') (hl : Loads B s' s'') (hb : ∀ b, B b → s.blockIsFree b = false) :
    Passes P s s'' :=
  ⟨fun a ha => (hl.view a).trans (h.view a ha), fun f hf => by
      rw [hl.view]
      exact (h.link f hf).imp_right fun ⟨d, hd, hfd, hheld, he⟩ => ⟨d, hd, hfd, hheld.loads hl, he⟩,
    fun b hb => hl.mapped b (h.mapped b hb), fun b hm => (hl.read b hm).elim (h.read b) fun hbb => .inr (hb b hbb),
    fun b hb => (hl.dirty b (h.mapped b hb)).trans (h.dirty b hb), hl.disk.trans h.disk, hl.super.trans h.super,
    hl.bitmap.trans h.bitmap, hl.pages.trans h.pages⟩

theorem block (h : Passes P s s') (ht : Tree s) (hP : ∀ f, P f → Entry s f) {a : Nat}
    (ha : ∀ b, Data s b → (∀ d, Dir s d → nDirect < s.nblocks d → s.indirect d ≠ some b) → a / blockWords ≠ b) :
    s'.view a = s.view a := by
  refine h.view a fun f hf he => ?_
  obtain ⟨b, hd, hw, hind⟩ := (hP f hf).word ht
  refine ha b hd hind ?_
  rw [he]
  exact hw 45 (by decide)

theorem low (h : Passes P s s') (ht : Tree s) (hP : ∀ f, P f → Entry s f) {a : Nat} (ha : a / blockWords < s.reserved) :
    s'.view a = s.view a := by
  refine h.block ht hP fun b hd _ hc => ?_
  have := hd.le
  omega

theorem up (h : Passes P s s') (ht : Tree s) (hP : ∀ f, P f → Entry s f) :
    s'.sNblocks = s.sNblocks ∧ Up s' ∧ ∀ b, s'.blockIsFree b = s.blockIsFree b :=
  ht.up.congr (fun _ ha => h.low ht hP ha) h.mapped h.super h.bitmap

/-- **The other fields of a file are as they were.** -/
theorem field (h : Passes P s s') (ht : Tree s) (hP : ∀ f, P f → Entry s f) (hf : FileAt s f) {k : Nat}
    (hk : k < fileWords) (h45 : k ≠ 45) : s'.view (f + k) = s.view (f + k) := by
  rcases hf with rfl | hf
  · refine h.low ht hP ?_
    have h1 : (sRoot + k) / blockWords = 1 := by
      unfold sRoot blockWords
      unfold fileWords at hk
      omega
    rw [h1]
    exact Nat.lt_of_lt_of_le (by decide) (reserved_ge s)
  · refine h.view _ fun e he heq => h45 ?_
    obtain ⟨b, j, -, -, rfl, -⟩ := hf.block ht
    obtain ⟨b', j', -, -, rfl, -⟩ := (hP e he).block ht
    unfold fDir diskAddr blockWords fileWords at *
    omega

theorem name (h : Passes P s s') (ht : Tree s) (hP : ∀ f, P f → Entry s f) (hf : FileAt s f) {i : Nat}
    (hi : i < maxNameLen) :
    fName s'.view f i = fName s.view f i := by
  unfold fName byteAt
  have hw : (4 * f + i) / 4 = f + i / 4 := by omega
  rw [hw, h.field ht hP hf]
  · unfold maxNameLen at hi
    unfold fileWords
    omega
  · unfold maxNameLen at hi
    omega

theorem nameOf (h : Passes P s s') (ht : Tree s) (hP : ∀ f, P f → Entry s f) (hf : FileAt s f) :
    s'.nameOf f = s.nameOf f := by
  unfold Fs.nameOf
  congr 1
  exact List.map_congr_left fun i hi => h.name ht hP hf (List.mem_range.1 hi)

theorem nblocks (h : Passes P s s') (ht : Tree s) (hP : ∀ f, P f → Entry s f) (hf : FileAt s f) :
    s'.nblocks f = s.nblocks f := by
  have h32 : s'.view (f + 32) = s.view (f + 32) := h.field ht hP hf (by decide) (by decide)
  unfold Fs.nblocks fSize
  rw [h32]

theorem type (h : Passes P s s') (ht : Tree s) (hP : ∀ f, P f → Entry s f) (hf : FileAt s f) :
    s'.view (fType f) = s.view (fType f) := h.field ht hP hf (k := 33) (by decide) (by decide)

theorem indirect (h : Passes P s s') (ht : Tree s) (hP : ∀ f, P f → Entry s f) (hf : FileAt s f) :
    s'.indirect f = s.indirect f := by
  have h44 : s'.view (f + 44) = s.view (f + 44) := h.field ht hP hf (by decide) (by decide)
  unfold Fs.indirect fIndirect
  rw [h44]

/-- **A directory has the blocks it had.** -/
theorem blockAt (h : Passes P s s') (ht : Tree s) (hP : ∀ f, P f → Entry s f) (hd : Dir s d) {i : Nat}
    (hi : i < s.nblocks d) :
    s'.blockAt d i = s.blockAt d i := by
  have hf : FileAt s d := hd.object.entry_or_root
  unfold Fs.blockAt Fs.slot
  rw [h.indirect ht hP hf]
  by_cases h₁ : i < nDirect
  · rw [if_pos h₁, Option.bind_some, Option.bind_some]
    have hk : s'.view (d + (34 + i)) = s.view (d + (34 + i)) := by
      refine h.field ht hP hf ?_ ?_
      · unfold nDirect at h₁
        unfold fileWords
        omega
      · unfold nDirect at h₁
        omega
    rw [← Nat.add_assoc] at hk
    unfold fDirect
    rw [hk]
  · rw [if_neg h₁]
    by_cases h₂ : i < nIndirect
    · rw [if_pos h₂]
      cases hb : s.indirect d with
      | none => rfl
      | some b =>
        rw [Option.map_some, Option.bind_some, Option.bind_some, h.block ht hP]
        intro b' _ hind hc
        rw [diskAddr_div b h₂] at hc
        exact hind d hd (Nat.lt_of_le_of_lt (Nat.not_lt.1 h₁) hi) (hc ▸ hb)
    · rw [if_neg h₂]
      rfl

end Passes

end Fs

end Mos
