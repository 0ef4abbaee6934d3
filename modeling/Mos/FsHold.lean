import Mos.Lib.Holding
import Mos.FsTree
/-!
# FsHold — the blocks that the files hold

The files are the root and the entries of the directories, with a name or without: an entry that has lost its name keeps
its fields.  `Owned` says that the blocks in their slots are in use and no two slots have the same one, `Sound` moreover
that the directories have all their blocks.  A file holds what a few words say (`Touches`); `Edit` is a change of the
words of `W` alone.
-/
namespace Mos

open Fallible FilePtr

namespace Fs

/-- The entries of a block. -/
def Inside (b e : Nat) : Prop := e ∈ entries (diskAddr b)

/-- **The volume that the server sees.** -/
def vol (s : Fs) : Volume Nat Nat where
  dir := s.IsDir
  count := s.nblocks
  holds f u :=
    match u with
    | .indirect => s.indirect f
    | .block i => s.blockAt f i
  used := Data s

/-- The root, and the entries of the directories. -/
def File (s : Fs) (f : Nat) : Prop := (vol s).Node sRoot Inside f

/-- **The blocks of the files are in use, and each is in one slot.** -/
structure Owned (s : Fs) : Prop where
  up : Up s
  small : s.sNblocks ≤ diskmaxBlocks
  low : ∀ b < s.reserved, s.blockIsFree b = false
  vol : s.vol.Owned sRoot Inside

/-- **The directories have their blocks.** -/
structure Sound (s : Fs) : Prop extends Owned s where
  whole : s.vol.Whole sRoot Inside
  round : ∀ d, File s d → s.IsDir d → (s.view (fSize d)).toNat = blockSize * s.nblocks d

/-- The words that say what a file holds. -/
def Touches (s : Fs) (e a : Nat) : Prop :=
  (∃ k, 32 ≤ k ∧ k < 45 ∧ a = e + k) ∨ ∃ b i, nDirect ≤ i ∧ i < nIndirect ∧ s.indirect e = some b ∧ a = diskAddr b + i

/-- `block_is_dirty` -/
def Marked (s : Fs) (b : Nat) : Prop := s.mapped b = true ∧ s.dirty b = true

/-- **A sync writes the word**, or the disk has it. -/
def Secure (s : Fs) (a : Nat) : Prop := s.Marked (a / blockWords) ∨ s.view a = s.disk a

/-- **Only the words of `W` change**, and the others are as secure as they were; blocks may be loaded. -/
structure Edit (W : Nat → Prop) (s s' : Fs) : Prop where
  view : ∀ a, ¬W a → s'.view a = s.view a
  secure : ∀ a, ¬W a → s.Secure a → s'.Secure a
  mapped : ∀ b, s.mapped b = true → s'.mapped b = true
  super : s'.super = s.super
  bitmap : s'.bitmap = s.bitmap
  pages : s'.pages <:+ s.pages

variable {s s' s'' : Fs} {e f : Nat}

/-! ## Where the words are -/

theorem File.home (he : File s e) : e = sRoot ∨ ∃ d i b j, File s d ∧ s.blockAt d i = some b ∧ j < file2blk ∧
    e = diskAddr b + fileWords * j := by
  cases he with
  | root => exact .inl rfl
  | entry d i b e hd _ _ hb hin =>
    obtain ⟨j, hj, rfl⟩ := mem_entries.1 hin
    exact .inr ⟨d, i, b, j, hd, hb, hj, rfl⟩

theorem root_word {k : Nat} (hk : k < fileWords) : (sRoot + k) / blockWords = 1 := by
  unfold sRoot blockWords
  unfold fileWords at hk
  omega

theorem entry_word {b j k : Nat} (hj : j < file2blk) (hk : k < fileWords) :
    (diskAddr b + fileWords * j + k) / blockWords = b := by
  rw [Nat.add_assoc]
  exact diskAddr_div b (Entry.lt_block hj hk)

/-- The words of an entry are in the super block or in a block of a directory. -/
theorem File.word {k : Nat} (he : File s e) (hk : k < fileWords) :
    (e = sRoot ∧ (e + k) / blockWords = 1) ∨ ∃ d i, File s d ∧ s.blockAt d i = some ((e + k) / blockWords) := by
  rcases he.home with rfl | ⟨d, i, b, j, hd, hb, hj, rfl⟩
  · exact .inl ⟨rfl, root_word hk⟩
  · refine .inr ⟨d, i, hd, ?_⟩
    rw [entry_word hj hk]
    exact hb

namespace Owned

variable (h : Owned s)
include h

theorem data_block {i b : Nat} (he : File s e) (hb : s.blockAt e i = some b) : Data s b :=
  h.vol.used e (.block i) b he hb

theorem data_indirect {b : Nat} (he : File s e) (hb : s.indirect e = some b) : Data s b :=
  h.vol.used e .indirect b he hb

theorem word_sole {k k' : Nat} (he : File s e) (hf : File s f) (hk : k < fileWords) (hk' : k' < fileWords)
    (heq : e + k = f + k') : e = f := by
  rcases he.home with rfl | ⟨d, i, b, j, hd, hb, hj, rfl⟩
  · rcases hf.home with rfl | ⟨d', i', b', j', hd', hb', hj', rfl⟩
    · rfl
    · have h1 := root_word hk
      rw [heq, entry_word hj' hk'] at h1
      have := (h.data_block hd' hb').le
      have := reserved_ge s
      omega
  · rcases hf.home with rfl | ⟨d', i', b', j', hd', hb', hj', rfl⟩
    · have h1 := root_word hk'
      rw [← heq, entry_word hj hk] at h1
      have := (h.data_block hd hb).le
      have := reserved_ge s
      omega
    · have hbb := entry_word (b := b) hj hk
      rw [heq, entry_word hj' hk'] at hbb
      subst hbb
      unfold fileWords at *
      omega

/-- **Where the words are that say what a file holds**: behind the number of blocks in the super block, or in a block
for files. -/
theorem touches_block {a : Nat} (he : File s e) (ha : Touches s e a) :
    (a / blockWords = 1 ∧ a ≠ blockWords + 1) ∨ Data s (a / blockWords) := by
  rcases ha with ⟨k, h32, h45, rfl⟩ | ⟨b, i, -, hi, hb, rfl⟩
  · have hk : k < fileWords := Nat.lt_trans h45 (by decide)
    rcases he.word hk with ⟨rfl, h1⟩ | ⟨d, i, hd, hb⟩
    · refine .inl ⟨h1, ?_⟩
      unfold sRoot
      omega
    · exact .inr (h.data_block hd hb)
  · refine .inr ?_
    rw [diskAddr_div b hi]
    exact h.data_indirect he hb

theorem entry_ne_indirect {k b i : Nat} (he : File s e) (hf : File s f) (hk : k < fileWords) (hi : i < blockWords)
    (hb : s.indirect f = some b) : e + k ≠ diskAddr b + i := by
  intro heq
  have hdiv := diskAddr_div b hi
  rcases he.word hk with ⟨-, h1⟩ | ⟨d, i', hd, hb'⟩
  · rw [heq, hdiv] at h1
    have := (h.data_indirect hf hb).le
    have := reserved_ge s
    omega
  · rw [heq, hdiv] at hb'
    exact absurd (h.vol.sole d f (.block i') .indirect b hd hf hb' hb).2 Use.noConfusion

/-- **Each says it for one file.** -/
theorem touches_sole {a : Nat} (he : File s e) (hf : File s f) (ha : Touches s e a) (ha' : Touches s f a) : e = f := by
  rcases ha with ⟨k, -, h45, rfl⟩ | ⟨b, i, -, hi, hb, rfl⟩
  · rcases ha' with ⟨k', -, h45', heq⟩ | ⟨b, i, -, hi, hb, heq⟩
    · exact h.word_sole he hf (Nat.lt_trans h45 (by decide)) (Nat.lt_trans h45' (by decide)) heq
    · exact absurd heq (h.entry_ne_indirect he hf (Nat.lt_trans h45 (by decide)) hi hb)
  · rcases ha' with ⟨k', -, h45', heq⟩ | ⟨b', i', -, hi', hb', heq⟩
    · exact absurd heq.symm (h.entry_ne_indirect hf he (Nat.lt_trans h45' (by decide)) hi hb)
    · have hbb := diskAddr_div b hi
      rw [heq, diskAddr_div b' hi'] at hbb
      subst hbb
      exact (h.vol.sole e f .indirect .indirect _ he hf hb hb').1

end Owned

/-! ## Changes of words -/

namespace Edit

variable {W W' : Nat → Prop}

theorem refl (s : Fs) (W : Nat → Prop) : Edit W s s :=
  ⟨fun _ _ => rfl, fun _ _ h => h, fun _ h => h, rfl, rfl, List.suffix_refl _⟩

theorem trans (h : Edit W s s') (h' : Edit W s' s'') : Edit W s s'' :=
  ⟨fun a ha => (h'.view a ha).trans (h.view a ha), fun a ha hs => h'.secure a ha (h.secure a ha hs),
    fun b hb => h'.mapped b (h.mapped b hb), h'.super.trans h.super, h'.bitmap.trans h.bitmap, h'.pages.trans h.pages⟩

theorem mono (h : Edit W s s') (hw : ∀ a, W a → W' a) : Edit W' s s' :=
  ⟨fun a ha => h.view a fun hwa => ha (hw a hwa), fun a ha => h.secure a fun hwa => ha (hw a hwa), h.mapped,
    h.super, h.bitmap, h.pages⟩

/-- A state with the same pages and marks, where the words that do not change are on the disk as they were. -/
theorem of_same (hmapped : s'.mapped = s.mapped) (hdirty : s'.dirty = s.dirty) (hsuper : s'.super = s.super)
    (hbitmap : s'.bitmap = s.bitmap) (hpages : s'.pages <:+ s.pages) (hview : ∀ a, ¬W a → s'.view a = s.view a)
    (hdisk : ∀ a, ¬W a → ¬s.Marked (a / blockWords) → s'.disk a = s.disk a) : Edit W s s' := by
  refine ⟨hview, fun a ha hs => ?_, fun b hb => by rw [hmapped]; exact hb, hsuper, hbitmap, hpages⟩
  have hmark : s'.Marked (a / blockWords) ↔ s.Marked (a / blockWords) := by
    unfold Marked
    rw [hmapped, hdirty]
  by_cases hm : s.Marked (a / blockWords)
  · exact .inl (hmark.2 hm)
  · exact .inr ((hview a ha).trans ((hs.resolve_left hm).trans (hdisk a ha hm).symm))

theorem secure_of_pages {a : Nat} (hmapped : ∀ b, s.mapped b = true → s'.mapped b = true)
    (hdirty : ∀ b, s.mapped b = true → s'.dirty b = s.dirty b) (hdisk : s'.disk = s.disk)
    (hview : s'.view a = s.view a) :
    s.Secure a → s'.Secure a := by
  rintro (hm | hs)
  · exact .inl ⟨hmapped _ hm.1, (hdirty _ hm.1).trans hm.2⟩
  · exact .inr (by rw [hview, hs, hdisk])

theorem of_loads {B : Nat → Prop} (h : Loads B s s') : Edit W s s' :=
  ⟨fun a _ => h.view a, fun a _ => secure_of_pages h.mapped h.dirty h.disk (h.view a), h.mapped,
    h.super, h.bitmap, h.pages⟩

theorem of_passes {P : Nat → Prop} (h : Passes P s s') : Edit (fun a => ∃ f, P f ∧ a = fDir f) s s' :=
  have hview : ∀ a, ¬(∃ f, P f ∧ a = fDir f) → s'.view a = s.view a :=
    fun a ha => h.view a fun f hf heq => ha ⟨f, hf, heq⟩
  ⟨hview, fun a ha => secure_of_pages h.mapped h.dirty h.disk (hview a ha), h.mapped, h.super, h.bitmap, h.pages⟩

theorem held (h : Edit W s s') (hf : Held s f) : Held s' f := fun k hk => h.mapped _ (hf k hk)

end Edit

/-- **A file of which no word changes is the same.** -/
theorem agree_of_view (h : ∀ a, Touches s e a → s'.view a = s.view a) : s.vol.Agree s'.vol e := by
  have hword : ∀ k, 32 ≤ k → k < 45 → s'.view (e + k) = s.view (e + k) := fun k h32 h45 => h _ (.inl ⟨k, h32, h45, rfl⟩)
  have hind : s'.indirect e = s.indirect e := by
    unfold indirect fIndirect
    rw [hword 44 (by decide) (by decide)]
  refine ⟨?_, ?_, funext fun u => ?_⟩
  · show s'.view (e + 33) = ftypeDir ↔ s.view (e + 33) = ftypeDir
    rw [hword 33 (by decide) (by decide)]
  · show (s'.view (e + 32)).toNat / blockSize = (s.view (e + 32)).toNat / blockSize
    rw [hword 32 (by decide) (by decide)]
  · cases u with
    | indirect => exact hind
    | block i =>
      show s'.blockAt e i = s.blockAt e i
      unfold blockAt slot
      rw [hind]
      by_cases h₁ : i < nDirect
      · have hi : i < 10 := h₁
        have hk : s'.view (e + (34 + i)) = s.view (e + (34 + i)) := hword (34 + i) (by omega) (by omega)
        rw [← Nat.add_assoc] at hk
        rw [if_pos h₁, Option.bind_some, Option.bind_some]
        unfold fDirect
        rw [hk]
      · rw [if_neg h₁]
        by_cases h₂ : i < nIndirect
        · rw [if_pos h₂]
          cases hb : s.indirect e with
          | none => rfl
          | some b =>
            rw [Option.map_some, Option.bind_some, Option.bind_some,
              h _ (.inr ⟨b, i, Nat.not_lt.1 h₁, h₂, hb, rfl⟩)]
        · rw [if_neg h₂]
          rfl

end Fs

end Mos
