import Mos.Fs
/-!
# FsView — the blocks of the file system, in the cache or on the disk

What the server reads is the same whether a block has its page already or is read into it now: `view` is the contents of
the disk as the server sees them, and `Loads` a change of the cache alone.  The blocks of a file are read off the view.
-/
namespace Mos

open Fallible FilePtr

namespace Fs

/-- A word of a block: of its page, or of the disk where it has none. -/
def view (s : Fs) (a : Nat) : Word := if s.mapped (a / blockWords) then s.mem a else s.disk a

/-- The blocks before those of files: the boot block, the super block and the bitmap. -/
def reserved (s : Fs) : Nat := s.sNblocks / blockSizeBit + 3

/-- `fs_init` is through. -/
structure Up (s : Fs) : Prop where
  super : s.super = true
  bitmap : s.bitmap = true
  mapped : ∀ b, 1 ≤ b → b < s.reserved → s.mapped b = true

/-- A block for files, in use. -/
structure Data (s : Fs) (b : Nat) : Prop where
  le : s.reserved ≤ b
  lt : b < s.sNblocks
  used : s.blockIsFree b = false

/-- **Blocks of `B` are read into the cache**, and nothing else happens. -/
structure Loads (B : Nat → Prop) (s s' : Fs) : Prop where
  view : ∀ a, s'.view a = s.view a
  mapped : ∀ b, s.mapped b = true → s'.mapped b = true
  read : ∀ b, s'.mapped b = true → s.mapped b = true ∨ B b
  dirty : ∀ b, s.mapped b = true → s'.dirty b = s.dirty b
  disk : s'.disk = s.disk
  super : s'.super = s.super
  bitmap : s'.bitmap = s.bitmap
  pages : s'.pages <:+ s.pages

theorem bitmapWord_div (b : Nat) : bitmapWord b / blockWords = 2 + b / blockSizeBit := by
  unfold bitmapWord blockWords blockSizeBit blockSize pageSize
  omega

theorem reserved_ge (s : Fs) : 3 ≤ s.reserved := Nat.le_add_left 3 _

theorem bitmapWord_reserved {s : Fs} {b : Nat} (hb : b < s.sNblocks) : bitmapWord b / blockWords < s.reserved := by
  have h : b / blockSizeBit ≤ s.sNblocks / blockSizeBit := Nat.div_le_div_right (Nat.le_of_lt hb)
  rw [bitmapWord_div]
  show 2 + b / blockSizeBit < s.sNblocks / blockSizeBit + 3
  generalize b / blockSizeBit = x at h ⊢
  generalize s.sNblocks / blockSizeBit = y at h ⊢
  omega

theorem mem_eq_view {s : Fs} {a : Nat} (h : s.mapped (a / blockWords) = true) : s.mem a = s.view a := (if_pos h).symm

variable {s s' s'' : Fs} {B C : Nat → Prop}

namespace Up

theorem super_mapped (h : Up s) : s.mapped 1 = true :=
  h.mapped 1 (Nat.le_refl 1) (Nat.lt_of_lt_of_le (by decide) (reserved_ge s))

theorem bitmap_mapped (h : Up s) {b : Nat} (hb : b < s.sNblocks) : s.mapped (bitmapWord b / blockWords) = true := by
  refine h.mapped _ ?_ (bitmapWord_reserved hb)
  rw [bitmapWord_div]
  exact Nat.le_trans (by decide) (Nat.le_add_right 2 _)

theorem congr (h : Up s) (hview : ∀ a, a / blockWords < s.reserved → s'.view a = s.view a)
    (hmapped : ∀ b, s.mapped b = true → s'.mapped b = true) (hsuper : s'.super = s.super)
    (hbitmap : s'.bitmap = s.bitmap) :
    s'.sNblocks = s.sNblocks ∧ Up s' ∧ ∀ b, s'.blockIsFree b = s.blockIsFree b := by
  have hword : (blockWords + 1) / blockWords = 1 := by decide
  have h1 : s'.sNblocks = s.sNblocks := by
    have hm : s.mapped ((blockWords + 1) / blockWords) = true := hword ▸ h.super_mapped
    unfold sNblocks
    rw [mem_eq_view (hmapped _ hm), mem_eq_view hm, hview]
    rw [hword]
    exact Nat.lt_of_lt_of_le (by decide) (reserved_ge s)
  have hr : s'.reserved = s.reserved := by
    unfold reserved
    rw [h1]
  refine ⟨h1, ⟨hsuper.trans h.super, hbitmap.trans h.bitmap, fun b h1 hb => hmapped b (h.mapped b h1 (hr ▸ hb))⟩,
    fun b => ?_⟩
  unfold blockIsFree
  rw [hsuper, h1]
  by_cases hb : b < s.sNblocks
  · have hm := h.bitmap_mapped hb
    rw [mem_eq_view (hmapped _ hm), mem_eq_view hm, hview _ (bitmapWord_reserved hb)]
  · simp [hb]

end Up

namespace Loads

theorem refl (s : Fs) : Loads B s s :=
  ⟨fun _ => rfl, fun _ h => h, fun _ => .inl, fun _ _ => rfl, rfl, rfl, rfl, List.suffix_refl _⟩

theorem trans (h : Loads B s s') (h' : Loads B s' s'') : Loads B s s'' :=
  ⟨fun a => (h'.view a).trans (h.view a), fun b hb => h'.mapped b (h.mapped b hb),
    fun b hb => (h'.read b hb).elim (h.read b) .inr,
    fun b hb => (h'.dirty b (h.mapped b hb)).trans (h.dirty b hb), h'.disk.trans h.disk, h'.super.trans h.super,
    h'.bitmap.trans h.bitmap, h'.pages.trans h.pages⟩

theorem mono (h : Loads B s s') (hb : ∀ b, B b → C b) : Loads C s s' :=
  ⟨h.view, h.mapped, fun b hm => (h.read b hm).imp_right (hb b), h.dirty, h.disk, h.super, h.bitmap, h.pages⟩

theorem mem (h : Loads B s s') {a : Nat} (ha : s.mapped (a / blockWords) = true) : s'.mem a = s.mem a := by
  rw [mem_eq_view (h.mapped _ ha), mem_eq_view ha, h.view]

theorem up (h : Loads B s s') (hu : Up s) :
    s'.sNblocks = s.sNblocks ∧ Up s' ∧ ∀ b, s'.blockIsFree b = s.blockIsFree b :=
  hu.congr (fun a _ => h.view a) h.mapped h.super h.bitmap

end Loads

theorem Data.congr {b : Nat} (h : Data s b) (hn : s'.sNblocks = s.sNblocks)
    (hf : ∀ b, s'.blockIsFree b = s.blockIsFree b) :
    Data s' b :=
  ⟨by unfold reserved; rw [hn]; exact h.le, hn ▸ h.lt, (hf b).trans h.used⟩

end Fs

open Fs

/-! ## Reading a block -/

/-- What a computation comes back with where one of the blocks of `B` has no page, and there was none to be had. -/
def OutOfPages {α : Type} (B : Nat → Prop) (s : Fs) (r : Except Int α) : Prop :=
  r = .error (-eNoMem) ∧ false ∈ s.pages ∧ ∃ b, B b ∧ s.mapped b = false

namespace OutOfPages

variable {α β : Type} {B C : Nat → Prop} {s s' : Fs} {r : Except Int α}

theorem mono (h : OutOfPages B s r) (hb : ∀ b, B b → C b) : OutOfPages C s r :=
  ⟨h.1, h.2.1, h.2.2.imp fun b hbm => ⟨hb b hbm.1, hbm.2⟩⟩

theorem back (h : OutOfPages B s' r) (hm : ∀ b, s.mapped b = true → s'.mapped b = true) (hp : s'.pages <:+ s.pages) :
    OutOfPages B s r := by
  obtain ⟨rfl, hpages, b, hb, hunmapped⟩ := h
  refine ⟨rfl, hp.mem hpages, b, hb, ?_⟩
  by_contra hmapped
  rw [hm b (Bool.not_eq_false _ ▸ hmapped)] at hunmapped
  exact absurd hunmapped (by decide)

theorem cast (h : OutOfPages B s r) : OutOfPages B s (.error (-eNoMem) : Except Int β) := ⟨rfl, h.2⟩

end OutOfPages

theorem memAllocBlock_eq (b : Nat) (s : Fs) : memAllocBlock b s =
    if s.pages.headD true then some (.ok (), { s with
      mem := fun a => if a / blockWords = b then 0 else s.mem a
      mapped := Function.update s.mapped b true
      dirty := Function.update s.dirty b false
      pages := s.pages.tail })
    else some (.error (-eNoMem), { s with pages := s.pages.tail }) := rfl

theorem headD_false {l : List Bool} (h : ¬l.headD true = true) : false ∈ l := by
  cases l with
  | nil => exact absurd rfl h
  | cons a l =>
    cases a with
    | true => exact absurd rfl h
    | false => exact List.mem_cons_self

theorem readBlock_eq (b : Nat) (s : Fs) : readBlock b s =
    if s.super && decide (s.sNblocks ≤ b) then none
    else if s.bitmap && s.blockIsFree b then none
    else if s.mapped b then some (.ok false, s)
    else (memAllocBlock b >>= fun _ => ideReadBlock b >>= fun _ => pure true) s := by
  unfold readBlock
  rw [bind_of_ok (show Fallible.read id s = some (.ok s, s) from rfl)]
  by_cases h₁ : (s.super && decide (s.sNblocks ≤ b)) = true
  · rw [if_pos h₁, if_pos h₁]
    rfl
  · rw [if_neg h₁, if_neg h₁]
    by_cases h₂ : (s.bitmap && s.blockIsFree b) = true
    · rw [if_pos h₂, if_pos h₂]
      rfl
    · rw [if_neg h₂, if_neg h₂]
      by_cases h₃ : s.mapped b = true
      · rw [if_pos h₃, if_pos h₃]
        rfl
      · rw [if_neg h₃, if_neg h₃]

/-- **A computation that only loads blocks**, those of `B`: it comes back with `Q`, unless it is out of pages. -/
def Loading {α : Type} (B : Nat → Prop) (s : Fs) (x : FsM α) (Q : α → Fs → Prop) : Prop :=
  ∃ r s', x s = some (r, s') ∧ Loads B s s' ∧ ((∃ a, r = .ok a ∧ Q a s') ∨ OutOfPages B s r)

namespace Loading

variable {α β : Type} {B : Nat → Prop} {s : Fs} {x : FsM α} {f : α → FsM β} {P : α → Fs → Prop} {Q : β → Fs → Prop}

theorem ret {a : α} (h : P a s) : Loading B s (pure a) P := ⟨_, s, rfl, .refl s, .inl ⟨a, rfl, h⟩⟩

theorem bind (hx : Loading B s x P) (hf : ∀ a s', Loads B s s' → P a s' → Loading B s' (f a) Q) :
    Loading B s (x >>= f) Q := by
  obtain ⟨r, s₁, hx, hl, ⟨a, rfl, hp⟩ | hout⟩ := hx
  · obtain ⟨r, s₂, hf, hl', hq⟩ := hf a s₁ hl hp
    exact ⟨r, s₂, (bind_of_ok hx).trans hf, hl.trans hl', hq.imp_right fun h => h.back hl.mapped hl.pages⟩
  · obtain rfl := hout.1
    exact ⟨_, s₁, bind_of_error hx, hl, .inr hout.cast⟩

theorem load {a : Nat} {g : Word → FsM β} (hm : s.mapped (a / blockWords) = true) (hg : Loading B s (g (s.view a)) Q) :
    Loading B s (loadWord a >>= g) Q := by
  obtain ⟨r, s', h, hrest⟩ := hg
  refine ⟨r, s', ?_, hrest⟩
  rw [bind_of_ok (show loadWord a s = some (.ok (s.view a), s) by rw [← mem_eq_view hm]; rfl)]
  exact h

theorem mono {Q' : β → Fs → Prop} {C : Nat → Prop} {y : FsM β} (h : Loading B s y Q) (hb : ∀ b, B b → C b)
    (hq : ∀ b s', Loads B s s' → Q b s' → Q' b s') : Loading C s y Q' := by
  obtain ⟨r, s', hy, hl, h⟩ := h
  refine ⟨r, s', hy, hl.mono hb, h.imp ?_ fun h => h.mono hb⟩
  rintro ⟨b, rfl, hb⟩
  exact ⟨b, rfl, hq b s' hl hb⟩

end Loading

/-- **`read_block`** of a block in use. -/
theorem readBlock_spec {s : Fs} {b : Nat} (hd : Data s b) :
    Loading (· = b) s (readBlock b) fun _ s' => s'.mapped b = true := by
  unfold Loading
  have hin : ¬(s.super && decide (s.sNblocks ≤ b)) = true := by
    have := hd.lt
    simp only [Bool.and_eq_true, decide_eq_true_eq, not_and]
    omega
  rw [readBlock_eq, if_neg hin, hd.used, Bool.and_false, if_neg Bool.false_ne_true]
  by_cases hm : s.mapped b = true
  · rw [if_pos hm]
    exact ⟨_, _, rfl, .refl s, .inl ⟨_, rfl, hm⟩⟩
  · rw [if_neg hm]
    by_cases hp : s.pages.headD true = true
    · rw [bind_of_ok (by rw [memAllocBlock_eq, if_pos hp])]
      refine ⟨_, _, rfl, ⟨fun a => ?_, fun c hc => ?_, fun c hc => ?_, fun c hc => ?_, rfl, rfl, rfl,
        List.tail_suffix _⟩,
        .inl ⟨_, rfl, Function.update_self _ _ _⟩⟩
      · by_cases hab : a / blockWords = b
        · simp [Fs.view, hab, hm]
        · simp [Fs.view, hab]
      · have hcb : c ≠ b := fun h => hm (h ▸ hc)
        exact (Function.update_of_ne hcb _ _).trans hc
      · by_cases hcb : c = b
        · exact .inr hcb
        · exact .inl ((Function.update_of_ne hcb _ _).symm.trans hc)
      · have hcb : c ≠ b := fun h => hm (h ▸ hc)
        exact Function.update_of_ne hcb _ _
    · rw [bind_of_error (by rw [memAllocBlock_eq, if_neg hp])]
      exact ⟨_, _, rfl, ⟨fun _ => rfl, fun _ h => h, fun _ => .inl, fun _ _ => rfl, rfl, rfl, rfl, List.tail_suffix _⟩,
        .inr ⟨rfl, headD_false hp, b, rfl, Bool.eq_false_iff.2 hm⟩⟩

/-! ## The blocks of a file -/

namespace Fs

/-- The indirect block of a file. -/
def indirect (s : Fs) (f : Nat) : Option Nat :=
  if s.view (fIndirect f) = 0 then none else some (s.view (fIndirect f)).toNat

/-- The word with the number of a block of the file. -/
def slot (s : Fs) (f i : Nat) : Option Nat :=
  if i < nDirect then some (fDirect f i)
  else if i < nIndirect then (s.indirect f).map fun b => diskAddr b + i
  else none

/-- **The block** at an index of a file. -/
def blockAt (s : Fs) (f i : Nat) : Option Nat :=
  (s.slot f i).bind fun a => if s.view a = 0 then none else some (s.view a).toNat

/-- The blocks that are read for a block of a file: the block, and the one with its number. -/
def BlockOf (s : Fs) (f i b : Nat) : Prop := s.blockAt f i = some b ∨ nDirect ≤ i ∧ s.indirect f = some b

/-- The page with the entry of the file is there. -/
def Held (s : Fs) (f : Nat) : Prop := ∀ k < fileWords, s.mapped ((f + k) / blockWords) = true

theorem Held.loads {s s' : Fs} {B : Nat → Prop} {f : Nat} (h : Held s f) (hl : Loads B s s') : Held s' f :=
  fun k hk => hl.mapped _ (h k hk)

namespace Loads

variable {s s' : Fs} {B : Nat → Prop}

theorem indirect (h : Loads B s s') (f : Nat) : s'.indirect f = s.indirect f := by
  unfold Fs.indirect
  rw [h.view]

theorem slot (h : Loads B s s') (f i : Nat) : s'.slot f i = s.slot f i := by
  unfold Fs.slot
  rw [h.indirect]

theorem blockAt (h : Loads B s s') (f i : Nat) : s'.blockAt f i = s.blockAt f i := by
  unfold Fs.blockAt
  rw [h.slot]
  simp only [h.view]

end Loads

end Fs

/-- **`file_block_walk`**, to a slot that is there. -/
theorem fileBlockWalk_spec {s : Fs} {f i a : Nat} (hf : Held s f) (ha : s.slot f i = some a)
    (hi : ∀ b, nDirect ≤ i → s.indirect f = some b → Data s b) (alloc : Bool) :
    Loading (s.BlockOf f i) s (fileBlockWalk f i alloc) fun p s' => p = a ∧ s'.mapped (a / blockWords) = true := by
  unfold Fs.slot at ha
  unfold fileBlockWalk
  by_cases h₁ : i < nDirect
  · rw [if_pos h₁] at ha ⊢
    obtain rfl := Option.some.inj ha
    refine .ret ⟨rfl, ?_⟩
    have hk : 34 + i < fileWords := by
      unfold nDirect at h₁
      unfold fileWords
      omega
    have hm := hf (34 + i) hk
    rw [← Nat.add_assoc] at hm
    exact hm
  · rw [if_neg h₁] at ha ⊢
    by_cases h₂ : i < nIndirect
    · rw [if_pos h₂] at ha ⊢
      obtain ⟨b, hb, rfl⟩ := Option.map_eq_some_iff.1 ha
      have hd := hi b (Nat.not_lt.1 h₁) hb
      have hind : s.mapped (fIndirect f / blockWords) = true := hf 44 (by decide)
      unfold indirect at hb
      have hne : ¬s.view (fIndirect f) = 0 := by
        intro h0
        rw [if_pos h0] at hb
        cases hb
      have hindirect : s.indirect f = some (s.view (fIndirect f)).toNat := if_neg hne
      rw [if_neg hne] at hb
      obtain rfl := Option.some.inj hb
      refine .load hind ?_
      rw [if_neg hne]
      have hread := (readBlock_spec hd).mono
          (fun c (hc : c = _) => show s.BlockOf f i c from .inr ⟨Nat.not_lt.1 h₁, hc ▸ hindirect⟩)
        fun _ _ _ hm => hm
      refine .load hind (.bind hread fun _ s' _ hm => .ret ⟨rfl, ?_⟩)
      have hdiv : (diskAddr (s.view (fIndirect f)).toNat + i) / blockWords = (s.view (fIndirect f)).toNat := by
        unfold diskAddr blockWords
        unfold nIndirect blockSize pageSize at h₂
        omega
      rw [hdiv]
      exact hm
    · rw [if_neg h₂] at ha
      cases ha

/-- **`file_map_block`** of a block that is attached. -/
theorem fileMapBlock_spec {s : Fs} {f i b : Nat} (hf : Held s f) (hb : s.blockAt f i = some b)
    (hi : ∀ b, nDirect ≤ i → s.indirect f = some b → Data s b) (alloc : Bool) :
    Loading (s.BlockOf f i) s (fileMapBlock f i alloc) fun n _ => n = b := by
  obtain ⟨a, ha, hb⟩ := Option.bind_eq_some_iff.1 hb
  have hne : ¬s.view a = 0 := by
    intro h0
    rw [if_pos h0] at hb
    cases hb
  rw [if_neg hne] at hb
  obtain rfl := Option.some.inj hb
  refine .bind (fileBlockWalk_spec hf ha hi alloc) fun p s' hl hp => ?_
  obtain ⟨rfl, hm⟩ := hp
  refine .load hm ?_
  rw [hl.view, if_neg hne]
  refine .load hm ?_
  rw [hl.view]
  exact .ret rfl

/-- **`file_get_block`** of a block that is attached. -/
theorem fileGetBlock_spec {s : Fs} {f i b : Nat} (hf : Held s f) (hb : s.blockAt f i = some b) (hd : Data s b)
    (hu : Up s) (hi : ∀ b, nDirect ≤ i → s.indirect f = some b → Data s b) :
    Loading (s.BlockOf f i) s (fileGetBlock f i) fun a s' => a = diskAddr b ∧ s'.mapped b = true := by
  refine .bind (fileMapBlock_spec hf hb hi true) fun n s' hl hn => ?_
  subst hn
  obtain ⟨hn, -, hfree⟩ := hl.up hu
  have hread := (readBlock_spec (hd.congr hn hfree)).mono
      (fun c (hc : c = n) => show s.BlockOf f i c from .inl (hc ▸ hb))
    fun _ _ _ hm => hm
  exact .bind hread fun _ s' _ hm => .ret ⟨rfl, hm⟩

end Mos
