import Mos.FsAlloc
/-!
# FsSlots — a block is put into a slot of a file, or taken out

`Attached` is the step from one sound state to the next where a free block gets into an empty slot, `Detached` the one
where a slot is emptied and its block freed.  Both leave the other files alone.
-/
namespace Mos

open Fallible FilePtr

namespace Fs

/-- The word of a slot. -/
def slotWord (s : Fs) (f : Nat) : Use → Option Nat
  | .indirect => some (fIndirect f)
  | .block i => s.slot f i

/-- The words of the slots of a file, and what else is in its indirect block. -/
def InSlots (s : Fs) (f a : Nat) : Prop :=
  (∃ k, 34 ≤ k ∧ k < 45 ∧ a = f + k) ∨ ∃ b, s.indirect f = some b ∧ a / blockWords = b

variable {s s' s'' : Fs} {e f a b : Nat} {u w : Use}

theorem holds_eq (s : Fs) (f : Nat) (u : Use) :
    s.vol.holds f u = (s.slotWord f u).bind fun a => if s.view a = 0 then none else some (s.view a).toNat := by
  cases u with
  | indirect => rfl
  | block i => rfl

theorem slotWord_cases (h : s.slotWord f u = some a) :
    (∃ k, 34 ≤ k ∧ k < 45 ∧ a = f + k ∧ (u = .indirect ∧ k = 44 ∨ ∃ i, u = .block i ∧ i < nDirect ∧ k = 34 + i)) ∨
    ∃ c i, u = .block i ∧ nDirect ≤ i ∧ i < nIndirect ∧ s.indirect f = some c ∧ a = diskAddr c + i := by
  cases u with
  | indirect =>
    cases h
    exact .inl ⟨44, by decide, by decide, rfl, .inl ⟨rfl, rfl⟩⟩
  | block i =>
    have h : s.slot f i = some a := h
    unfold slot at h
    by_cases h₁ : i < nDirect
    · rw [if_pos h₁] at h
      cases h
      have hi : i < 10 := h₁
      exact .inl ⟨34 + i, by omega, by omega, Nat.add_assoc f 34 i, .inr ⟨i, rfl, h₁, rfl⟩⟩
    · rw [if_neg h₁] at h
      by_cases h₂ : i < nIndirect
      · rw [if_pos h₂] at h
        obtain ⟨c, hc, rfl⟩ := Option.map_eq_some_iff.1 h
        exact .inr ⟨c, i, rfl, Nat.not_lt.1 h₁, h₂, hc, rfl⟩
      · rw [if_neg h₂] at h
        cases h

theorem touches_slot (h : s.slotWord f u = some a) : Touches s f a := by
  rcases slotWord_cases h with ⟨k, h34, h45, rfl, -⟩ | ⟨c, i, -, h10, hi, hc, rfl⟩
  · exact .inl ⟨k, by omega, h45, rfl⟩
  · exact .inr ⟨c, i, h10, hi, hc, rfl⟩

theorem inSlots_slot (h : s.slotWord f u = some a) : s.InSlots f a := by
  rcases slotWord_cases h with ⟨k, h34, h45, rfl, -⟩ | ⟨c, i, -, h10, hi, hc, rfl⟩
  · exact .inl ⟨k, h34, h45, rfl⟩
  · exact .inr ⟨c, hc, diskAddr_div c hi⟩

theorem Owned.slotWord_inj (h : Owned s) (hf : File s f) (hu : s.slotWord f u = some a) (hw : s.slotWord f w = some a) :
    u = w := by
  rcases slotWord_cases hu with ⟨k, -, h45, rfl, hk⟩ | ⟨c, i, rfl, -, hi, hc, rfl⟩
  · rcases slotWord_cases hw with ⟨k', -, h45', heq, hk'⟩ | ⟨c', i', rfl, -, hi', hc', heq⟩
    · obtain rfl : k = k' := by omega
      rcases hk with ⟨rfl, rfl⟩ | ⟨i, rfl, hi, rfl⟩
      · rcases hk' with ⟨rfl, -⟩ | ⟨i, rfl, hi, h44⟩
        · rfl
        · unfold nDirect at hi
          omega
      · rcases hk' with ⟨rfl, h44⟩ | ⟨i', rfl, hi', h34⟩
        · unfold nDirect at hi
          omega
        · obtain rfl : i = i' := by omega
          rfl
    · exact absurd heq (h.entry_ne_indirect hf hf (Nat.lt_trans h45 (by decide)) hi' hc')
  · rcases slotWord_cases hw with ⟨k', -, h45', heq, -⟩ | ⟨c', i', rfl, -, hi', hc', heq⟩
    · exact absurd heq.symm (h.entry_ne_indirect hf hf (Nat.lt_trans h45' (by decide)) hi hc)
    · cases hc.symm.trans hc'
      obtain rfl : i = i' := by omega
      rfl

theorem holds_congr (hw : s'.slotWord f w = s.slotWord f w)
    (hview : ∀ a, s.slotWord f w = some a → s'.view a = s.view a) :
    s'.vol.holds f w = s.vol.holds f w := by
  rw [holds_eq, holds_eq, hw]
  cases hp : s.slotWord f w with
  | none => rfl
  | some a => rw [Option.bind_some, Option.bind_some, hview a hp]

theorem slotWord_congr (hind : s'.indirect f = s.indirect f) (w : Use) : s'.slotWord f w = s.slotWord f w := by
  cases w with
  | indirect => rfl
  | block i =>
    show s'.slot f i = s.slot f i
    unfold slot
    rw [hind]

/-! ## Into a slot -/

theorem sNblocks_lt (s : Fs) : s.sNblocks < 2 ^ 32 := (s.mem (blockWords + 1)).isLt

/-- `*ptr = w` -/
def put (s : Fs) (a : Nat) (w : Word) : Fs := { s with mem := Function.update s.mem a w }

theorem put_view {c : Nat} {w : Word} (hm : s.mapped (a / blockWords) = true) :
    (s.put a w).view c = if c = a then w else s.view c := by
  unfold put view
  by_cases h : c = a
  · subst h
    simp only [hm, Function.update_self, if_true]
  · simp only [Function.update_of_ne h, h, if_false]

theorem put_mem (w : Word) : (s.put a w).mem = Function.update s.mem a w := rfl

theorem put_free (w : Word) (hne : a ≠ blockWords + 1) (hbit : ¬s.InBitmap a) :
    (s.put a w).sNblocks = s.sNblocks ∧ ∀ c, (s.put a w).blockIsFree c = s.blockIsFree c := by
  have hn : (s.put a w).sNblocks = s.sNblocks := by
    unfold sNblocks
    rw [put_mem, Function.update_of_ne hne.symm]
  refine ⟨hn, fun c => ?_⟩
  unfold blockIsFree
  rw [hn]
  by_cases hc : c < s.sNblocks
  · have hca : bitmapWord c ≠ a := fun h => hbit (h ▸ inBitmap_word hc)
    rw [put_mem, Function.update_of_ne hca]
    rfl
  · rw [decide_eq_false hc, Bool.and_false, Bool.false_and, Bool.and_false, Bool.false_and]

theorem put_edit (w : Word) : Edit (· = a) s (s.put a w) := by
  refine .of_same rfl rfl rfl rfl (List.suffix_refl _) (fun c hc => ?_) fun _ _ _ => rfl
  unfold put view
  simp only [Function.update_of_ne hc]

/-- **The free block `b` gets into the empty slot `u` of the file.** -/
structure Attached (f : Nat) (u : Use) (b : Nat) (s s' : Fs) : Prop where
  edit : Edit (fun a => s.InBitmap a ∨ a / blockWords = b ∨ s.InSlots f a) s s'
  sNblocks : s'.sNblocks = s.sNblocks
  was : s.blockIsFree b = true
  empty : s.vol.holds f u = none
  free : ∀ c, s'.blockIsFree c = (s.blockIsFree c && !decide (c = b))
  holds : ∀ w, s'.vol.holds f w = if w = u then some b else s.vol.holds f w
  dir : s'.IsDir f ↔ s.IsDir f
  size : s'.view (fSize f) = s.view (fSize f)
  others : ∀ e, File s e → e ≠ f → s.vol.Agree s'.vol e
  page : ∀ k < blockWords, s'.view (diskAddr b + k) = s.leftover b k
  mapped : s'.mapped b = true
  read : ∀ c, s'.mapped c = true → s.mapped c = true ∨ c = b
  secure : ∀ a, a / blockWords ≠ b → s.slotWord f u ≠ some a → s.Secure a → s'.Secure a

theorem Owned.free_le (h : Owned s) (hb : s.blockIsFree b = true) : s.reserved ≤ b := by
  by_contra hc
  rw [h.low b (Nat.not_le.1 hc)] at hb
  exact absurd hb (by decide)

theorem Owned.free_ne (h : Owned s) (hb : s.blockIsFree b = true) (he : File s e) : s.vol.holds e w ≠ some b := by
  intro hc
  have hd : Data s b := h.vol.used e w b he hc
  rw [hd.used] at hb
  exact absurd hb (by decide)

/-- The words that say what a file holds are neither in the bitmap nor in a free block. -/
theorem Owned.touches_ne (h : Owned s) (he : File s e) (ha : Touches s e a) :
    ¬s.InBitmap a ∧ s.blockIsFree (a / blockWords) = false := by
  rcases h.touches_block he ha with ⟨h1, -⟩ | hd
  · rw [h1]
    refine ⟨fun hc => ?_, h.low 1 (Nat.lt_of_lt_of_le (by decide) (reserved_ge s))⟩
    have := hc.1
    omega
  · refine ⟨fun hc => ?_, hd.used⟩
    have := hc.2
    have := hd.le
    omega

theorem Owned.touches_ne_super (h : Owned s) (he : File s e) (ha : Touches s e a) : a ≠ blockWords + 1 := by
  rcases h.touches_block he ha with ⟨-, hne⟩ | hd
  · exact hne
  · rintro rfl
    exact absurd (Nat.le_trans (reserved_ge s) hd.le) (by decide)

theorem Owned.slot_ne (h : Owned s) (hf : File s f) (ha : s.slotWord f u = some a) {k : Nat} (hk : k < 34) :
    f + k ≠ a := by
  rcases slotWord_cases ha with ⟨k', h34, -, rfl, -⟩ | ⟨c, i, -, -, hi, hc, rfl⟩
  · omega
  · exact h.entry_ne_indirect hf hf (Nat.lt_trans hk (by decide)) hi hc

/-- **Of the words that say what the files hold, the one of a slot is written.** -/
structure Written (f : Nat) (u : Use) (a : Nat) (s s' : Fs) : Prop where
  slot : s.slotWord f u = some a
  view : ∀ e c, File s e → Touches s e c → c ≠ a → s'.view c = s.view c

namespace Written

variable (h : Written f u a s s') (ho : Owned s) (hf : File s f)
include h ho hf

theorem others (he : File s e) (hef : e ≠ f) : s.vol.Agree s'.vol e :=
  agree_of_view fun c hc => h.view e c he hc fun hca => hef (ho.touches_sole he hf hc (hca ▸ touches_slot h.slot))

theorem dir : s'.IsDir f ↔ s.IsDir f := by
  show s'.view (f + 33) = ftypeDir ↔ s.view (f + 33) = ftypeDir
  rw [h.view f _ hf (.inl ⟨33, by decide, by decide, rfl⟩) (ho.slot_ne hf h.slot (by decide))]

theorem size : s'.view (fSize f) = s.view (fSize f) :=
  h.view f _ hf (.inl ⟨32, by decide, by decide, rfl⟩) (ho.slot_ne hf h.slot (by decide))

theorem slotWord_eq (hw : w = u ∨ u ≠ .indirect) : s'.slotWord f w = s.slotWord f w := by
  by_cases hu : u = .indirect
  · subst hu
    rcases hw with rfl | hw
    · rfl
    · exact absurd rfl hw
  · have hind : s'.indirect f = s.indirect f := holds_congr (w := .indirect) rfl fun c hc =>
      h.view f c hf (touches_slot hc) fun hca => hu (ho.slotWord_inj hf h.slot (hca ▸ hc))
    exact slotWord_congr hind w

theorem holds_self : s'.vol.holds f u = if s'.view a = 0 then none else some (s'.view a).toNat := by
  rw [holds_eq, h.slotWord_eq ho hf (.inl rfl), h.slot]
  rfl

theorem holds_other (hw : w ≠ u) (hs : s'.slotWord f w = s.slotWord f w) : s'.vol.holds f w = s.vol.holds f w :=
  holds_congr hs fun c hc => h.view f c hf (touches_slot hc) fun hca => hw (ho.slotWord_inj hf hc (hca ▸ h.slot))

end Written

/-- A word of a slot is written where the words of the files had been left alone. -/
theorem written_put {s₁ : Fs} {v : Word} (ha : s.slotWord f u = some a) (hm : s₁.mapped (a / blockWords) = true)
    (hview : ∀ e c, File s e → Touches s e c → s₁.view c = s.view c) : Written f u a s (s₁.put a v) :=
  ⟨ha, fun e c he hc hca => by rw [put_view hm, if_neg hca, hview e c he hc]⟩

theorem slot_indirect {i : Nat} (h10 : ¬i < nDirect) : s.slotWord f (.block i) =
    if i < nIndirect then (s.indirect f).map fun b => diskAddr b + i else none := if_neg h10

theorem slot_direct {i : Nat} (h10 : i < nDirect) (s : Fs) : s.slotWord f (.block i) = some (fDirect f i) := if_pos h10

theorem Takes.attach {s₁ : Fs} (ho : Owned s) (hf : File s f) (ht : Takes b s s₁) (ha : s.slotWord f u = some a)
    (hm : s.mapped (a / blockWords) = true) (hnone : s.vol.holds f u = none) (hblank : u = .indirect → s.Blank b) :
    Attached f u b s (s₁.put a (BitVec.ofNat 32 b)) := by
  have htouch := touches_slot ha
  have hlt : b < s.sNblocks := (blockIsFree_iff.1 ht.was).2.1
  have hge := ho.free_le ht.was
  have hm₁ := ht.edit.mapped _ hm
  have hwr : Written f u a s (s₁.put a (BitVec.ofNat 32 b)) := written_put ha hm₁ fun e c he hc => by
    obtain ⟨hbit, hused⟩ := ho.touches_ne he hc
    refine ht.edit.view c fun h => h.elim hbit fun hcb => ?_
    rw [hcb, ht.was] at hused
    exact absurd hused (by decide)
  have hblock : ∀ {c}, c / blockWords = b → c ≠ a := by
    intro c hcb hca
    have hused := (ho.touches_ne hf htouch).2
    rw [← hca, hcb, ht.was] at hused
    exact absurd hused (by decide)
  have hsome : (s₁.put a (BitVec.ofNat 32 b)).vol.holds f u = some b := by
    have hb32 : b < 2 ^ 32 := Nat.lt_trans hlt (sNblocks_lt s)
    have hto : (BitVec.ofNat 32 b).toNat = b := by rw [BitVec.toNat_ofNat, Nat.mod_eq_of_lt hb32]
    have hne : ¬BitVec.ofNat 32 b = 0 := by
      intro h0
      rw [h0] at hto
      have := reserved_ge s
      have hz : (0 : Word).toNat = 0 := rfl
      omega
    rw [hwr.holds_self ho hf, put_view hm₁, if_pos rfl, if_neg hne, hto]
  have hres : s₁.reserved = s.reserved := by
    unfold reserved
    rw [ht.sNblocks]
  obtain ⟨hn, hfree⟩ := put_free (s := s₁) (BitVec.ofNat 32 b) (ho.touches_ne_super hf htouch) (fun hc =>
    (ho.touches_ne hf htouch).1 ⟨hc.1, hres ▸ hc.2⟩)
  refine ⟨?_, hn.trans ht.sNblocks, ht.was, hnone, fun c => (hfree c).trans (ht.free c), fun w => ?_, hwr.dir ho hf,
    hwr.size ho hf, fun e he hef => hwr.others ho hf he hef, fun k hk => ?_, ht.mapped, ht.read,
    fun c hc hslot hs => (put_edit _).secure c (fun hca => hslot (hca ▸ ha)) (ht.secure c hc hs)⟩
  · refine (ht.edit.mono fun c hc => hc.imp_right .inl).trans ((put_edit _).mono ?_)
    rintro c rfl
    exact .inr (.inr (inSlots_slot ha))
  · by_cases hwu : w = u
    · rw [if_pos hwu, hwu]
      exact hsome
    · rw [if_neg hwu]
      by_cases hu : u = .indirect
      · subst hu
        cases w with
        | indirect => exact absurd rfl hwu
        | block i =>
          by_cases h₁ : i < nDirect
          · exact hwr.holds_other ho hf hwu ((slot_direct h₁ _).trans (slot_direct h₁ s).symm)
          -- the blocks of the new indirect block: its page is blank
          · have hnone : s.indirect f = none := hnone
            have hsome : (s₁.put a (BitVec.ofNat 32 b)).indirect f = some b := hsome
            rw [holds_eq, holds_eq, slot_indirect h₁, slot_indirect h₁, hnone, hsome]
            by_cases h₂ : i < nIndirect
            · have hdiv := diskAddr_div b h₂
              rw [if_pos h₂, if_pos h₂, Option.map_some, Option.bind_some, put_view hm₁,
                if_neg (hblock hdiv), ht.page i h₂,
                hblank rfl i h₂]
              rfl
            · rw [if_neg h₂, if_neg h₂]
              rfl
      · exact hwr.holds_other ho hf hwu (hwr.slotWord_eq ho hf (.inr hu))
  · have hdiv := diskAddr_div b hk
    rw [put_view hm₁, if_neg (hblock hdiv), ht.page k hk]

theorem Data.of_free {c : Nat} (h : Data s c) (hn : s'.sNblocks = s.sNblocks) (hf : s'.blockIsFree c = false) :
    Data s' c :=
  ⟨by unfold reserved; rw [hn]; exact h.le, hn ▸ h.lt, hf⟩

theorem Edit.up {W : Nat → Prop} (h : Edit W s s') (hn : s'.sNblocks = s.sNblocks) (hu : Up s) : Up s' :=
  ⟨h.super.trans hu.super, h.bitmap.trans hu.bitmap, fun b h1 hb =>
    h.mapped b (hu.mapped b h1 (by unfold reserved at hb ⊢; rwa [hn] at hb))⟩

theorem blank_entry {n : Nat} (hz : ∀ k < blockWords, s.view (diskAddr b + k) = 0) (hn : Inside b n) :
    ¬s.IsDir n ∧ ∀ w, s.vol.holds n w = none := by
  obtain ⟨j, hj, rfl⟩ := mem_entries.1 hn
  have hword : ∀ k < fileWords, s.view (diskAddr b + fileWords * j + k) = 0 := by
    intro k hk
    rw [Nat.add_assoc]
    exact hz _ (Entry.lt_block hj hk)
  have hind : s.indirect (diskAddr b + fileWords * j) = none := if_pos (hword 44 (by decide))
  refine ⟨?_, fun w => ?_⟩
  · show ¬s.view (diskAddr b + fileWords * j + 33) = ftypeDir
    rw [hword 33 (by decide)]
    decide
  · cases w with
    | indirect => exact hind
    | block i =>
      show s.blockAt (diskAddr b + fileWords * j) i = none
      unfold blockAt slot
      rw [hind]
      by_cases h₁ : i < nDirect
      · have hi : i < 10 := h₁
        have hk := hword (34 + i) (Nat.lt_trans (Nat.add_lt_add_left hi 34) (by decide))
        rw [← Nat.add_assoc] at hk
        rw [if_pos h₁, Option.bind_some]
        exact if_pos hk
      · rw [if_neg h₁]
        by_cases h₂ : i < nIndirect
        · rw [if_pos h₂]
          rfl
        · rw [if_neg h₂]
          rfl

/-- The block gets into a directory. -/
def Grows (s : Fs) (f : Nat) (u : Use) : Prop := s.IsDir f ∧ ∃ i < s.nblocks f, u = .block i

namespace Attached

variable (h : Attached f u b s s')
include h

theorem count : s'.nblocks f = s.nblocks f := by
  unfold nblocks
  rw [h.size]

theorem holds_of_ne {c : Nat} (hb : s'.vol.holds f w = some c) : w = u ∧ c = b ∨ s.vol.holds f w = some c := by
  rw [h.holds] at hb
  by_cases hwu : w = u
  · rw [if_pos hwu] at hb
    exact .inl ⟨hwu, (Option.some.inj hb).symm⟩
  · rw [if_neg hwu] at hb
    exact .inr hb

/-- **Every file stays.** -/
theorem file {n : Nat} (hn : File s n) : File s' n := by
  refine Volume.node_mono (fun m hm => ?_) hn
  by_cases hmf : m = f
  · subst hmf
    refine fun hd => ⟨h.dir.2 hd, fun i c hi hc => ⟨Nat.lt_of_lt_of_eq hi h.count.symm, ?_⟩⟩
    rw [h.holds]
    by_cases hu : Use.block i = u
    · rw [hu, h.empty] at hc
      cases hc
    · rw [if_neg hu]
      exact hc
  · exact (h.others m hm hmf).keeps

/-- **No files come**, but the entries of a block of a directory. -/
theorem file_back (hblank : Grows s f u → s.Blank b) {n : Nat} (hn : File s' n) :
    File s n ∨ (Grows s f u ∧ Inside b n ∧ ¬s'.IsDir n ∧ ∀ w, s'.vol.holds n w = none) := by
  by_cases hg : Grows s f u
  · have hz : ∀ k < blockWords, s'.view (diskAddr b + k) = 0 := by
      intro k hk
      rw [h.page k hk, hblank hg k hk]
    have hgrow := Volume.node_grow (x := f) (c := b) (fun m hm hmf => (h.others m hm hmf).keeps_back)
        (fun i c hi hc => ?_)
      (fun m hm => (blank_entry hz hm).1) hn
    · exact hgrow.imp_right fun hin => ⟨hg, hin, blank_entry hz hin⟩
    · rcases h.holds_of_ne hc with ⟨-, rfl⟩ | hc
      · exact .inr rfl
      · exact .inl ⟨hg.1, Nat.lt_of_lt_of_eq hi h.count, hc⟩
  · refine .inl (Volume.node_back (fun m hm => ?_) hn)
    by_cases hmf : m = f
    · subst hmf
      refine fun hd => ⟨h.dir.1 hd, fun i c hi hc => ⟨Nat.lt_of_lt_of_eq hi h.count, ?_⟩⟩
      rcases h.holds_of_ne hc with ⟨hu, -⟩ | hc
      · exact absurd ⟨h.dir.1 hd, i, Nat.lt_of_lt_of_eq hi h.count, hu.symm⟩ hg
      · exact hc
    · exact (h.others m hm hmf).keeps_back

/-- **The blocks of the files are theirs**, as they were. -/
theorem owned (ho : Owned s) (hblank : Grows s f u → s.Blank b) : Owned s' := by
  have hr : s'.reserved = s.reserved := by
    unfold reserved
    rw [h.sNblocks]
  refine ⟨h.edit.up h.sNblocks ho.up, h.sNblocks ▸ ho.small, fun c hc => ?_,
    ho.vol.step (x := f) (T := fun w c => w = u ∧ c = b)
    (fun n w c hn hc => ?_) (fun w w' c hw hw' => hw.1.trans hw'.1.symm) ?_ (fun n w c hn hc => ?_)⟩
  · rw [h.free, ho.low c (hr ▸ hc)]
    rfl
  · rcases h.file_back hblank hn with hn | ⟨-, -, -, hnone⟩
    · by_cases hnf : n = f
      · subst hnf
        exact (h.holds_of_ne hc).elim (fun ht => .inr ⟨rfl, ht⟩) fun hc => .inl ⟨hn, hc⟩
      · rw [(h.others n hn hnf).holds] at hc
        exact .inl ⟨hn, hc⟩
    · rw [hnone] at hc
      cases hc
  · rintro w c ⟨-, rfl⟩ n w' hn
    exact ho.free_ne h.was hn
  · -- what is held is in use
    have hdata : s.vol.holds n w = some c → File s n → Data s' c := fun hc hn => by
      have hd : Data s c := ho.vol.used n w c hn hc
      exact hd.of_free h.sNblocks (by rw [h.free, hd.used]; rfl)
    rcases h.file_back hblank hn with hn | ⟨-, -, -, hnone⟩
    · by_cases hnf : n = f
      · subst hnf
        rcases h.holds_of_ne hc with ⟨-, rfl⟩ | hc
        · refine ⟨hr ▸ ho.free_le h.was, h.sNblocks ▸ (blockIsFree_iff.1 h.was).2.1, ?_⟩
          rw [h.free, decide_eq_true rfl, Bool.not_true, Bool.and_false]
        · exact hdata hc hn
      · rw [(h.others n hn hnf).holds] at hc
        exact hdata hc hn
    · rw [hnone] at hc
      cases hc

end Attached

/-! ## Out of a slot -/

/-- What goes with a slot: the blocks of an indirect block go with it. -/
def Goes (u w : Use) : Prop := w = u ∨ (u = .indirect ∧ ∃ i, nDirect ≤ i ∧ w = .block i)

/-- **The block `b` is freed and its slot emptied.** -/
structure Detached (f : Nat) (u : Use) (b : Nat) (s s' : Fs) : Prop where
  edit : Edit (fun a => s.InBitmap a ∨ s.InSlots f a) s s'
  mapped : s'.mapped = s.mapped
  pages : s'.pages = s.pages
  sNblocks : s'.sNblocks = s.sNblocks
  held : s.vol.holds f u = some b
  free : ∀ c, s'.blockIsFree c = (s.blockIsFree c || decide (c = b))
  gone : ∀ w, Goes u w → s'.vol.holds f w = none
  holds : ∀ w, ¬Goes u w → s'.vol.holds f w = s.vol.holds f w
  dir : s'.IsDir f ↔ s.IsDir f
  size : s'.view (fSize f) = s.view (fSize f)
  others : ∀ e, File s e → e ≠ f → s.vol.Agree s'.vol e

theorem Owned.detach (ho : Owned s) (hf : File s f) (ha : s.slotWord f u = some a)
    (hm : s.mapped (a / blockWords) = true) (hheld : s.vol.holds f u = some b) :
    Detached f u b s ((s.setBit b).put a 0) := by
  have htouch := touches_slot ha
  have hd : Data s b := ho.vol.used f u b hf hheld
  have hm₁ : (s.setBit b).mapped (a / blockWords) = true := hm
  have hwr : Written f u a s ((s.setBit b).put a 0) := written_put ha hm₁ fun e c he hc =>
    setBit_view fun hcb => (ho.touches_ne he hc).1 (hcb ▸ inBitmap_word hd.lt)
  obtain ⟨hn₁, hfree₁⟩ := setBit_free ho.up hd.lt
  have hres : (s.setBit b).reserved = s.reserved := by
    unfold reserved
    rw [hn₁]
  obtain ⟨hn, hfree⟩ := put_free (s := s.setBit b) 0 (ho.touches_ne_super hf htouch) (fun hc =>
    (ho.touches_ne hf htouch).1 ⟨hc.1, hres ▸ hc.2⟩)
  have hnone : ((s.setBit b).put a 0).vol.holds f u = none := by
    rw [hwr.holds_self ho hf, put_view hm₁, if_pos rfl]
    rfl
  refine ⟨?_, rfl, rfl, hn.trans hn₁, hheld, fun c => (hfree c).trans (hfree₁ c), fun w hw => ?_, fun w hw => ?_,
    hwr.dir ho hf, hwr.size ho hf, fun e he hef => hwr.others ho hf he hef⟩
  · have hset : Edit (fun a => s.InBitmap a ∨ s.InSlots f a) s (s.setBit b) :=
      setBit_edit.mono fun c hc => .inl (hc ▸ inBitmap_word hd.lt)
    refine hset.trans ((put_edit _).mono ?_)
    rintro c rfl
    exact .inr (inSlots_slot ha)
  · rcases hw with rfl | ⟨rfl, i, h10, rfl⟩
    · exact hnone
    · have hnone : ((s.setBit b).put a 0).indirect f = none := hnone
      rw [holds_eq, slot_indirect (Nat.not_lt.2 h10), hnone]
      by_cases h₂ : i < nIndirect
      · rw [if_pos h₂]
        rfl
      · rw [if_neg h₂]
        rfl
  · have hwu : w ≠ u := fun h => hw (.inl h)
    refine hwr.holds_other ho hf hwu ?_
    by_cases hu : u = .indirect
    · subst hu
      cases w with
      | indirect => exact absurd rfl hwu
      | block i =>
        have h₁ : i < nDirect := by
          by_contra hc
          exact hw (.inr ⟨rfl, i, Nat.not_lt.1 hc, rfl⟩)
        exact (slot_direct h₁ _).trans (slot_direct h₁ s).symm
    · exact hwr.slotWord_eq ho hf (.inr hu)

namespace Detached

variable (h : Detached f u b s s')
include h

theorem count : s'.nblocks f = s.nblocks f := by
  unfold nblocks
  rw [h.size]

theorem holds_of {c : Nat} (hb : s'.vol.holds f w = some c) : ¬Goes u w ∧ s.vol.holds f w = some c := by
  by_cases hw : Goes u w
  · rw [h.gone w hw] at hb
    cases hb
  · exact ⟨hw, h.holds w hw ▸ hb⟩

/-- **No files come.** -/
theorem file_back {n : Nat} (hn : File s' n) : File s n := by
  refine Volume.node_back (fun m hm => ?_) hn
  by_cases hmf : m = f
  · subst hmf
    exact fun hd => ⟨h.dir.1 hd, fun i c hi hc => ⟨Nat.lt_of_lt_of_eq hi h.count, (h.holds_of hc).2⟩⟩
  · exact (h.others m hm hmf).keeps_back

/-- **Files go** where they were below the directory that loses the block. -/
theorem file {n : Nat} (hn : File s n) : File s' n ∨ s.vol.Below Inside f n :=
  Volume.node_above (fun m hm hmf => (h.others m hm hmf).keeps) hn

theorem owned (ho : Owned s) (hf : File s f) : Owned s' := by
  have hr : s'.reserved = s.reserved := by
    unfold reserved
    rw [h.sNblocks]
  have hd : Data s b := ho.vol.used f u b hf h.held
  have hback : ∀ n w c, File s' n → s'.vol.holds n w = some c → File s n ∧ s.vol.holds n w = some c ∧ c ≠ b := by
    intro n w c hn hc
    have hn := h.file_back hn
    by_cases hnf : n = f
    · subst hnf
      obtain ⟨hw, hc⟩ := h.holds_of hc
      refine ⟨hn, hc, ?_⟩
      rintro rfl
      exact hw (.inl (ho.vol.sole n n w u c hn hf hc h.held).2)
    · rw [(h.others n hn hnf).holds] at hc
      refine ⟨hn, hc, ?_⟩
      rintro rfl
      exact hnf (ho.vol.sole n f w u c hn hf hc h.held).1
  refine ⟨h.edit.up h.sNblocks ho.up, h.sNblocks ▸ ho.small, fun c hc => ?_,
    ho.vol.step (x := f) (T := fun _ _ => False)
    (fun n w c hn hc => ?_) (fun _ _ _ h => h.elim) (fun _ _ h => h.elim) (fun n w c hn hc => ?_)⟩
  · have hcb : c ≠ b := by
      rintro rfl
      exact absurd (hr ▸ hc) (Nat.not_lt.2 hd.le)
    rw [h.free, ho.low c (hr ▸ hc), decide_eq_false hcb]
    rfl
  · obtain ⟨hn, hc, -⟩ := hback n w c hn hc
    exact .inl ⟨hn, hc⟩
  · obtain ⟨hn, hc, hcb⟩ := hback n w c hn hc
    have hdc : Data s c := ho.vol.used n w c hn hc
    exact hdc.of_free h.sNblocks (by rw [h.free, hdc.used, decide_eq_false hcb]; rfl)

end Detached

end Fs

end Mos
