import Mos.FsHold
/-!
# FsAlloc — a block is taken from the bitmap, and given back

`alloc_block` takes the first free block and sees to a page for it.  A block that has its page already keeps what the
page has in it; otherwise the page is blank.
-/
namespace Mos

open Fallible FilePtr

theorem getLsbD_clear (w : Word) {i j : Nat} (hj : j < 32) :
    (w &&& ~~~BitVec.twoPow 32 i).getLsbD j = (w.getLsbD j && !decide (j = i)) := by
  rw [BitVec.getLsbD_and, BitVec.getLsbD_not, BitVec.getLsbD_twoPow, decide_eq_true hj, Bool.true_and]
  by_cases h : j = i
  · subst h
    simp [hj]
  · have h' : ¬i = j := fun hc => h hc.symm
    simp [h, h']

theorem getLsbD_set (w : Word) {i j : Nat} (hj : j < 32) :
    (w ||| BitVec.twoPow 32 i).getLsbD j = (w.getLsbD j || decide (j = i)) := by
  rw [BitVec.getLsbD_or, BitVec.getLsbD_twoPow]
  by_cases h : j = i
  · subst h
    simp [hj]
  · have h' : ¬i = j := fun hc => h hc.symm
    simp [h, h']

theorem clear_set {w : Word} {i : Nat} (h : w.getLsbD i = true) :
    (w &&& ~~~BitVec.twoPow 32 i) ||| BitVec.twoPow 32 i = w := by
  refine BitVec.eq_of_getLsbD_eq fun j hj => ?_
  rw [getLsbD_set _ hj, getLsbD_clear _ hj]
  by_cases hji : j = i
  · rw [hji, h]
    simp
  · simp [hji]

namespace Fs

/-- `syscall_mem_alloc` found a page for the block. -/
def withPage (s : Fs) (b : Nat) : Fs :=
  { s with
    mem := fun a => if a / blockWords = b then 0 else s.mem a
    mapped := Function.update s.mapped b true
    dirty := Function.update s.dirty b false
    pages := s.pages.tail }

/-- The blocks that `alloc_block_num` takes, in its order. -/
def freeBlocks (s : Fs) : List Nat :=
  (List.range' 3 (s.sNblocks - 3)).filter fun b => (s.mem (bitmapWord b)).getLsbD (b % 32)

/-- The word is one of the bitmap. -/
def InBitmap (s : Fs) (a : Nat) : Prop := 2 ≤ a / blockWords ∧ a / blockWords < s.reserved

/-- What a block has in it once it is taken: what its page has, or else zeroes. -/
def leftover (s : Fs) (b k : Nat) : Word := if s.mapped b then s.mem (diskAddr b + k) else 0

/-- **The block has no stale page.** -/
def Blank (s : Fs) (b : Nat) : Prop := ∀ k < blockWords, s.leftover b k = 0

/-- **A block is taken from the bitmap.** -/
structure Takes (b : Nat) (s s' : Fs) : Prop where
  edit : Edit (fun a => s.InBitmap a ∨ a / blockWords = b) s s'
  sNblocks : s'.sNblocks = s.sNblocks
  was : s.blockIsFree b = true
  free : ∀ c, s'.blockIsFree c = (s.blockIsFree c && !decide (c = b))
  page : ∀ k < blockWords, s'.view (diskAddr b + k) = s.leftover b k
  mapped : s'.mapped b = true
  read : ∀ c, s'.mapped c = true → s.mapped c = true ∨ c = b
  /-- The block of the bitmap is written at once. -/
  secure : ∀ a, a / blockWords ≠ b → s.Secure a → s'.Secure a

/-- **No page is refused** between the two states. -/
def Calm (s s' : Fs) : Prop := ∀ l, s.pages = l ++ s'.pages → false ∉ l

variable {s s' : Fs} {b : Nat}

theorem blockIsFree_iff : s.blockIsFree b = true ↔
    s.super = true ∧ b < s.sNblocks ∧ (s.mem (bitmapWord b)).getLsbD (b % 32) = true := by
  unfold blockIsFree
  rw [Bool.and_eq_true, Bool.and_eq_true, decide_eq_true_eq, and_assoc]

theorem mem_freeBlocks (hs : s.super = true) : b ∈ s.freeBlocks ↔ 3 ≤ b ∧ s.blockIsFree b = true := by
  unfold freeBlocks
  rw [List.mem_filter, List.mem_range'_1, blockIsFree_iff]
  constructor
  · rintro ⟨⟨h3, hlt⟩, hbit⟩
    exact ⟨h3, hs, by omega, hbit⟩
  · rintro ⟨h3, -, hlt, hbit⟩
    exact ⟨⟨h3, by omega⟩, hbit⟩

theorem inBitmap_word (hb : b < s.sNblocks) : s.InBitmap (bitmapWord b) := by
  refine ⟨?_, bitmapWord_reserved hb⟩
  rw [bitmapWord_div]
  exact Nat.le_add_right 2 _

/-- **The bit of one block is written**: `g` is what becomes of a word. -/
theorem blockIsFree_update {m : Nat → Word} {p : Bool → Bool} (hu : Up s) (hm : s'.mem = m) (hb : b < s.sNblocks)
    (hsuper : s'.super = s.super) (hother : ∀ a, a ≠ bitmapWord b → m a = s.mem a)
    (hword : ∀ j < 32, (m (bitmapWord b)).getLsbD j =
      if j = b % 32 then p ((s.mem (bitmapWord b)).getLsbD j) else (s.mem (bitmapWord b)).getLsbD j) :
    s'.sNblocks = s.sNblocks ∧ ∀ c, s'.blockIsFree c = if c = b then p (s.blockIsFree c) else s.blockIsFree c := by
  have hn : s'.sNblocks = s.sNblocks := by
    unfold sNblocks
    rw [hm, hother]
    intro heq
    have h2 := (inBitmap_word hb).1
    rw [← heq] at h2
    exact absurd h2 (by decide)
  refine ⟨hn, fun c => ?_⟩
  unfold blockIsFree
  rw [hn, hsuper, hu.super, hm, Bool.true_and]
  by_cases hcn : c < s.sNblocks
  · rw [decide_eq_true hcn, Bool.true_and, Bool.true_and]
    by_cases hw : c / 32 = b / 32
    · have hwc : bitmapWord c = bitmapWord b := by
        unfold bitmapWord
        rw [hw]
      rw [hwc, hword _ (Nat.mod_lt _ (by decide))]
      by_cases hcb : c = b
      · rw [hcb, if_pos rfl, if_pos rfl]
      · rw [if_neg hcb, if_neg (by omega)]
    · have hne : bitmapWord c ≠ bitmapWord b := by
        unfold bitmapWord
        omega
      have hcb : c ≠ b := fun h => hw (by rw [h])
      rw [hother _ hne, if_neg hcb]
  · have hcb : c ≠ b := fun h => hcn (h ▸ hb)
    rw [if_neg hcb, decide_eq_false hcn, Bool.false_and, Bool.false_and]

theorem withPage_view {a : Nat} : (s.withPage b).view a = if a / blockWords = b then 0 else s.view a := by
  unfold withPage view
  by_cases h : a / blockWords = b
  · simp only [h, Function.update_self, if_true]
  · simp only [h, Function.update_of_ne h, if_false]

theorem withPage_mapped {c : Nat} (h : s.mapped c = true) : (s.withPage b).mapped c = true := by
  unfold withPage
  by_cases hcb : c = b
  · rw [hcb]
    exact Function.update_self _ _ _
  · exact (Function.update_of_ne hcb _ _).trans h

/-- The bit is cleared, and the block of the bitmap is written. -/
def clearBit (s : Fs) (b : Nat) : Fs :=
  let m := Function.update s.mem (bitmapWord b) (s.mem (bitmapWord b) &&& ~~~BitVec.twoPow 32 (b % 32))
  { s with
    mem := m
    disk := fun a => if a / blockWords = b / blockSizeBit + 2 then m a else s.disk a }

theorem clearBit_mem : (s.clearBit b).mem =
    Function.update s.mem (bitmapWord b) (s.mem (bitmapWord b) &&& ~~~BitVec.twoPow 32 (b % 32)) := rfl

theorem clearBit_view (hu : Up s) (hb : b < s.sNblocks) {a : Nat} (ha : a ≠ bitmapWord b) :
    (s.clearBit b).view a = s.view a := by
  have hm : s.mapped (b / blockSizeBit + 2) = true := by
    rw [Nat.add_comm, ← bitmapWord_div]
    exact hu.bitmap_mapped hb
  unfold clearBit view
  simp only [Function.update_of_ne ha]
  by_cases hma : s.mapped (a / blockWords) = true
  · rw [if_pos hma, if_pos hma]
  · have hne : a / blockWords ≠ b / blockSizeBit + 2 := fun h => hma (h ▸ hm)
    rw [if_neg hma, if_neg hma, if_neg hne]

theorem clearBit_free (hu : Up s) (hb : b < s.sNblocks) : (s.clearBit b).sNblocks = s.sNblocks ∧
    ∀ c, (s.clearBit b).blockIsFree c = (s.blockIsFree c && !decide (c = b)) := by
  have hbit := @blockIsFree_update s (s.clearBit b) _ _ (fun _ => false) hu rfl hb rfl
      (fun a ha => Function.update_of_ne ha _ _)
    fun j hj => by
      rw [clearBit_mem, Function.update_self, getLsbD_clear _ hj]
      by_cases h : j = b % 32
      · simp [h]
      · simp [h]
  refine ⟨hbit.1, fun c => ?_⟩
  rw [hbit.2]
  by_cases h : c = b
  · simp [h]
  · simp [h]

/-- The block of the bitmap is on the disk, and the other blocks are as they were. -/
theorem clearBit_secure (hu : Up s) (hb : b < s.sNblocks) {a : Nat} (h : s.Secure a) : (s.clearBit b).Secure a := by
  by_cases hblock : a / blockWords = b / blockSizeBit + 2
  · have hm : (s.clearBit b).mapped (a / blockWords) = true := by
      rw [hblock, Nat.add_comm, ← bitmapWord_div]
      exact hu.bitmap_mapped hb
    exact .inr ((if_pos hm).trans (if_pos hblock).symm)
  · have hview : (s.clearBit b).view a = s.view a :=
      clearBit_view hu hb fun heq => hblock (by rw [heq, bitmapWord_div, Nat.add_comm])
    have hdisk : (s.clearBit b).disk a = s.disk a := if_neg hblock
    exact h.imp_right fun hs => by rw [hview, hdisk, hs]

theorem withPage_secure {a : Nat} (ha : a / blockWords ≠ b) (h : s.Secure a) : (s.withPage b).Secure a := by
  have hview : (s.withPage b).view a = s.view a := withPage_view.trans (if_neg ha)
  refine h.imp (fun hm => ?_) fun hs => hview.trans hs
  exact ⟨(Function.update_of_ne ha _ _).trans hm.1, (Function.update_of_ne ha _ _).trans hm.2⟩

/-- `bitmap[b / 32] |= 1 << (b % 32)` -/
def setBit (s : Fs) (b : Nat) : Fs :=
  { s with mem := Function.update s.mem (bitmapWord b) (s.mem (bitmapWord b) ||| BitVec.twoPow 32 (b % 32)) }

theorem setBit_mem : (s.setBit b).mem =
    Function.update s.mem (bitmapWord b) (s.mem (bitmapWord b) ||| BitVec.twoPow 32 (b % 32)) := rfl

theorem setBit_view {a : Nat} (ha : a ≠ bitmapWord b) : (s.setBit b).view a = s.view a := by
  unfold setBit view
  simp only [Function.update_of_ne ha]

theorem setBit_edit : Edit (· = bitmapWord b) s (s.setBit b) :=
  .of_same rfl rfl rfl rfl (List.suffix_refl _) (fun _ => setBit_view) fun _ _ _ => rfl

theorem setBit_free (hu : Up s) (hb : b < s.sNblocks) : (s.setBit b).sNblocks = s.sNblocks ∧
    ∀ c, (s.setBit b).blockIsFree c = (s.blockIsFree c || decide (c = b)) := by
  have hbit := @blockIsFree_update s (s.setBit b) _ _ (fun _ => true) hu rfl hb rfl
      (fun a ha => Function.update_of_ne ha _ _)
    fun j hj => by
      rw [setBit_mem, Function.update_self, getLsbD_set _ hj]
      by_cases h : j = b % 32
      · simp [h]
      · simp [h]
  refine ⟨hbit.1, fun c => ?_⟩
  rw [hbit.2]
  by_cases h : c = b
  · simp [h]
  · simp [h]

end Fs

open Fs

/-- **`free_block`** of a block there is. -/
theorem freeBlock_eq {s : Fs} {b : Nat} (h0 : b ≠ 0) (hb : b < s.sNblocks) :
    freeBlock b s = some (.ok (), s.setBit b) := by
  have h : ¬(b = 0 ∨ s.sNblocks ≤ b) := fun h => h.elim h0 (Nat.not_le.2 hb)
  have hmod : freeBlock b s = some (.ok (), if b = 0 ∨ s.sNblocks ≤ b then s else s.setBit b) := rfl
  rw [hmod, if_neg h]

theorem allocBlockNum_none {s : Fs} (h : s.freeBlocks = []) : allocBlockNum s = some (.error (-eNoDisk), s) := by
  have hfind : ((List.range' 3 (s.sNblocks - 3)).find? fun b => (s.mem (Fs.bitmapWord b)).getLsbD (b % 32)) = none := by
    rw [← List.head?_filter]
    exact congrArg List.head? h
  unfold allocBlockNum
  rw [bind_read]
  simp only [id_eq, hfind]
  rfl

/-- **`alloc_block_num`** takes the first free block. -/
theorem allocBlockNum_some {s : Fs} {b : Nat} {rest : List Nat} (hu : Up s) (h : s.freeBlocks = b :: rest) :
    allocBlockNum s = some (.ok b, s.clearBit b) := by
  have hfind : ((List.range' 3 (s.sNblocks - 3)).find? fun b => (s.mem (Fs.bitmapWord b)).getLsbD (b % 32)) =
      some b := by
    rw [← List.head?_filter]
    exact congrArg List.head? h
  have hfree : s.blockIsFree b = true := ((mem_freeBlocks hu.super).1 (h ▸ List.mem_cons_self)).2
  have hm : s.mapped (b / blockSizeBit + 2) = true := by
    rw [Nat.add_comm, ← bitmapWord_div]
    exact hu.bitmap_mapped (blockIsFree_iff.1 hfree).2.1
  have hwrite : ∀ m : Nat → Word, writeBlock (b / blockSizeBit + 2) { s with mem := m } = some (.ok (), { s with
      mem := m
      disk := fun a => if a / blockWords = b / blockSizeBit + 2 then m a else s.disk a }) := by
    intro m
    unfold writeBlock
    rw [bind_read]
    simp only [id_eq, hm, Bool.not_true, Bool.false_eq_true, if_false]
    rfl
  unfold allocBlockNum
  rw [bind_read]
  simp only [id_eq, hfind]
  rw [bind_of_ok (show
      storeWord (Fs.bitmapWord b) (s.mem (Fs.bitmapWord b) &&& ~~~BitVec.twoPow 32 (b % 32)) s =
        some (.ok (), { s with
          mem := Function.update s.mem (Fs.bitmapWord b)
            (s.mem (Fs.bitmapWord b) &&& ~~~BitVec.twoPow 32 (b % 32)) }) from rfl),
    bind_of_ok (hwrite _)]
  rfl

/-- **`alloc_block`**: the first free block, or the reason why there is none. -/
theorem allocBlock_spec {s : Fs} (ho : Owned s) :
    (s.freeBlocks = [] ∧ allocBlock s = some (.error (-eNoDisk), s)) ∨
    ∃ b rest, s.freeBlocks = b :: rest ∧
      ((∃ s', allocBlock s = some (.ok b, s') ∧ Takes b s s') ∨
        (s.mapped b = false ∧ false ∈ s.pages ∧
          ∃ s', allocBlock s = some (.error (-eNoMem), s') ∧ Edit s.InBitmap s s' ∧
            (∀ a, s'.view a = s.view a) ∧ ¬Calm s s' ∧
            s'.mapped = s.mapped)) := by
  have hu := ho.up
  cases hfb : s.freeBlocks with
  | nil => exact .inl ⟨rfl, by unfold allocBlock; rw [bind_of_error (allocBlockNum_none hfb)]⟩
  | cons b rest =>
    refine .inr ⟨b, rest, rfl, ?_⟩
    have hfree : s.blockIsFree b = true := ((mem_freeBlocks hu.super).1 (hfb ▸ List.mem_cons_self)).2
    have hlt : b < s.sNblocks := (blockIsFree_iff.1 hfree).2.1
    have hge : s.reserved ≤ b := by
      by_contra hc
      rw [ho.low b (Nat.not_le.1 hc)] at hfree
      exact absurd hfree (by decide)
    have hne : ∀ a, a / blockWords = b → a ≠ bitmapWord b := by
      rintro a rfl heq
      have := (inBitmap_word hlt).2
      rw [← heq] at this
      omega
    obtain ⟨hn, hbits⟩ := clearBit_free hu hlt
    have hsec : ∀ a, s.Secure a → (s.clearBit b).Secure a := fun a => clearBit_secure hu hlt
    unfold allocBlock
    rw [bind_of_ok (allocBlockNum_some hu hfb)]
    by_cases hm : s.mapped b = true
    · have hmap : mapBlock b (s.clearBit b) = some (.ok (), s.clearBit b) := by
        unfold mapBlock
        rw [bind_read]
        exact congrFun (if_pos hm) _
      rw [bind_attempt hmap]
      refine .inl ⟨s.clearBit b, rfl,
        ⟨fun a ha => ?_, fun a _ => hsec a, fun _ h => h, rfl, rfl, List.suffix_refl _⟩, hn, hfree, hbits,
        fun k hk => ?_, hm, fun _ => .inl, fun a _ => hsec a⟩
      · exact clearBit_view hu hlt fun h => ha (.inl (h ▸ inBitmap_word hlt))
      · have hdiv := diskAddr_div b hk
        unfold leftover
        rw [if_pos hm, clearBit_view hu hlt (hne _ hdiv), mem_eq_view (by rw [hdiv]; exact hm)]
    · have hmap : mapBlock b (s.clearBit b) = memAllocBlock b (s.clearBit b) := by
        unfold mapBlock
        rw [bind_read]
        exact congrFun (if_neg hm) _
      have hup : Up (s.clearBit b) :=
        ⟨hu.super, hu.bitmap, fun c h1 hc => hu.mapped c h1 (by unfold reserved at hc; rwa [hn] at hc)⟩
      by_cases hp : s.pages.headD true = true
      · have hpage : mapBlock b (s.clearBit b) = some (.ok (), (s.clearBit b).withPage b) :=
          hmap.trans ((memAllocBlock_eq b _).trans (if_pos hp))
        rw [bind_attempt hpage]
        obtain ⟨hn', -, hbits'⟩ := @Up.congr _ ((s.clearBit b).withPage b) hup (fun a ha => by
          unfold reserved at ha
          rw [hn] at ha
          rw [withPage_view, if_neg (by intro h; exact absurd (h ▸ ha) (Nat.not_lt.2 hge))]) (fun c hc =>
            withPage_mapped hc) rfl rfl
        refine .inl ⟨_, rfl, ⟨fun a ha => ?_, fun a ha hs => withPage_secure (fun h => ha (.inr h)) (hsec a hs),
          fun c hc => withPage_mapped (s := s.clearBit b) hc, rfl, rfl, List.tail_suffix _⟩, hn'.trans hn, hfree,
          fun c => (hbits' c).trans (hbits c), fun k hk => ?_, Function.update_self _ _ _, fun c hc => ?_,
          fun a ha hs => withPage_secure ha (hsec a hs)⟩
        · rw [withPage_view, if_neg fun h => ha (.inr h)]
          exact clearBit_view hu hlt fun h => ha (.inl (h ▸ inBitmap_word hlt))
        · rw [withPage_view, if_pos (diskAddr_div b hk)]
          exact (if_neg hm).symm
        · by_cases hcb : c = b
          · exact .inr hcb
          · exact .inl ((Function.update_of_ne hcb _ _).symm.trans hc)
      · have hpage : mapBlock b (s.clearBit b) = some (.error (-eNoMem), { s.clearBit b with pages := s.pages.tail }) :=
          hmap.trans ((memAllocBlock_eq b _).trans (if_neg hp))
        have hfreed : freeBlock b { s.clearBit b with pages := s.pages.tail } =
            some (.ok (), Fs.setBit { s.clearBit b with pages := s.pages.tail } b) :=
          freeBlock_eq (Nat.ne_of_gt (Nat.lt_of_lt_of_le (by decide) (Nat.le_trans (reserved_ge s) hge)))
            (hn.symm ▸ hlt)
        have hmem : (Fs.setBit { s.clearBit b with pages := s.pages.tail } b).mem = s.mem := by
          rw [setBit_mem]
          simp only [clearBit_mem, Function.update_self, Function.update_idem]
          rw [clear_set (blockIsFree_iff.1 hfree).2.2, Function.update_eq_self]
        have hview : ∀ a, (Fs.setBit { s.clearBit b with pages := s.pages.tail } b).view a = s.view a := by
          intro a
          by_cases ha : a = bitmapWord b
          · have hma : s.mapped (a / blockWords) = true := ha ▸ hu.bitmap_mapped hlt
            rw [← mem_eq_view hma,
              ← mem_eq_view (s := Fs.setBit { s.clearBit b with pages := s.pages.tail } b) hma, hmem]
          · rw [setBit_view ha]
            exact clearBit_view hu hlt ha
        rw [bind_attempt hpage]
        refine .inr ⟨Bool.eq_false_iff.2 hm, headD_false hp, _, bind_of_ok hfreed,
          ⟨fun a _ => hview a, fun a ha hs => ?_, fun _ h => h,
          rfl, rfl, List.tail_suffix _⟩, hview, fun hcalm => ?_, rfl⟩
        · have hne : a ≠ bitmapWord b := fun h => ha (h ▸ inBitmap_word hlt)
          exact (hsec a hs).imp_right fun hs => ((hview a).trans (clearBit_view hu hlt hne).symm).trans hs
        · -- the page that was refused
          cases hpages : s.pages with
          | nil => exact hp (by rw [hpages]; rfl)
          | cons p ps =>
            refine hcalm [p] (hpages.trans (congrArg (fun s : List Bool => p :: s.tail) hpages.symm)) ?_
            have hpf : p = false := by simpa [hpages] using hp
            rw [hpf]
            exact List.mem_singleton_self _

end Mos
