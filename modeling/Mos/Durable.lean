import Mos.Opening
import Mos.Stale
/-!
# Durable — what the server finds again after a sync and a new start

`fs_sync` writes the blocks that are marked dirty and no others, and nothing marks a block but `serve_dirty`.  What a
new server reads off the disk is what the old one had in its cache where every word that the requests have changed is
in a marked block.
-/
namespace Mos

open Fallible FilePtr Fs

variable {s s' : Fs} {d e f b i : Nat} {disk : Nat → Word}

namespace Fs

/-- The words that say what there is in the volume: the super block's, the bitmap, the objects with what they hold,
and the first word of each entry. -/
def Matters (s : Fs) (a : Nat) : Prop :=
  a = blockWords ∨ a = blockWords + 1 ∨ s.InBitmap a ∨ (∃ d, Dir s d ∧ a ∈ s.listing d) ∨
    ∃ f, Object s f ∧ ((∃ k < 45, a = f + k) ∨ (∃ b, s.indirect f = some b ∧ a / blockWords = b) ∨
      ¬s.IsDir f ∧ ∃ i b, s.blockAt f i = some b ∧ a / blockWords = b)

/-- **Every block in the cache is marked, or as it is on the disk**, in the words that matter; the super block is one
that `fs_init` takes. -/
structure Synced (s : Fs) : Prop where
  magic : s.view blockWords = fsMagic
  fits : s.reserved ≤ s.sNblocks
  clean : ∀ a, s.Matters a → s.mapped (a / blockWords) = true → s.dirty (a / blockWords) = false → s.mem a = s.disk a

/-- A server that has not started, at a disk. -/
def restart (disk : Nat → Word) : Fs where
  mem := fun _ => 0
  mapped := fun _ => false
  dirty := fun _ => false
  disk
  super := false
  bitmap := false
  pages := []

/-- **The volume is the same**: paths resolve alike, the objects are the same with what is in them, and the same
blocks are free. -/
structure SameVolume (s s' : Fs) : Prop where
  paths : ∀ path, s'.resolve none sRoot (components path) = s.resolve none sRoot (components path)
  content : ∀ f, Object s f → SameContent f s s'
  free : ∀ b, s'.blockIsFree b = s.blockIsFree b

/-- **A sync is durable**: after it, `fs_init` finds on the disk what the server had in its cache. -/
def Durable (s : Fs) : Prop :=
  ∃ s₁ s₂, fsSync s = some (.ok (), s₁) ∧ fsInit (restart s₁.disk) = some (.ok (), s₂) ∧ SameVolume s s₂

end Fs

/-! ## `fs_sync` -/

/-- The disk after the blocks of a list are synced. -/
def syncedDisk (bs : List Nat) (s : Fs) (a : Nat) : Word :=
  if a / blockWords ∈ bs ∧ (s.mapped (a / blockWords) && s.dirty (a / blockWords)) = true then s.mem a else s.disk a

theorem syncBlocks_eq (bs : List Nat) : ∀ s, syncBlocks bs s = some (.ok (), { s with disk := syncedDisk bs s }) := by
  induction bs with
  | nil =>
    intro s
    have hd : syncedDisk [] s = s.disk := funext fun a => if_neg fun h => List.not_mem_nil h.1
    rw [hd]
    rfl
  | cons b bs ih =>
    intro s
    unfold syncBlocks
    simp only [bind_read, id_eq]
    by_cases hb : (s.mapped b && s.dirty b) = true
    · have hm : s.mapped b = true := (Bool.and_eq_true_iff.1 hb).1
      have hw : writeBlock b s =
          some (.ok (), { s with disk := fun a => if a / blockWords = b then s.mem a else s.disk a }) := by
        unfold writeBlock
        rw [bind_read, id_eq, hm]
        rfl
      have hd : syncedDisk bs { s with disk := fun a => if a / blockWords = b then s.mem a else s.disk a } =
          syncedDisk (b :: bs) s := by
        funext a
        unfold syncedDisk
        by_cases hab : a / blockWords = b
        · simp [hab, hb]
        · simp [hab]
      rw [if_pos hb, bind_of_ok hw, ih, hd]
    · have hd : syncedDisk bs s = syncedDisk (b :: bs) s := by
        funext a
        unfold syncedDisk
        by_cases hab : a / blockWords = b
        · simp [hab, hb]
        · simp [hab]
      rw [if_neg hb, ← hd]
      exact ih s

/-! ## `fs_init` -/

/-- The state with a block read into its page. -/
def Fs.cached (s : Fs) (b : Nat) : Fs :=
  { s with
    mem := fun a => if a / blockWords = b then s.disk a else s.mem a
    mapped := Function.update s.mapped b true
    dirty := Function.update s.dirty b false
    pages := s.pages.tail }

theorem readBlock_new (hin : s.super = true → b < s.sNblocks) (hbit : s.bitmap = false) (hm : s.mapped b = false)
    (hp : s.pages = []) : readBlock b s = some (.ok true, s.cached b) := by
  have hsup : ¬(s.super && decide (s.sNblocks ≤ b)) = true := by
    simp only [Bool.and_eq_true, decide_eq_true_eq, not_and]
    exact fun h => Nat.not_le.2 (hin h)
  rw [readBlock_eq, if_neg hsup, hbit, Bool.false_and, if_neg Bool.false_ne_true, hm, if_neg Bool.false_ne_true]
  have ha : memAllocBlock b s = some (.ok (), { s with
      mem := fun a => if a / blockWords = b then 0 else s.mem a
      mapped := Function.update s.mapped b true
      dirty := Function.update s.dirty b false
      pages := s.pages.tail }) := by
    unfold memAllocBlock
    rw [hp]
    rfl
  have hmem : (fun a => if a / blockWords = b then s.disk a else if a / blockWords = b then 0 else s.mem a) =
      fun a => if a / blockWords = b then s.disk a else s.mem a := by
    funext a
    by_cases hab : a / blockWords = b
    · simp [hab]
    · simp [hab]
  rw [bind_of_ok ha]
  unfold Fs.cached
  rw [← hmem]
  rfl

theorem orPanic_of_ok {α : Type} {x : FsM α} {r : α} (h : x s = some (.ok r, s')) : orPanic x s = some (.ok r, s') := by
  unfold orPanic
  rw [h]
  rfl

theorem assert_of {c : Bool} (h : c = true) : (assert c : FsM Unit) s = some (.ok (), s) := by
  rw [h]
  rfl

/-- **`read_super`** -/
theorem readSuper_start (hmagic : disk blockWords = fsMagic) (hsize : (disk (blockWords + 1)).toNat ≤ diskmaxBlocks) :
    readSuper (restart disk) = some (.ok (), { (restart disk).cached 1 with super := true }) := by
  have hread : orPanic (readBlock 1) (restart disk) = some (.ok true, (restart disk).cached 1) :=
    orPanic_of_ok (readBlock_new (fun h => by cases h) rfl rfl rfl)
  generalize hs : ({ (restart disk).cached 1 with super := true } : Fs) = s
  have h₁ : (s.mem blockWords == fsMagic) = true := by
    rw [← hs]
    exact beq_iff_eq.2 hmagic
  have h₂ : decide (s.sNblocks ≤ diskmaxBlocks) = true := by
    rw [← hs]
    exact decide_eq_true hsize
  unfold readSuper
  rw [bind_of_ok hread,
    bind_of_ok (show modify (fun s : Fs => { s with super := true }) ((restart disk).cached 1) = some (.ok (), s) by
    rw [← hs]
    rfl), bind_read, id_eq, bind_of_ok (assert_of h₁)]
  exact assert_of h₂

theorem putBytes_other {m : Nat → Word} {c a n : Nat} (g : Nat → BitVec 8)
    (ha : ∀ j < 4, ¬(c ≤ 4 * a + j ∧ 4 * a + j < c + n)) :
    ((List.range n).foldl (fun m i => putByte m (c + i) (g i)) m) a = m a := by
  refine eq_of_getByte fun j hj => ?_
  rw [← byteAt_word _ a hj, ← byteAt_word m a hj, byteAt_putBytes, if_neg (ha j hj)]

/-- The bytes that `check_write_block` writes. -/
def oops (i : Nat) : BitVec 8 := ([0x4F, 0x4F, 0x50, 0x53, 0x21, 0x0A, 0] : List (BitVec 8)).getD i 0

/-- What a start leaves of the disk and the cache, before the bitmap is read. -/
structure Checked (disk : Nat → Word) (s : Fs) : Prop where
  view : ∀ a, 1 ≤ a / blockWords → s.view a = disk a
  disk : s.disk = disk
  super : s.super = true
  bitmap : s.bitmap = false
  pages : s.pages = []
  mapped : s.mapped 1 = true

/-- **`check_write_block`** puts the super block back. -/
theorem checkWriteBlock_start :
    ∃ s', checkWriteBlock { (restart disk).cached 1 with super := true } = some (.ok (), s') ∧ Checked disk s' := by
  let t₀ : Fs := { (restart disk).cached 1 with super := false }
  let t₁ : Fs := t₀.cached 0
  let t₂ : Fs := { t₁ with
    mem := fun a => if a / blockWords = 0 then t₁.mem (diskAddr 1 + a % blockWords) else t₁.mem a }
  let t₃ : Fs := { t₂ with mem := (List.range 7).foldl (fun m i => putByte m (4 * diskAddr 1 + i) (oops i)) t₂.mem }
  let t₄ : Fs := { t₃ with disk := fun a => if a / blockWords = 1 then t₃.mem a else t₃.disk a }
  let t₅ : Fs := { t₄ with mapped := Function.update t₄.mapped 1 false }
  let t₆ : Fs := t₅.cached 1
  let t₇ : Fs := { t₆ with
    mem := fun a => if a / blockWords = 1 then t₆.mem (diskAddr 0 + a % blockWords) else t₆.mem a }
  let t₈ : Fs := { t₇ with disk := fun a => if a / blockWords = 1 then t₇.mem a else t₇.disk a }
  have h₁ : orPanic (readBlock 0) t₀ = some (.ok true, t₁) :=
    orPanic_of_ok (readBlock_new (fun h => by cases h) rfl rfl rfl)
  have h₄ : writeBlock 1 t₃ = some (.ok (), t₄) := rfl
  have h₆ : orPanic (readBlock 1) t₅ = some (.ok true, t₆) :=
    orPanic_of_ok (readBlock_new (fun h => by cases h) rfl rfl rfl)
  have h₈ : writeBlock 1 t₇ = some (.ok (), t₈) := rfl
  have hsmashed : ∀ i < 7, byteAt t₆.mem (4 * diskAddr 1 + i) = oops i := by
    intro i hi
    have hblock : (4 * diskAddr 1 + i) / 4 / blockWords = 1 := by
      unfold diskAddr blockWords
      omega
    have hword : t₆.mem ((4 * diskAddr 1 + i) / 4) = t₃.mem ((4 * diskAddr 1 + i) / 4) := by
      show (if _ then (if _ then t₃.mem _ else _) else _) = _
      rw [if_pos hblock, if_pos hblock]
    have hbyte : byteAt t₆.mem (4 * diskAddr 1 + i) = byteAt t₃.mem (4 * diskAddr 1 + i) := by
      unfold byteAt
      rw [hword]
    rw [hbyte]
    show byteAt ((List.range 7).foldl (fun m i => putByte m (4 * diskAddr 1 + i) (oops i)) t₂.mem) _ = _
    rw [byteAt_putBytes, if_pos ⟨Nat.le_add_right _ _, Nat.add_lt_add_left hi _⟩, Nat.add_sub_cancel_left]
  have hcheck : ((List.range 7).all fun i => byteAt t₆.mem (4 * diskAddr 1 + i) == oops i) = true :=
    List.all_eq_true.2 fun i hi => beq_iff_eq.2 (hsmashed i (List.mem_range.1 hi))
  -- the copy in block 0 is what block 1 was
  have hback : ∀ a, a / blockWords = 1 → t₇.mem a = disk a := by
    intro a ha
    have hlow : (diskAddr 0 + a % blockWords) / blockWords = 0 := diskAddr_div 0 (Nat.mod_lt a (by decide))
    have hmod : (diskAddr 0 + a % blockWords) % blockWords = a % blockWords := by
      unfold diskAddr
      rw [Nat.zero_mul, Nat.zero_add, Nat.mod_mod]
    have hsum : diskAddr 1 + a % blockWords = a := by
      unfold diskAddr blockWords at *
      omega
    show (if _ then (if _ then _ else t₃.mem _) else _) = _
    rw [if_pos ha, if_neg (by rw [hlow]; decide)]
    show ((List.range 7).foldl (fun m i => putByte m (4 * diskAddr 1 + i) (oops i)) t₂.mem) _ = _
    rw [putBytes_other _ fun j hj hc => by
      unfold diskAddr blockWords at *
      omega]
    show (if _ then (if _ then _ else (if _ then disk _ else _)) else _) = _
    rw [if_pos hlow, hmod, hsum, if_neg (by rw [ha]; decide), if_pos ha]
  have hdisk : t₈.disk = disk := by
    funext a
    by_cases ha : a / blockWords = 1
    · exact (if_pos ha).trans (hback a ha)
    · exact (if_neg ha).trans (if_neg ha)
  refine ⟨{ t₈ with super := true }, ?_, ⟨fun a ha => ?_, hdisk, rfl, rfl, rfl, rfl⟩⟩
  · exact (bind_of_ok rfl).trans
      ((bind_of_ok h₁).trans ((bind_of_ok rfl).trans ((bind_of_ok rfl).trans ((bind_of_ok h₄).trans
      ((bind_of_ok rfl).trans ((bind_of_ok h₆).trans ((bind_of_ok rfl).trans ((bind_of_ok (assert_of hcheck)).trans
        ((bind_of_ok rfl).trans ((bind_of_ok h₈).trans rfl))))))))))
  · unfold Fs.view
    by_cases h₁ : a / blockWords = 1
    · rw [if_pos (by rw [h₁]; rfl)]
      exact hback a h₁
    · have hm : t₈.mapped (a / blockWords) = false := by
        show Function.update
            (Function.update (Function.update (Function.update (fun _ => false) 1 true) 0 true) 1 false) 1 true _ =
            false
        rw [Function.update_of_ne h₁, Function.update_of_ne h₁, Function.update_of_ne (Nat.ne_of_gt ha),
          Function.update_of_ne h₁]
      rw [if_neg (by rw [hm]; exact Bool.false_ne_true)]
      exact congrFun hdisk a

theorem readBlocks_start (bs : List Nat) :
    ∀ s : Fs, s.bitmap = false → s.pages = [] → s.mapped 1 = true → (∀ b ∈ bs, b < s.sNblocks) →
    ∃ s', readBlocks bs s = some (.ok (), s') ∧ Loads (· ∈ bs) s s' ∧ s'.bitmap = false ∧
    ∀ b ∈ bs, s'.mapped b = true := by
  induction bs with
  | nil => exact fun s hbit _ _ _ => ⟨s, rfl, .refl s, hbit, fun b hb => absurd hb List.not_mem_nil⟩
  | cons b bs ih =>
    intro s hbit hp h1 hlt
    have hone : ∃ r s₁, readBlock b s = some (.ok r, s₁) ∧ Loads (· = b) s s₁ ∧ s₁.mapped b = true ∧ s₁.pages = [] := by
      cases hm : s.mapped b with
      | true =>
        refine ⟨false, s, ?_, .refl s, hm, hp⟩
        rw [readBlock_eq, if_neg (by simpa using fun _ => hlt b List.mem_cons_self), hbit, Bool.false_and,
          if_neg Bool.false_ne_true, if_pos hm]
      | false =>
        refine ⟨true, s.cached b, readBlock_new (fun _ => hlt b List.mem_cons_self) hbit hm hp,
          ⟨fun a => ?_, fun c hc => ?_, fun c hc => ?_,
          fun c hc => ?_, rfl, rfl, rfl, List.tail_suffix _⟩, Function.update_self _ _ _, by
            unfold Fs.cached; rw [hp]; rfl⟩
        · by_cases hab : a / blockWords = b
          · simp [Fs.view, Fs.cached, hab, hm]
          · simp [Fs.view, Fs.cached, hab]
        · have hcb : c ≠ b := fun h => by rw [h, hm] at hc; cases hc
          exact (Function.update_of_ne hcb _ _).trans hc
        · by_cases hcb : c = b
          · exact .inr hcb
          · exact .inl ((Function.update_of_ne hcb _ _).symm.trans hc)
        · have hcb : c ≠ b := fun h => by rw [h, hm] at hc; cases hc
          exact Function.update_of_ne hcb _ _
    obtain ⟨r, s₁, hread, hl, hmb, hp₁⟩ := hone
    have hn : s₁.sNblocks = s.sNblocks := by
      unfold sNblocks
      rw [hl.mem (show s.mapped ((blockWords + 1) / blockWords) = true from h1)]
    obtain ⟨s₂, hrest, hl₂, hbit₂, hmapped⟩ := ih s₁ (hl.bitmap.trans hbit) hp₁ (hl.mapped 1 h1) fun c hc =>
        hn ▸ hlt c (List.mem_cons_of_mem b hc)
    refine ⟨s₂, (bind_attempt hread).trans hrest, (hl.mono fun c hc => hc ▸ List.mem_cons_self).trans
      (hl₂.mono fun c => List.mem_cons_of_mem b), hbit₂,
      fun c hc => ?_⟩
    rcases List.mem_cons.1 hc with rfl | hc
    · exact hl₂.mapped c hmb
    · exact hmapped c hc

/-- What `fs_init` asks of a disk. -/
structure Bootable (disk : Nat → Word) (n : Nat) : Prop where
  magic : disk blockWords = fsMagic
  nblocks : (disk (blockWords + 1)).toNat = n
  small : n ≤ diskmaxBlocks
  fits : n / blockSizeBit + 3 ≤ n
  low : ∀ b < n / blockSizeBit + 3, (disk (bitmapWord b)).getLsbD (b % 32) = false

/-- **`fs_init`** sees what is on the disk, but for the boot block. -/
theorem fsInit_start {n : Nat} (h : Bootable disk n) :
    ∃ s', fsInit (restart disk) = some (.ok (), s') ∧ Up s' ∧ s'.sNblocks = n ∧
    ∀ a, 1 ≤ a / blockWords → s'.view a = disk a := by
  obtain ⟨s₁, hcheck, hc⟩ := @checkWriteBlock_start disk
  have hn₁ : s₁.sNblocks = n := by
    unfold sNblocks
    rw [mem_eq_view (show s₁.mapped ((blockWords + 1) / blockWords) = true from hc.mapped), hc.view _ (by decide)]
    exact h.nblocks
  have hlt : ∀ b ∈ List.range' 2 (s₁.sNblocks / blockSizeBit + 1), b < s₁.sNblocks := by
    intro b hb
    have hb := (List.mem_range'_1.1 hb).2
    have hfits := h.fits
    rw [hn₁] at hb ⊢
    generalize n / blockSizeBit = k at hb hfits
    omega
  obtain ⟨s₂, hread, hl, hbit, hmapped⟩ := readBlocks_start _ s₁ hc.bitmap hc.pages hc.mapped hlt
  have hn₂ : s₂.sNblocks = n := by
    rw [← hn₁]
    unfold sNblocks
    rw [hl.mem (show s₁.mapped ((blockWords + 1) / blockWords) = true from hc.mapped)]
  have hview : ∀ a, 1 ≤ a / blockWords → s₂.view a = disk a := fun a ha => (hl.view a).trans (hc.view a ha)
  have hm₂ : ∀ b, 1 ≤ b → b < n / blockSizeBit + 3 → s₂.mapped b = true := by
    intro b h1 hb
    by_cases hb1 : b = 1
    · exact hb1 ▸ hl.mapped 1 hc.mapped
    · refine hmapped b (List.mem_range'_1.2 ⟨by omega, ?_⟩)
      rw [hn₁]
      generalize n / blockSizeBit = k at hb
      omega
  have hreserved : ({ s₂ with bitmap := true } : Fs).reserved = n / blockSizeBit + 3 :=
    congrArg (· / blockSizeBit + 3) hn₂
  have hup : Up { s₂ with bitmap := true } := ⟨hl.super.trans hc.super, rfl, fun b h1 hb => hm₂ b h1 (hreserved ▸ hb)⟩
  refine ⟨{ s₂ with bitmap := true }, ?_, hup, hn₂, hview⟩
  have hlow : ((List.range (s₁.sNblocks / blockSizeBit + 1 + 2)).all fun b =>
    !({ s₂ with bitmap := true } : Fs).blockIsFree b) = true := by
    refine List.all_eq_true.2 fun b hb => ?_
    have hb : b < n / blockSizeBit + 3 := hn₁ ▸ List.mem_range.1 hb
    have hbn : b < ({ s₂ with bitmap := true } : Fs).sNblocks := hn₂ ▸ Nat.lt_of_lt_of_le hb h.fits
    have hword : ({ s₂ with bitmap := true } : Fs).mem (bitmapWord b) = disk (bitmapWord b) := by
      rw [mem_eq_view (hup.bitmap_mapped hbn)]
      refine hview _ ?_
      rw [bitmapWord_div]
      exact Nat.le_trans (by decide) (Nat.le_add_right 2 _)
    unfold blockIsFree
    rw [hword, h.low b hb, Bool.and_false]
    rfl
  unfold fsInit
  rw [bind_of_ok (readSuper_start h.magic (h.nblocks ▸ h.small)), bind_of_ok hcheck]
  unfold readBitmap
  rw [bind_read, id_eq, bind_of_ok hread]
  exact assert_of hlow

/-! ## What is found again -/

namespace Fs

variable {a : Nat}

theorem Matters.block (h : s.Matters a) (ho : Owned s) (hfits : s.reserved ≤ s.sNblocks) :
    1 ≤ a / blockWords ∧ a / blockWords < s.sNblocks := by
  have h3 : 3 ≤ s.sNblocks := Nat.le_trans (reserved_ge s) hfits
  have hdata : ∀ {b}, Data s b → 1 ≤ b ∧ b < s.sNblocks := fun hd =>
    ⟨Nat.le_trans (by decide) (Nat.le_trans (reserved_ge s) hd.le), hd.lt⟩
  have hword : ∀ {f k}, File s f → k < fileWords → 1 ≤ (f + k) / blockWords ∧ (f + k) / blockWords < s.sNblocks := by
    intro f k hf hk
    rcases hf.word hk with ⟨-, h1⟩ | ⟨d, i, hd, hb⟩
    · rw [h1]
      exact ⟨Nat.le_refl 1, Nat.lt_of_lt_of_le (by decide) h3⟩
    · exact hdata (ho.data_block hd hb)
  rcases h with rfl | rfl | hbit | ⟨d, hd, hmem⟩ | ⟨f, hf, ⟨k, hk, rfl⟩ | ⟨b, hb, rfl⟩ | ⟨-, i, b, hb, rfl⟩⟩
  · exact ⟨by decide, Nat.lt_of_lt_of_le (by decide) h3⟩
  · exact ⟨by decide, Nat.lt_of_lt_of_le (by decide) h3⟩
  · exact ⟨Nat.le_trans (by decide) hbit.1, Nat.lt_of_lt_of_le hbit.2 hfits⟩
  · obtain ⟨i, hi, b, hb, hin⟩ := mem_listing.1 hmem
    exact hword (.entry d i b a hd.file hd.isDir hi hb hin) (show 0 < fileWords by decide)
  · exact hword hf.file (Nat.lt_trans hk (by decide))
  · exact hdata (ho.data_indirect hf.file hb)
  · exact hdata (ho.data_block hf.file hb)

/-- **After a sync the disk has what the server sees**, in the words that matter. -/
theorem Synced.disk_eq (h : Synced s) (ho : Owned s) (ha : s.Matters a) :
    syncedDisk (List.range s.sNblocks) s a = s.view a := by
  have hin : a / blockWords ∈ List.range s.sNblocks := List.mem_range.2 (ha.block ho h.fits).2
  unfold syncedDisk view
  cases hm : s.mapped (a / blockWords) with
  | false => rw [if_neg (by simp), if_neg Bool.false_ne_true]
  | true =>
    cases hdirty : s.dirty (a / blockWords) with
    | true => rw [if_pos ⟨hin, rfl⟩, if_pos rfl]
    | false =>
      rw [if_neg (by simp), if_pos rfl]
      exact (h.clean a ha hm hdirty).symm

theorem Synced.bootable (h : Synced s) (ho : Owned s) : Bootable (syncedDisk (List.range s.sNblocks) s) s.sNblocks := by
  refine ⟨(h.disk_eq ho (.inl rfl)).trans h.magic, ?_, ho.small, h.fits, fun b hb => ?_⟩
  · rw [h.disk_eq ho (.inr (.inl rfl)),
      ← mem_eq_view (show s.mapped ((blockWords + 1) / blockWords) = true from ho.up.super_mapped)]
    rfl
  · have hlt : b < s.sNblocks := Nat.lt_of_lt_of_le hb h.fits
    have hbit : s.InBitmap (bitmapWord b) :=
      ⟨by rw [bitmapWord_div]; exact Nat.le_add_right 2 _, bitmapWord_reserved hlt⟩
    have hlow := ho.low b hb
    unfold blockIsFree at hlow
    rw [ho.up.super, decide_eq_true hlt, mem_eq_view (ho.up.bitmap_mapped hlt)] at hlow
    rw [h.disk_eq ho (.inr (.inr (.inl hbit)))]
    exact hlow

theorem fName_of_nil (h : s.nameOf f = []) : fName s.view f 0 = 0 := by
  unfold nameOf maxNameLen at h
  rw [show (128 : Nat) = 127 + 1 from rfl, List.range_succ_eq_map, List.map_cons, List.takeWhile_cons] at h
  by_contra hne
  rw [if_pos (by simpa using hne)] at h
  cases h

/-- **The volume is the same** where the words that matter are. -/
theorem SameVolume.of_view (hu : Up s) (hu' : Up s') (hn : s'.sNblocks = s.sNblocks)
    (hview : ∀ a, s.Matters a → s'.view a = s.view a) :
    SameVolume s s' := by
  have hword : ∀ {f k}, Object s f → k < 45 → s'.view (f + k) = s.view (f + k) := fun hf hk =>
    hview _ (.inr (.inr (.inr (.inr ⟨_, hf, .inl ⟨_, hk, rfl⟩⟩))))
  have hagree : ∀ f, Object s f → s.vol.Agree s'.vol f := by
    intro f hf
    refine agree_of_view fun a ha => ?_
    rcases ha with ⟨k, -, hk, rfl⟩ | ⟨b, i, -, hi, hb, rfl⟩
    · exact hword hf hk
    · exact hview _ (.inr (.inr (.inr (.inr ⟨f, hf, .inr (.inl ⟨b, hb, diskAddr_div b hi⟩)⟩))))
  refine ⟨fun path => ?_,
    fun f hf => ⟨hword hf (by decide), hword hf (by decide), (hagree f hf).holds, fun hreg i b hb k hk => ?_⟩,
      fun b => ?_⟩
  · refine resolve_congr components_ne_nil (fun x hx => (hagree x hx).dir) (fun x n hx hn => ?_) .root
    unfold Fs.lookup
    rw [listing_congr (hagree x hx.object)]
    refine List.find?_congr fun e he => ?_
    have hname : s'.nameOf e = s.nameOf e := by
      by_cases hnil : s.nameOf e = []
      · have hfirst : fName s'.view e 0 = fName s.view e 0 := by
          unfold fName byteAt
          rw [Nat.add_zero, Nat.mul_div_cancel_left e (by decide), hview e (.inr (.inr (.inr (.inl ⟨x, hx, he⟩))))]
        rw [hnil]
        exact nameOf_nil (hfirst.trans (fName_of_nil hnil))
      · exact nameOf_congr fun k hk => hword (.entry x e hx.object hx.isDir he hnil) (Nat.lt_trans hk (by decide))
    rw [hname]
  · exact hview _ (.inr (.inr (.inr (.inr ⟨f, hf, .inr (.inr ⟨hreg, i, b, hb, diskAddr_div b hk⟩)⟩))))
  · unfold blockIsFree
    rw [hu.super, hu'.super, hn]
    by_cases hb : b < s.sNblocks
    · have hbit : s.InBitmap (bitmapWord b) :=
        ⟨by rw [bitmapWord_div]; exact Nat.le_add_right 2 _, bitmapWord_reserved hb⟩
      rw [mem_eq_view (hu.bitmap_mapped hb), mem_eq_view (hu'.bitmap_mapped (hn ▸ hb)),
        hview _ (.inr (.inr (.inl hbit)))]
    · simp [hb]

/-- **A sync that finds every block marked that it should write is durable.** -/
theorem Synced.durable (h : Synced s) (ho : Owned s) : Durable s := by
  obtain ⟨s₂, hinit, hup, hn, hview⟩ := fsInit_start (h.bootable ho)
  exact ⟨_, s₂, syncBlocks_eq _ s, hinit, .of_view ho.up hup hn fun a ha =>
    (hview a (ha.block ho h.fits).1).trans (h.disk_eq ho ha)⟩

end Fs

/-! ## Runs -/

namespace Syncing

variable {t : Syncing}

/-- **The condition on a step**: it keeps the volume; and a sync finds marked each block in which a word has changed
that matters. -/
def SyncSafe (t : Syncing) : DeskAct → Prop
  | .ask .sync _ => ∀ a, t.stale a → t.desk.server.fs.Matters a → t.desk.server.fs.Marked (a / blockWords)
  | a => t.desk.Safe a

theorem SyncSafe.safe {a : DeskAct} (h : t.SyncSafe a) : t.desk.Safe a := by
  cases a with
  | write a w => exact h
  | ask rq refs =>
    cases rq with
    | sync => exact trivial
    | _ => exact h

theorem inv_run (h : Run Init step SyncSafe t) : Inv t :=
  Run.invariant Inv (fun _ ht => ht.inv) (fun _ _ _ hi hs ht => hi.step hs.safe ht) t h

theorem Inv.synced (h : Inv t) {refs : Nat → Nat} (hs : t.SyncSafe (.ask .sync refs)) : t.desk.server.fs.Synced := by
  refine ⟨h.magic, h.fits, fun a ha hm hclean => ?_⟩
  have hno : ¬t.desk.server.fs.Marked (a / blockWords) := fun hmark => by
    rw [hmark.2] at hclean
    cases hclean
  have hfresh : ¬t.stale a := fun hst => hno (hs a hst ha)
  rw [mem_eq_view hm]
  exact (h.secure a hfresh).resolve_left hno

/-- **In every run whose syncs find marked what the requests have changed, each of them is durable.** -/
theorem sync_durable (h : Run Init step SyncSafe t) (refs : Nat → Nat) (hs : t.SyncSafe (.ask .sync refs)) :
    t.desk.server.fs.Durable :=
  ((inv_run h).synced hs).durable (inv_run h).desk.kept.toOwned

end Syncing

/-! ## A run with a write -/

namespace Desk

/-- The empty volume, as it is on a disk that `fs_init` takes. -/
def bootVolume : Fs :=
  { (emptyVolume []).put blockWords fsMagic with disk := ((emptyVolume []).put blockWords fsMagic).mem }

theorem bootVolume_mem {a : Nat} (ha : a ≠ blockWords) : bootVolume.mem a = (emptyVolume []).mem a :=
  Function.update_of_ne ha _ _

theorem bootVolume_edit : Fs.Edit (· = blockWords) (emptyVolume []) bootVolume := by
  have hview : ∀ a, bootVolume.view a = bootVolume.disk a := by
    intro a
    unfold Fs.view
    by_cases hm : bootVolume.mapped (a / blockWords) = true
    · rw [if_pos hm]
      rfl
    · rw [if_neg hm]
  refine ⟨fun a ha => ?_, fun a _ _ => .inr (hview a), fun _ hb => hb, rfl, rfl, List.suffix_refl _⟩
  have hmem := bootVolume_mem ha
  unfold Fs.view
  by_cases hm : (emptyVolume []).mapped (a / blockWords) = true
  · rw [if_pos (show bootVolume.mapped (a / blockWords) = true from hm), if_pos hm]
    exact hmem
  · rw [if_neg (show ¬bootVolume.mapped (a / blockWords) = true from hm), if_neg hm]
    refine (show bootVolume.disk a = bootVolume.mem a from rfl).trans (hmem.trans ?_)
    have hblock : a / blockWords ≠ 1 ∧ a / blockWords ≠ 2 := by simpa [emptyVolume] using hm
    show (if a = 1025 then (8 : Word) else if a = 1059 then ftypeDir else if a = 2048 then 0xF8 else 0) = 0
    unfold blockWords at hblock
    rw [if_neg (by omega), if_neg (by omega), if_neg (by omega)]

theorem bootVolume_kept : Fs.Kept bootVolume := by
  have hk := emptyVolume_kept []
  have hstill : Still (emptyVolume []) bootVolume := by
    refine bootVolume_edit.still hk.toOwned (fun h1 => absurd h1 (by decide)) (fun c hbc hc => ?_)
      fun e c he htouch hc => ?_
    · subst hc
      exact absurd hbc.1 (by decide)
    · obtain rfl := emptyVolume_file [] he
      subst hc
      rcases htouch with ⟨k, -, -, heq⟩ | ⟨b, i, -, -, hb, -⟩
      · unfold sRoot at heq
        omega
      · cases ((emptyVolume_bare []).holds .indirect).symm.trans hb
  refine hk.still hstill bootVolume_edit.mapped fun e he => bootVolume_edit.view _ fun hc => ?_
  obtain rfl := emptyVolume_file [] he
  unfold fDir sRoot at hc
  omega

/-- The server after its start, on the empty volume. -/
def booted : Desk := ⟨⟨bootVolume, fun _ => 0, fun _ => 0, fun _ _ => 0⟩, fun _ => 0⟩

theorem booted_init : Init booted := ⟨bootVolume_kept, fun _ _ => Nat.zero_le 1⟩

/-- A server that has started on what another one has in its pages. -/
def settled (d : Desk) : Desk := ⟨{ d.server with fs := { d.server.fs with disk := d.server.fs.view } }, fun _ => 0⟩

theorem settled_view (d : Desk) (a : Nat) : (settled d).server.fs.view a = d.server.fs.view a := by
  unfold Fs.view settled
  by_cases hm : d.server.fs.mapped (a / blockWords) = true
  · rw [if_pos hm, if_pos hm]
  · rw [if_neg hm, if_neg hm]
    exact if_neg hm

theorem settled_init {d : Desk} (h : Inv d) (hmagic : d.server.fs.view blockWords = fsMagic)
    (hfits : d.server.fs.reserved ≤ d.server.fs.sNblocks) : Syncing.Init ⟨settled d, fun _ => False⟩ := by
  have hq : Quiet d.server.fs (settled d).server.fs :=
    ⟨⟨fun a _ => settled_view d a, fun a _ _ => .inr (settled_view d a), fun _ hb => hb, rfl, rfl,
      List.suffix_refl _⟩, fun _ => .inl⟩
  exact ⟨⟨h.kept.quiet hq, fun _ _ => Nat.zero_le 1⟩, (settled_view d _).trans hmagic, hfits,
    fun a => settled_view d a, fun _ => id⟩

end Desk

namespace Fs

/-- The files of the volume are those in block 3, which the root has. -/
structure Flat (s : Fs) : Prop where
  count : s.nblocks sRoot ≤ 1
  block : s.blockAt sRoot 0 = some 3
  regular : ∀ j < file2blk, ¬s.IsDir (diskAddr 3 + fileWords * j)

instance (s : Fs) : Decidable s.Flat :=
  decidable_of_iff (s.nblocks sRoot ≤ 1 ∧ s.blockAt sRoot 0 = some 3 ∧
    ∀ j < file2blk, ¬s.view (fType (diskAddr 3 + fileWords * j)) = ftypeDir)
    ⟨fun h => ⟨h.1, h.2.1, h.2.2⟩, fun h => ⟨h.count, h.block, h.regular⟩⟩

theorem Flat.file (h : Flat s) (hf : File s f) : f = sRoot ∨ ∃ j < file2blk, f = diskAddr 3 + fileWords * j := by
  induction hf with
  | root => exact .inl rfl
  | entry d i b e _ hdir hi hb hin ih =>
    obtain ⟨j, hj, rfl⟩ := mem_entries.1 hin
    rcases ih with rfl | ⟨k, hk, rfl⟩
    · obtain rfl := Nat.lt_one_iff.1 (Nat.lt_of_lt_of_le hi h.count)
      cases h.block.symm.trans hb
      exact .inr ⟨j, hj, rfl⟩
    · exact absurd hdir (h.regular k hk)

theorem root_dir_idle (ho : Owned s) : ¬s.Matters (fDir sRoot) := by
  have h1 : fDir sRoot / blockWords = 1 := root_word (show 45 < fileWords by decide)
  have hdata : ∀ {b}, Data s b → fDir sRoot / blockWords ≠ b := fun hd hc => by
    have := Nat.le_trans (reserved_ge s) hd.le
    omega
  have hword : ∀ {f k}, File s f → k < fileWords → fDir sRoot = f + k → k = 45 := fun hf hk hc => by
    have hef := ho.word_sole .root hf (show 45 < fileWords by decide) hk hc
    unfold fDir at hc
    omega
  rintro (hc | hc | hbit | ⟨d, hd, hmem⟩ | ⟨f, hf, ⟨k, hk, hc⟩ | ⟨b, hb, hc⟩ | ⟨-, i, b, hb, hc⟩⟩)
  · exact absurd hc (by decide)
  · exact absurd hc (by decide)
  · exact absurd hbit.1 (by rw [h1]; decide)
  · obtain ⟨i, hi, b, hb, hin⟩ := mem_listing.1 hmem
    exact absurd (hword (k := 0) (.entry d i b _ hd.file hd.isDir hi hb hin) (by decide) rfl) (by decide)
  · exact absurd (hword hf.file (Nat.lt_trans hk (by decide)) hc) (Nat.ne_of_lt hk)
  · exact hdata (ho.data_indirect hf.file hb) hc
  · exact hdata (ho.data_block hf.file hb) hc

end Fs

namespace Desk

def oneOpen : Nat → Nat := Function.update (fun _ => 0) 0 2

def twoOpen : Nat → Nat := Function.update oneOpen 1 2

def opensRoot : DeskAct := .ask (.openFile [0x2F] 0) oneOpen

def opensA : DeskAct := .ask (.openFile [0x61] 0) twoOpen

def sizesA : DeskAct := .ask (.setSize 1 9) twoOpen

def marksRoot : DeskAct := .ask (.dirty 0 0) twoOpen

def writesA : DeskAct := .write (diskAddr 4) 0x01020304

def marksA : DeskAct := .ask (.dirty 1 0) twoOpen

theorem booted_resolve :
    booted.server.fs.resolve none sRoot (components [0x61]) = ⟨-eNotFound, some sRoot, none, [0x61]⟩ :=
  by decide

theorem opensFirst_booted : booted.Safe opensFirst := by
  refine ⟨by decide, ⟨fun _ d name hr _ => ?_, fun hm => absurd rfl hm, fun ht => absurd rfl ht⟩⟩
  cases booted_resolve.symm.trans hr
  have hfirst : booted.server.fs.freeBlocks.take (1 + booted.server.fs.wants sRoot (booted.server.fs.nblocks sRoot)) =
      [3] := by decide
  refine ⟨by decide, by decide, fun b hb k _ => ?_, List.not_mem_nil⟩
  rw [hfirst] at hb
  obtain rfl := List.mem_singleton.1 hb
  rfl

/-- An open that creates nothing and cuts nothing off changes the `f_dir` of the entries only, in the block of the
root. -/
theorem changes_opens {d d' : Desk} {path : List (BitVec 8)} {refs : Nat → Nat} {c : Nat} (hflat : d'.server.fs.Flat)
    (hc : Changes d d' (.ask (.openFile path 0) refs) c) : c = fDir sRoot ∨ c / blockWords = 3 := by
  have h0 : ∀ {m : Word}, ¬0 &&& m ≠ 0 := fun {m} hm => hm (BitVec.zero_and)
  rcases hc with (⟨d, name, ⟨hbits, -⟩, -⟩ | ⟨hm, -⟩ | ⟨ht, -⟩) | ⟨e, he, rfl⟩
  · exact absurd hbits fun hb => hb.elim h0 h0
  · exact absurd hm h0
  · exact absurd ht h0
  · rcases hflat.file he with rfl | ⟨j, hj, rfl⟩
    · exact .inl rfl
    · exact .inr (entry_word hj (show 45 < fileWords by decide))

theorem changes_sizes {d d' : Desk} {fileid size : Word} {refs : Nat → Nat} {c : Nat}
    (hle : ¬size < d.server.fs.view (fSize (d.file fileid))) (hc : Changes d d' (.ask (.setSize fileid size) refs) c) :
    c = fSize (d.file fileid) := by
  rcases hc with ⟨-, ⟨hc, -⟩ | ⟨⟨w, b, hw, -⟩, -⟩⟩
  · exact hc
  · exact absurd hw.1 hle

end Desk

namespace Syncing

variable {t : Syncing}

/-- What the steps after the start find: the two files are open, and the blocks with what has changed are marked. -/
def writes (d : Desk) : Bool :=
  (d.step Desk.opensRoot).any fun d₁ => decide d₁.server.fs.Flat && (d₁.step Desk.opensA).any fun d₂ =>
    decide (d₂.server.fs.Flat ∧ d₂.file 1 = diskAddr 3 ∧ ¬9 < d₂.server.fs.view (fSize (d₂.file 1)) ∧
      ¬d₂.server.fs.view (fType (d₂.file 1)) = ftypeDir) && (d₂.step Desk.sizesA).any fun d₃ =>
      (d₃.step Desk.marksRoot).any fun d₄ =>
        decide (d₄.server.fs.blockAt (diskAddr 3) 0 = some 4 ∧ ¬d₄.server.fs.view (fType (diskAddr 3)) = ftypeDir ∧
          d₄.server.fs.resolve none sRoot (components [0x61]) = ⟨0, some sRoot, some (diskAddr 3), []⟩) &&
        (d₄.step Desk.writesA).any fun d₅ => (d₅.step Desk.marksA).any fun d₆ =>
          decide (d₆.server.fs.mapped 3 = true ∧ d₆.server.fs.dirty 3 = true ∧ d₆.server.fs.mapped 4 = true ∧
            d₆.server.fs.dirty 4 = true ∧
            d₆.server.fs.view (fSize (diskAddr 3)) ≠ d₆.server.fs.disk (fSize (diskAddr 3)) ∧
            d₆.server.fs.view (diskAddr 4) ≠ d₆.server.fs.disk (diskAddr 4))

/-- A file with a block is made, and the server is started on that volume. -/
theorem writes_run :
    ∃ d, Desk.Inv d ∧ d.server.fs.view blockWords = fsMagic ∧ d.server.fs.reserved ≤ d.server.fs.sNblocks ∧
    writes (Desk.settled d) = true := by
  have hok : (Desk.booted.step Desk.opensFirst).any (fun d₁ => decide (d₁.server.fs.view (fSize (d₁.file 0)) = 0 ∧
      ¬d₁.server.fs.view (fType (d₁.file 0)) = ftypeDir) && (d₁.step Desk.sizesFirst).any fun d₂ =>
        decide (¬d₂.server.fs.view (fType (d₂.file 0)) = ftypeDir) &&
          (d₂.step (.ask (.map 0 0) Desk.oneOpen)).any fun d =>
          decide (d.server.fs.view blockWords = fsMagic ∧ d.server.fs.reserved ≤ d.server.fs.sNblocks) &&
            writes (Desk.settled d)) = true := by
    decide +kernel
  obtain ⟨d₁, h₁, hok⟩ := (Option.any_eq_true _ _).1 hok
  rw [Bool.and_eq_true, decide_eq_true_eq] at hok
  obtain ⟨⟨hempty, hreg⟩, hok⟩ := hok
  obtain ⟨d₂, h₂, hok⟩ := (Option.any_eq_true _ _).1 hok
  rw [Bool.and_eq_true, decide_eq_true_eq] at hok
  obtain ⟨hreg₂, hok⟩ := hok
  obtain ⟨d, h₃, hok⟩ := (Option.any_eq_true _ _).1 hok
  rw [Bool.and_eq_true, decide_eq_true_eq] at hok
  obtain ⟨⟨hmagic, hfits⟩, hok⟩ := hok
  have hinv₁ := (Desk.inv_run (.start _ Desk.booted_init)).step Desk.opensFirst_booted h₁
  have hinv₂ := hinv₁.step (a := Desk.sizesFirst)
      (fun _ => ⟨fun hlt => absurd (hempty ▸ hlt) (by decide), fun hdir => absurd hdir hreg⟩) h₂
  have hinv := hinv₂.step (a := .ask (.map 0 0) Desk.oneOpen)
    (fun _ => ⟨fun hdir => absurd hdir hreg₂, fun h10 => absurd h10 (by decide)⟩) h₃
  exact ⟨d, hinv, hmagic, hfits, hok⟩

theorem next {d d' : Desk} {P : Nat → Prop} {a : DeskAct} (h : Run Init step SyncSafe ⟨d, P⟩) (hs : SyncSafe ⟨d, P⟩ a)
    (ht : d.step a = some d') : Run Init step SyncSafe ⟨d', staleAfter ⟨d, P⟩ d' a⟩ :=
  .next _ a _ h hs (congrArg (Option.map fun d' => (⟨d', staleAfter ⟨d, P⟩ d' a⟩ : Syncing)) ht)

/-- **A file gets another size and a client writes its block**; the block of the directory and that of the file are
marked, and written. -/
theorem sync_durable_writes : ∃ t, Run Init step SyncSafe t ∧
    t.desk.server.fs.view (fSize (diskAddr 3)) ≠ t.desk.server.fs.disk (fSize (diskAddr 3)) ∧
    t.desk.server.fs.view (diskAddr 4) ≠ t.desk.server.fs.disk (diskAddr 4) ∧ t.desk.server.fs.Durable := by
  obtain ⟨d, hinv, hmagic, hfits, hok⟩ := writes_run
  obtain ⟨d₁, h₁, hok⟩ := (Option.any_eq_true _ _).1 hok
  rw [Bool.and_eq_true, decide_eq_true_eq] at hok
  obtain ⟨hflat₁, hok⟩ := hok
  obtain ⟨d₂, h₂, hok⟩ := (Option.any_eq_true _ _).1 hok
  rw [Bool.and_eq_true, decide_eq_true_eq] at hok
  obtain ⟨⟨hflat₂, hfile, hle, hreg⟩, hok⟩ := hok
  obtain ⟨d₃, h₃, hok⟩ := (Option.any_eq_true _ _).1 hok
  obtain ⟨d₄, h₄, hok⟩ := (Option.any_eq_true _ _).1 hok
  rw [Bool.and_eq_true, decide_eq_true_eq] at hok
  obtain ⟨⟨hblock, hreg₄, hfound⟩, hok⟩ := hok
  obtain ⟨d₅, h₅, hok⟩ := (Option.any_eq_true _ _).1 hok
  obtain ⟨d₆, h₆, hok⟩ := (Option.any_eq_true _ _).1 hok
  obtain ⟨hm₃, hd₃, hm₄, hd₄, hsize, hdata⟩ := of_decide_eq_true hok
  have hopen : ∀ {d : Desk} {path : List (BitVec 8)}, (0 : BitVec 8) ∉ path → d.AskSafe (.openFile path 0) := fun hp =>
    ⟨hp, ⟨fun hb => absurd hb fun hb => hb.elim (fun h => h BitVec.zero_and) fun h => h BitVec.zero_and,
      fun hb => absurd BitVec.zero_and hb, fun hb => absurd BitVec.zero_and hb⟩⟩
  have hrun := next (.start _ (Desk.settled_init hinv hmagic hfits)) (a := Desk.opensRoot) (hopen (by decide)) h₁
  have hrun := next hrun (a := Desk.opensA) (hopen (by decide)) h₂
  have hrun := next hrun (a := Desk.sizesA) (fun _ => ⟨fun hlt => absurd hlt hle, fun hdir => absurd hdir hreg⟩) h₃
  have hrun := next hrun (a := Desk.marksRoot) trivial h₄
  have hrun := next hrun (a := Desk.writesA) ⟨diskAddr 3, 0, (path_found hfound).file, hreg₄, hblock⟩ h₅
  have hrun := next hrun (a := Desk.marksA) trivial h₆
  refine ⟨_, hrun, hsize, hdata, sync_durable hrun (fun _ => 0) fun a ha hmat => ?_⟩
  -- what has changed is in the blocks 3 and 4, or does not matter
  have hblocks : a = fDir sRoot ∨ a / blockWords = 3 ∨ a / blockWords = 4 := by
    rcases ha with ((((((ha | ha) | ha) | ha) | ha) | ha) | ha)
    · exact ha.elim
    · exact (Desk.changes_opens hflat₁ ha).imp_right .inl
    · exact (Desk.changes_opens hflat₂ ha).imp_right .inl
    · rw [Desk.changes_sizes hle ha, hfile]
      exact .inr (.inl (by decide))
    · exact ha.elim
    · rw [show a = diskAddr 4 from ha]
      exact .inr (.inr (by decide))
    · exact ha.elim
  rcases hblocks with rfl | h3 | h4
  · exact absurd hmat (root_dir_idle (inv_run hrun).desk.kept.toOwned)
  · rw [h3]
    exact ⟨hm₃, hd₃⟩
  · rw [h4]
    exact ⟨hm₄, hd₄⟩

end Syncing

namespace Desk

/-- **The file that a client makes is not there after a sync and a new start.** -/
theorem sync_durable_fails : ¬∀ t, Reach Init step t → t.server.fs.Durable := by
  obtain ⟨t, hrun, ht⟩ :=
    @Run.exists_of_exec Desk DeskAct Init step (fun _ _ => True) (fun _ _ => true) (fun _ _ _ => trivial)
    [opensFirst] (some booted) (fun _ h => Option.some.inj h ▸ booted_init)
    (fun t => (fsSync t.server.fs).any fun r : Except Int Unit × Fs =>
      (fsInit (restart r.2.disk)).any fun r' : Except Int Unit × Fs =>
      decide (r'.2.resolve none sRoot (components [0x61]) ≠ t.server.fs.resolve none sRoot (components [0x61])))
        (by decide +kernel)
  obtain ⟨⟨r, s₁⟩, hsync, ht⟩ := (Option.any_eq_true _ _).1 ht
  obtain ⟨⟨r', s₂⟩, hinit, hne⟩ := (Option.any_eq_true _ _).1 ht
  intro hall
  obtain ⟨s₁', s₂', hsync', hinit', hsame⟩ := hall t hrun
  cases hsync.symm.trans hsync'
  cases hinit.symm.trans hinit'
  exact absurd (hsame.paths [0x61]) (of_decide_eq_true hne)

end Desk

end Mos
