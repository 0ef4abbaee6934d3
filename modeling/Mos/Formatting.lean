import Mathlib.Data.List.DropRight
import Mos.Placing
/-!
# Formatting — `fsformat` puts a tree to the disk

What `write_directory` goes over is a directory of the host less `.` and `..`; it comes to stand where `Layout` puts
it, as long as its names fit into the entries and its blocks on the disk.
-/
namespace Mos

open Fsformat

mutual

/-- The tree that is written. -/
def HostNode.shown : HostNode → HostNode
  | .file data => .file data
  | .dir entries => .dir entries.shown

def HostDir.shown : HostDir → HostDir
  | .nil => .nil
  | .snoc before name node => if isDot name then before.shown else .snoc before.shown name node.shown

end

/-- A name of the host that fits into an entry. -/
def fitsEntry (name : List (BitVec 8)) : Bool :=
  decide (name ≠ []) && decide (name.length < maxNameLen) && !name.contains 0 && !name.contains slash

mutual

/-- The names of the tree fit. -/
def HostNode.fitting : HostNode → Bool
  | .file _ => true
  | .dir entries => entries.fitting

def HostDir.fitting : HostDir → Bool
  | .nil => true
  | .snoc before name node => before.fitting && fitsEntry name && node.fitting

end

namespace Fsformat

open Fallible FilePtr

/-- The name that an entry gets from the path. -/
def entryName (path : List (BitVec 8)) : HostNode → List (BitVec 8)
  | .file _ => fileName path
  | .dir _ => baseName path

variable {m : Nat → Word} {d d' : Image} {e f lo : Nat} {es : HostDir} {data name path : List (BitVec 8)}

/-! ## Names -/

theorem fitsEntry_iff : fitsEntry name = true ↔ name ≠ [] ∧ name.length < maxNameLen ∧ 0 ∉ name ∧ slash ∉ name := by
  unfold fitsEntry
  simp [and_assoc]

theorem fitsEntry_first (h : fitsEntry name = true) : name.getD 0 0 ≠ 0 := by
  obtain ⟨hne, -, h0, -⟩ := fitsEntry_iff.1 h
  cases name with
  | nil => exact absurd rfl hne
  | cons c name =>
    intro hz
    exact h0 (hz ▸ List.mem_cons_self)

theorem fileName_slash (path : List (BitVec 8)) (h : slash ∉ name) : fileName (path ++ slash :: name) = name := by
  unfold fileName
  rw [show path ++ slash :: name = (path ++ [slash]) ++ name by simp, List.rtakeWhile, List.reverse_append,
    List.reverse_append,
    List.takeWhile_append_of_pos]
  · simp
  · intro c hc
    have hc : c ∈ name := List.mem_reverse.1 hc
    simpa using fun heq : c = slash => h (heq ▸ hc)

theorem baseName_slash (path : List (BitVec 8)) (h : slash ∉ name) (hne : name ≠ []) :
    baseName (path ++ slash :: name) = name := by
  have hlast : (path ++ slash :: name).rdropWhile (· == slash) = path ++ slash :: name := by
    rw [List.rdropWhile_eq_self_iff]
    intro hnil
    have hl : (path ++ slash :: name).getLast hnil = name.getLast hne := by
      rw [List.getLast_append_of_ne_nil _ (List.cons_ne_nil _ _), List.getLast_cons hne]
    rw [hl]
    simpa using fun heq : name.getLast hne = slash => h (heq ▸ List.getLast_mem hne)
  unfold baseName
  rw [hlast, if_neg (by simp), if_neg (by simp)]
  exact fileName_slash path h

theorem entryName_slash (path : List (BitVec 8)) (h : fitsEntry name = true) (node : HostNode) :
    entryName (path ++ slash :: name) node = name := by
  obtain ⟨hne, -, -, hs⟩ := fitsEntry_iff.1 h
  cases node with
  | file data => exact fileName_slash path hs
  | dir entries => exact baseName_slash path hs hne

theorem putName_nameAt (hzero : ∀ k < 32, m (e + k) = 0) : NameAt (putName m e name) e name := by
  intro i hi
  unfold fName putName
  rw [byteAt_putBytes, Nat.add_sub_cancel_left]
  split
  · by_cases hlt : i < name.length
    · rw [List.getD_append _ _ _ _ hlt]
    · have hi : i = name.length := by omega
      rw [hi, List.getD_append_right _ _ _ _ (Nat.le_refl _), Nat.sub_self, List.getD_eq_default _ _ (Nat.le_refl _)]
      rfl
  · unfold maxNameLen at hi
    rw [List.getD_eq_default _ _ (by omega)]
    unfold byteAt
    rw [show (4 * e + i) / 4 = e + i / 4 by omega, hzero (i / 4) (by omega)]
    exact Fs.getByte_zero _

theorem putNameUpto_nameAt (hzero : ∀ k < 32, m (e + k) = 0) (hlen : name.length < maxNameLen) :
    NameAt (putNameUpto m e name (maxNameLen - 1)) e name := by
  intro i hi
  unfold fName putNameUpto
  rw [byteAt_putBytes, Nat.add_sub_cancel_left]
  split
  · rfl
  · unfold maxNameLen at *
    rw [List.getD_eq_default _ _ (by omega)]
    unfold byteAt
    rw [show (4 * e + i) / 4 = e + i / 4 by omega, hzero (i / 4) (by omega)]
    exact Fs.getByte_zero _

theorem putNameUpto_other {a : Nat} (ha : ∀ k < 32, a ≠ e + k) : putNameUpto m e name (maxNameLen - 1) a = m a := by
  refine eq_of_getByte fun j hj => ?_
  rw [← byteAt_word _ a hj, ← byteAt_word m a hj]
  unfold putNameUpto
  rw [byteAt_putBytes, if_neg]
  rintro ⟨hle, hlt⟩
  unfold maxNameLen at hlt
  exact ha (a - e) (by omega) (by omega)

/-! ## Files -/

/-- Before `lo`, and in `super`, only the words of the directory that say what it has are others. -/
def Outside (f lo : Nat) (d d' : Image) : Prop :=
  ∀ a, a / blockWords < lo ∨ superBase ≤ a → (∀ k, 32 ≤ k → k < 45 → a ≠ f + k) → d'.mem a = d.mem a

theorem Outside.trans {d'' : Image} (h : Outside f lo d d') (h' : Outside f lo d' d'') : Outside f lo d d'' :=
  fun a ha hk => (h' a ha hk).trans (h a ha hk)

theorem Outside.entry {d₁ : Image} (h : Outside f lo d d₁)
    (h' : ∀ a, a / blockWords < es.nextLo lo ∨ superBase ≤ a → (∀ k < fileWords, a ≠ es.nextEntry lo + k) →
      d'.mem a = d₁.mem a)
    (hfit : es.nextLo lo ≤ nblock) : Outside f lo d d' := by
  intro a ha hk
  refine (h' a ?_ fun j hj heq => ?_).trans (h a ha hk)
  · have : lo ≤ es.nextLo lo := by
      unfold HostDir.nextLo
      omega
    omega
  · have hb : (es.nextEntry lo + j) / blockWords ∈ es.widened lo := nextEntry_block hj
    have := HostDir.widened_bound es _ hb
    rw [← heq] at this
    unfold superBase nblock blockWords at *
    omega

theorem attaches_nil (h : ∀ k, 34 ≤ k → k < 45 → m (e + k) = 0) : Attaches m e [] := by
  refine ⟨fun i hi => ?_, h 44 (by decide) (by decide), fun c hc => by cases hc⟩
  unfold nDirect at hi
  unfold fDirect
  rw [Nat.add_assoc, h (34 + i) (by omega) (by omega)]
  rfl

/-- What `create_file` comes to: an entry of zeroes, before the blocks that are still to be taken. -/
structure Blank (d : Image) (e : Nat) : Prop where
  zero : ∀ k < fileWords, d.mem (e + k) = 0
  low : Home e d.nextbno
  fresh : Fresh d

theorem Having.blank (h : Ready d f lo es) : Blank d (es.nextEntry lo) :=
  ⟨fun _ hk => h.next_blank hk, h.next.symm ▸ nextEntry_home, h.fresh⟩

/-- The blocks that are still to be taken stay zero when the entry is written. -/
theorem Blank.fresh_of (h : Blank d e) (hno : d'.nextbno = d.nextbno)
    (hm : ∀ a, (∀ k < fileWords, a ≠ e + k) → d'.mem a = d.mem a) :
    Fresh d' := by
  intro a hle hlt
  rw [hno] at hle
  refine (hm a fun k hk heq => ?_).trans (h.fresh a hle hlt)
  have := h.low k hk
  subst heq
  unfold superBase nblock blockWords at *
  omega

/-- **`write_file`**, once it has the entry. -/
theorem fillFile_spec (h : Blank d e) (hlen : name.length < maxNameLen)
    (hfit : d.nextbno + span (chunks data) ≤ nblock) :
    ∃ d', (do
        modify fun d => { d with mem := putName d.mem e name }
        storeWord (fSize e) (BitVec.ofNat 32 data.length)
        storeWord (fType e) ftypeReg
        writeBlocks e data (List.range (chunks data)) : FormatM Unit) d = some (.ok (), d') ∧
      NameAt d'.mem e name ∧ FileAt d'.mem e (fileBlocks d.nextbno (chunks data)) data ∧ Fresh d' ∧
      d'.nextbno = d.nextbno + span (chunks data) ∧
      ∀ a, a / blockWords < d.nextbno ∨ superBase ≤ a → (∀ k < fileWords, a ≠ e + k) → d'.mem a = d.mem a := by
  let m₁ := putName d.mem e name
  let m₂ := Function.update m₁ (fSize e) (BitVec.ofNat 32 data.length)
  let d₃ : Image := ⟨Function.update m₂ (fType e) ftypeReg, d.nextbno⟩
  have hm₁ : ∀ a, (∀ k < 32, a ≠ e + k) → m₁ a = d.mem a := fun a ha => putName_other hlen ha
  have hd₃ : ∀ a, (∀ k < 34, a ≠ e + k) → d₃.mem a = d.mem a := fun a ha =>
    (Function.update_of_ne (ha 33 (by decide)) _ _).trans ((Function.update_of_ne (ha 32 (by decide)) _ _).trans
      (hm₁ a fun k hk => ha k (by omega)))
  have hzero : ∀ k, 34 ≤ k → k < fileWords → d₃.mem (e + k) = 0 :=
    fun k h34 hk => (hd₃ _ fun j hj => by omega).trans (h.zero k hk)
  have hload : Loaded d₃ e d.nextbno data 0 :=
    ⟨rfl, h.fresh_of rfl fun a ha => hd₃ a fun k hk => ha k (Nat.lt_trans hk (by decide)),
      attaches_nil fun k h34 h45 => hzero k h34 (Nat.lt_trans h45 (by decide)), fun i hi => by cases hi⟩
  obtain ⟨d', hwrite, hload', hframe⟩ :=
    writeBlocks_spec h.low (chunks data) 0 d₃ hload (by rw [Nat.zero_add]; exact hfit)
  rw [Nat.zero_add] at hload'
  have hword : ∀ k < fileWords, ¬(34 ≤ k ∧ k < 45) → d'.mem (e + k) = d₃.mem (e + k) := by
    intro k hk hne
    refine hframe _ ?_ fun j h34 h45 heq => hne (by omega)
    have := h.low k hk
    unfold superBase nblock blockWords at *
    omega
  refine ⟨d', ?_, ?_, ⟨?_, ?_, ?_, hload'.blocks, hload'.contents⟩, hload'.fresh, hload'.next, fun a ha hne => ?_⟩
  · rw [List.range_eq_range']
    exact hwrite
  · have hname : NameAt m₁ e name := putName_nameAt fun k hk => h.zero k (Nat.lt_trans hk (by decide))
    refine hname.congr fun k hk => (hword k (Nat.lt_trans hk (by decide)) (by omega)).trans ?_
    exact (Function.update_of_ne (by unfold fType; omega) _ _).trans
      (Function.update_of_ne (by unfold fSize; omega) _ _)
  · exact (hword 33 (by decide) (by omega)).trans (Function.update_self _ _ _)
  · refine (hword 32 (by decide) (by omega)).trans ((Function.update_of_ne ?_ _ _).trans (Function.update_self _ _ _))
    unfold fType
    omega
  · exact (hword 45 (by decide) (by omega)).trans (hzero 45 (by decide) (by decide))
  · exact (hframe a ha fun j _ h45 => hne j (Nat.lt_trans h45 (by decide))).trans
      (hd₃ a fun k hk => hne k (Nat.lt_trans hk (by decide)))

/-- **`write_file`** -/
theorem writeFile_spec (h : Filling d f lo es) (hhome : Home f lo) (hlo : 0 < lo)
    (hname : fitsEntry (fileName path) = true) (hfit : es.nextLo lo + span (chunks data) ≤ nblock) :
    ∃ d', writeFile f path data d = some (.ok (), d') ∧
      Filling d' f lo (es.snoc (fileName path) (.file data)) ∧ Outside f lo d d' := by
  have hnext : es.nextLo lo ≤ nblock := by omega
  obtain ⟨d₁, hcreate, hready, hout⟩ := createFile_spec h hhome hlo hnext
  obtain ⟨d', hrun, hn, hfile, hfresh, hno, hframe⟩ :=
    fillFile_spec hready.blank (fitsEntry_iff.1 hname).2.1 (hready.next.symm ▸ hfit)
  rw [hready.next] at hfile hframe
  refine ⟨d', (bind_of_ok hcreate).trans hrun, hready.snoc hhome ?_ (fitsEntry_first hname) ?_ hfresh hn
    (.file _ _ _ hfile) hframe,
    Outside.entry hout hframe hnext⟩
  · simpa only [HostNode.blocks] using hfit
  · simpa only [HostNode.blocks] using hno

/-! ## Directories -/

/-- **`write_directory`**, with its entry, before it goes over the entries of the host. -/
theorem fillDirectory_spec (h : Blank d e) (hlen : name.length < maxNameLen) :
    ∃ d', (do
        modify fun d => { d with mem := putNameUpto d.mem e name (maxNameLen - 1) }
        let d ← Fallible.read id
        assert (fName d.mem e (maxNameLen - 1) == 0)
        storeWord (fType e) ftypeDir
        pure e : FormatM Nat) d = some (.ok e, d') ∧
      NameAt d'.mem e name ∧ Filling d' e d.nextbno .nil ∧ ∀ a, (∀ k < fileWords, a ≠ e + k) → d'.mem a = d.mem a := by
  let m₁ := putNameUpto d.mem e name (maxNameLen - 1)
  let d₂ : Image := ⟨Function.update m₁ (fType e) ftypeDir, d.nextbno⟩
  have hm₁ : ∀ a, (∀ k < 32, a ≠ e + k) → m₁ a = d.mem a := fun a ha => putNameUpto_other ha
  have hd₂ : ∀ a, (∀ k < 34, a ≠ e + k) → d₂.mem a = d.mem a := fun a ha =>
    (Function.update_of_ne (ha 33 (by decide)) _ _).trans (hm₁ a fun k hk => ha k (by omega))
  have hname : NameAt m₁ e name := putNameUpto_nameAt (fun k hk => h.zero k (Nat.lt_trans hk (by decide))) hlen
  have hzero : ∀ k, 34 ≤ k → k < fileWords → d₂.mem (e + k) = 0 :=
    fun k h34 hk => (hd₂ _ fun j hj => by omega).trans (h.zero k hk)
  have hkeep : ∀ a, (∀ k < fileWords, a ≠ e + k) → d₂.mem a = d.mem a :=
    fun a ha => hd₂ a fun k hk => ha k (Nat.lt_trans hk (by decide))
  refine ⟨d₂, ?_, hname.congr fun k hk => Function.update_of_ne (by unfold fType; omega) _ _,
    ⟨rfl, h.fresh_of rfl hkeep, ⟨Function.update_self _ _ _, ?_, hzero 45 (by decide) (by decide),
      attaches_nil fun k h34 h45 => hzero k h34 (Nat.lt_trans h45 (by decide)),
        fun k _ hk => by simp [HostDir.dirBlocks] at hk⟩,
      fun kid hk => by simp [HostDir.kids] at hk, fun kid hk => by simp [HostDir.kids] at hk,
      fun kid hk => by simp [HostDir.kids] at hk⟩,
    hkeep⟩
  · have hlast : fName m₁ e (maxNameLen - 1) = 0 := by
      rw [hname _ (by decide), List.getD_eq_default _ _ (by unfold maxNameLen at *; omega)]
    rw [bind_of_ok (show modify _ d = some (.ok (), (⟨m₁, d.nextbno⟩ : Image)) from rfl), bind_read, id_eq,
      bind_of_ok (assert_true (by rw [hlast]; rfl) _)]
    rfl
  · refine (Function.update_of_ne ?_ _ _).trans ((hm₁ _ fun k hk => ?_).trans (h.zero 32 (by decide)))
    · unfold fSize fType
      omega
    · unfold fSize
      omega

/-! ## Trees -/

mutual

/-- **An entry of a directory is written**, with what is below it. -/
theorem writeNode_spec :
    ∀ (node : HostNode) (path : List (BitVec 8)) (d : Image) (f lo : Nat) (es : HostDir),
    Filling d f lo es → Home f lo →
    0 < lo → fitsEntry (entryName path node) = true → node.shown.fitting = true →
    es.nextLo lo + node.shown.blocks ≤ nblock →
    ∃ d', writeNode f path node d = some (.ok (), d') ∧
    Filling d' f lo (es.snoc (entryName path node) node.shown) ∧ Outside f lo d d'
  | .file data => fun path d f lo es h hhome hlo hname _ hfit => by
    simp only [HostNode.shown, HostNode.blocks, entryName, writeNode] at *
    exact writeFile_spec h hhome hlo hname hfit
  | .dir entries => fun path d f lo es h hhome hlo hname hnames hfit => by
    simp only [HostNode.shown, HostNode.blocks, HostNode.fitting, entryName, writeNode] at *
    have hnext : es.nextLo lo ≤ nblock := by omega
    obtain ⟨d₁, hcreate, hready, hout⟩ := createFile_spec h hhome hlo hnext
    obtain ⟨d₂, hmake, hn, hfill, hkeep⟩ := fillDirectory_spec hready.blank (fitsEntry_iff.1 hname).2.1
    rw [hready.next] at hfill
    have hpos : 0 < es.nextLo lo := Nat.lt_of_lt_of_le hlo (by unfold HostDir.nextLo; omega)
    obtain ⟨d', hwrite, hfill', hout'⟩ := writeEntries_spec entries path d₂ _ _ hfill nextEntry_home hpos hnames hfit
    have hframe : ∀ a, a / blockWords < es.nextLo lo ∨ superBase ≤ a → (∀ k < fileWords, a ≠ es.nextEntry lo + k) →
        d'.mem a = d₁.mem a :=
      fun a ha hne => (hout' a ha fun k _ hk => hne k (Nat.lt_trans hk (by decide))).trans (hkeep a hne)
    have hentry : NameAt d'.mem (es.nextEntry lo) (baseName path) := by
      refine hn.congr fun k hk => hout' _ (.inl ?_) fun j h32 _ heq => by omega
      exact (HostDir.widened_bound es _ (nextEntry_block (Nat.lt_trans hk (by decide)))).2
    refine ⟨d', ?_, hready.snoc hhome ?_ (fitsEntry_first hname) ?_ hfill'.fresh hentry
      (.dir _ _ _ hfill'.dir hfill'.names hfill'.kids) hframe,
      Outside.entry hout hframe hnext⟩
    · exact (bind_of_ok ((bind_of_ok hcreate).trans hmake)).trans hwrite
    · simpa only [HostNode.blocks] using hfit
    · rw [hfill'.next, hready.next]
      simp only [HostNode.blocks]

/-- **The entries of a directory are written**, one after another. -/
theorem writeEntries_spec :
    ∀ (entries : HostDir) (path : List (BitVec 8)) (d : Image) (f lo : Nat), Filling d f lo .nil → Home f lo → 0 < lo →
    entries.shown.fitting = true → lo + entries.shown.blocks ≤ nblock →
    ∃ d', writeEntries f path entries d = some (.ok (), d') ∧ Filling d' f lo entries.shown ∧ Outside f lo d d'
  | .nil => fun path d f lo h _ _ _ _ => by
    simp only [HostDir.shown, writeEntries]
    exact ⟨d, rfl, h, fun _ _ _ => rfl⟩
  | .snoc before name node => fun path d f lo h hhome hlo hnames hfit => by
    simp only [HostDir.shown, writeEntries] at *
    by_cases hdot : isDot name = true
    · rw [if_pos hdot] at hnames hfit
      rw [if_pos hdot, if_pos hdot]
      obtain ⟨d', hwrite, hfill, hout⟩ := writeEntries_spec before path d f lo h hhome hlo hnames hfit
      exact ⟨d', bind_of_ok hwrite, hfill, hout⟩
    · rw [if_neg hdot] at hnames hfit
      rw [if_neg hdot, if_neg hdot]
      simp only [HostDir.fitting, HostDir.blocks, Bool.and_eq_true] at hnames hfit
      obtain ⟨⟨hbefore, hname⟩, hnode⟩ := hnames
      have hentry := entryName_slash path hname node
      obtain ⟨d₁, hwrite, hfill, hout⟩ := writeEntries_spec before path d f lo h hhome hlo hbefore (by omega)
      obtain ⟨d', hwrite', hfill', hout'⟩ :=
        writeNode_spec node (path ++ slash :: name) d₁ f lo _ hfill hhome hlo (by rw [hentry]; exact hname) hnode
        (by unfold HostDir.nextLo; omega)
      rw [hentry] at hfill'
      exact ⟨d', (bind_of_ok hwrite).trans hwrite', hfill', hout.trans hout'⟩

end

/-! ## The arguments -/

/-- The entry that an argument makes in the root. -/
def addArg (es : HostDir) (arg : List (BitVec 8) × HostNode) : HostDir := es.snoc (entryName arg.1 arg.2) arg.2.shown

/-- **The tree that the arguments make.** -/
def argsDir (args : Args) : HostDir := args.foldl addArg .nil

theorem fitting_addArg (es : HostDir) (arg : List (BitVec 8) × HostNode) :
    (addArg es arg).fitting = (es.fitting && fitsEntry (entryName arg.1 arg.2) && arg.2.shown.fitting) := by
  simp only [addArg, HostDir.fitting]

theorem blocks_addArg (es : HostDir) (arg : List (BitVec 8) × HostNode) :
    (addArg es arg).blocks = es.blocks + es.grown + arg.2.shown.blocks := by
  simp only [addArg, HostDir.blocks]

theorem addArg_fits : ∀ (args : Args) (es : HostDir), (args.foldl addArg es).fitting = true → es.fitting = true
  | [], _, h => h
  | arg :: args, es, h => by
    have h := addArg_fits args (addArg es arg) h
    rw [fitting_addArg, Bool.and_eq_true, Bool.and_eq_true] at h
    exact h.1.1

theorem addArg_blocks : ∀ (args : Args) (es : HostDir), es.blocks ≤ (args.foldl addArg es).blocks
  | [], _ => Nat.le_refl _
  | arg :: args, es => by
    have h := addArg_blocks args (addArg es arg)
    rw [blocks_addArg] at h
    rw [List.foldl_cons]
    omega

/-- **The loop of `main`** -/
theorem writeArgs_spec :
    ∀ (args : Args) (es : HostDir) (d : Image) (lo : Nat), Filling d superRoot lo es → Home superRoot lo → 0 < lo →
    (args.foldl addArg es).fitting = true → lo + (args.foldl addArg es).blocks ≤ nblock →
    ∃ d', writeArgs args d = some (.ok (), d') ∧ Filling d' superRoot lo (args.foldl addArg es) ∧
    Outside superRoot lo d d'
  | [], es, d, lo, h, _, _, _, _ => ⟨d, rfl, h, fun _ _ _ => rfl⟩
  | (path, node) :: args, es, d, lo, h, hhome, hlo, hnames, hfit => by
    rw [List.foldl_cons] at hnames hfit ⊢
    have hfirst := addArg_fits args _ hnames
    have hblocks := addArg_blocks args (addArg es (path, node))
    rw [fitting_addArg, Bool.and_eq_true, Bool.and_eq_true] at hfirst
    rw [blocks_addArg] at hblocks
    obtain ⟨⟨-, hname⟩, hnode⟩ := hfirst
    obtain ⟨d₁, hwrite, hfill, hout⟩ := writeNode_spec node path d superRoot lo es h hhome hlo hname hnode
      (by unfold HostDir.nextLo; dsimp only at hblocks; omega)
    obtain ⟨d', hrest, hfill', hout'⟩ := writeArgs_spec args (addArg es (path, node)) d₁ lo hfill hhome hlo hnames hfit
    refine ⟨d', ?_, hfill', hout.trans hout'⟩
    rw [writeArgs, bind_of_ok hwrite]
    exact hrest

/-! ## The image -/

/-- A word of the bitmap after `init_disk`. -/
def freshBits (w : Nat) : Word := if w < 32 then BitVec.allOnes 32 else 0

/-- What `init_disk` leaves. -/
structure Initial (d : Image) : Prop where
  next : d.nextbno = 3
  fresh : Fresh d
  bitmap : ∀ w < blockWords, d.mem (diskAddr 2 + w) = freshBits w
  magic : d.mem superBase = fsMagic
  nblocks : d.mem (superBase + 1) = BitVec.ofNat 32 nblock
  root : DirAt d.mem superRoot [] 0

theorem memset_inside {a c n : Nat} {b : BitVec 8} {w : Word} (ha : ∀ j < 4, c ≤ 4 * a + j ∧ 4 * a + j < c + n)
    (hw : ∀ j < 4, getByte w j = b) :
    memset m c b n a = w := by
  refine eq_of_getByte fun j hj => ?_
  rw [← byteAt_word _ a hj, hw j hj]
  unfold memset
  rw [byteAt_putBytes, if_pos (ha j hj)]

theorem memset_outside {a c n : Nat} {b : BitVec 8} (ha : ∀ j < 4, ¬(c ≤ 4 * a + j ∧ 4 * a + j < c + n)) :
    memset m c b n a = m a := by
  refine eq_of_getByte fun j hj => ?_
  rw [← byteAt_word _ a hj, ← byteAt_word m a hj]
  unfold memset
  rw [byteAt_putBytes, if_neg (ha j hj)]

/-- The words of `disk` after the bitmap is filled. -/
def filledBits : Nat → Word :=
  memset (memset (fun _ => 0) (4 * diskAddr 2) 0xFF blockSize) (4 * diskAddr 2 + 128) 0 (blockSize - 128)

theorem filledBits_other {a : Nat} (ha : a / blockWords ≠ 2) : filledBits a = 0 := by
  have hout : ∀ j < 4, ¬(4 * diskAddr 2 ≤ 4 * a + j ∧ 4 * a + j < 4 * diskAddr 2 + blockSize) := by
    intro j hj
    unfold diskAddr blockWords blockSize pageSize at *
    omega
  unfold filledBits
  rw [memset_outside fun j hj => by have := hout j hj; unfold blockSize pageSize at *; omega, memset_outside hout]

theorem filledBits_bitmap {w : Nat} (hw : w < blockWords) : filledBits (diskAddr 2 + w) = freshBits w := by
  unfold filledBits freshBits
  unfold blockWords at hw
  split
  · rw [memset_outside fun j hj => by omega]
    apply memset_inside
    · intro j hj
      unfold blockSize pageSize
      omega
    · decide
  · apply memset_inside
    · intro j hj
      unfold blockSize pageSize
      omega
    · intro j hj
      exact Fs.getByte_zero j

/-- **`init_disk`** -/
theorem initDisk_spec : ∃ d, initDisk ⟨fun _ => 0, 0⟩ = some (.ok (), d) ∧ Initial d := by
  obtain ⟨m, hm⟩ : ∃ m, m = Function.update
      (Function.update (Function.update filledBits superBase fsMagic) (superBase + 1)
      (BitVec.ofNat 32 nblock)) (fType superRoot) ftypeDir := ⟨_, rfl⟩
  have hrun : initDisk ⟨fun _ => 0, 0⟩ = some (.ok (), ⟨putName m superRoot [slash], 3⟩) := by
    unfold initDisk Fallible.modify
    simp only [show nbitblock = 1 from by decide, show nblock % blockSizeBit / 8 = 128 from by decide,
      show nblock ≠ 1 * blockSizeBit
          from by decide, ne_eq, not_false_eq_true, if_true, List.range_one, List.foldl_cons, List.foldl_nil,
      Nat.sub_self, Nat.add_zero]
    rw [hm]
    rfl
  have hname : ∀ a, (∀ k < 32, a ≠ superRoot + k) → putName m superRoot [slash] a = m a :=
    fun a ha => putName_other (by decide) ha
  -- all the words but those of the bitmap and the first ones of `super` are zero
  have hzero : ∀ a, a / blockWords ≠ 2 → a ≠ superBase → a ≠ superBase + 1 → a ≠ fType superRoot → m a = 0 := by
    intro a h2 h0 h1 ht
    rw [hm, Function.update_of_ne ht, Function.update_of_ne h1, Function.update_of_ne h0]
    exact filledBits_other h2
  have hroot : ∀ k, 32 ≤ k → k < fileWords → k ≠ 33 → putName m superRoot [slash] (superRoot + k) = 0 := by
    intro k h32 hk h33
    rw [hname _ fun j hj => by omega]
    unfold superRoot
    apply hzero
    · unfold superBase nblock blockWords
      unfold fileWords at hk
      omega
    · omega
    · omega
    · unfold fType superRoot
      omega
  refine ⟨_, hrun, rfl, fun a hle hlt => ?_, fun w hw => ?_, ?_, ?_, ⟨?_, hroot 32 (by decide) (by decide) (by decide),
    hroot 45 (by decide) (by decide) (by decide), attaches_nil fun k h34 h45 => hroot k (by omega)
      (Nat.lt_trans h45 (by decide)) (by omega),
    fun k _ hk => by simp at hk⟩⟩
  · have hle : 3 ≤ a / blockWords := hle
    refine (hname a fun k _ => ?_).trans (hzero a (by omega) (by omega) (by omega) ?_)
    · unfold superRoot
      omega
    · unfold fType superRoot
      omega
  · have hlow : diskAddr 2 + w < superBase := by
      unfold diskAddr superBase nblock
      unfold blockWords at *
      omega
    refine (hname _ fun k _ => ?_).trans ?_
    · unfold superRoot
      omega
    · rw [hm, Function.update_of_ne (by unfold fType superRoot; omega), Function.update_of_ne (by omega),
        Function.update_of_ne (by omega)]
      exact filledBits_bitmap hw
  · refine (hname superBase fun k _ => by unfold superRoot; omega).trans ?_
    rw [hm, Function.update_of_ne (by unfold fType superRoot; omega), Function.update_of_ne (by omega),
      Function.update_self]
  · refine (hname (superBase + 1) fun k _ => by unfold superRoot; omega).trans ?_
    rw [hm, Function.update_of_ne (by unfold fType superRoot; omega), Function.update_self]
  · refine (hname (fType superRoot) fun k hk => by unfold fType; omega).trans ?_
    rw [hm, Function.update_self]

theorem markUsed_eq (i : Nat) (m : Nat → Word) :
    markUsed m i = Function.update m (Fs.bitmapWord i) (m (Fs.bitmapWord i) &&& ~~~BitVec.twoPow 32 (i % 32)) := by
  have hword : diskAddr (2 + i / blockSizeBit) + i % blockSizeBit / 32 = Fs.bitmapWord i := by
    unfold diskAddr Fs.bitmapWord blockSizeBit blockSize pageSize blockWords
    omega
  unfold markUsed
  rw [hword]

theorem bitmapWord_block {b : Nat} (hb : b < blockSizeBit) : Fs.bitmapWord b / blockWords = 2 := by
  rw [Fs.bitmapWord_div, Nat.div_eq_of_lt hb]

theorem markUsed_bits {n : Nat} (hn : n ≤ nblock) : ∀ m : Nat → Word,
    (∀ a, a / blockWords ≠ 2 → (List.range n).foldl markUsed m a = m a) ∧
    ∀ b < blockSizeBit, ((List.range n).foldl markUsed m (Fs.bitmapWord b)).getLsbD (b % 32) =
      ((m (Fs.bitmapWord b)).getLsbD (b % 32) && decide (n ≤ b)) := by
  induction n with
  | zero =>
    intro m
    exact ⟨fun _ _ => rfl, fun b _ => by simp⟩
  | succ n ih =>
    intro m
    obtain ⟨hother, hbits⟩ := ih (by omega) m
    rw [List.range_succ, List.foldl_append, List.foldl_cons, List.foldl_nil, markUsed_eq]
    refine ⟨fun a ha => ?_, fun b hb => ?_⟩
    · rw [Function.update_of_ne]
      · exact hother a ha
      · rintro rfl
        exact ha (bitmapWord_block (Nat.lt_of_lt_of_le hn (by decide)))
    · by_cases hw : Fs.bitmapWord b = Fs.bitmapWord n
      · -- the bit of another block in the same word stays
        rw [hw, Function.update_self, getLsbD_clear _ (Nat.mod_lt b (by decide)), ← hw, hbits b hb, Bool.and_assoc]
        congr 1
        unfold Fs.bitmapWord at hw
        rw [← decide_not, ← Bool.decide_and]
        exact decide_eq_decide.2 (by omega)
      · rw [Function.update_of_ne hw, hbits b hb]
        congr 1
        refine decide_eq_decide.2 ?_
        have hne : b ≠ n := fun h => hw (h ▸ rfl)
        omega

/-- **The tree is on the disk**: the root is in the super block, the blocks of the tree are those from the third on,
and the rest is free and blank. -/
structure Formatted (disk : Nat → Word) (es : HostDir) : Prop where
  magic : disk blockWords = fsMagic
  nblocks : disk (blockWords + 1) = BitVec.ofNat 32 nblock
  root : Placed disk sRoot 3 (.dir es)
  bits : ∀ b < blockSizeBit, (disk (Fs.bitmapWord b)).getLsbD (b % 32) = decide (3 + es.blocks ≤ b ∧ b < nblock)
  blank : ∀ a, 3 + es.blocks ≤ a / blockWords → a / blockWords < nblock → disk a = 0

/-- **What is written** for arguments whose names fit and whose blocks have room. -/
theorem format_spec {args : Args} (hne : args ≠ []) (hnames : (argsDir args).fitting = true)
    (hfit : 3 + (argsDir args).blocks ≤ nblock) :
    ∃ disk d, format args ⟨fun _ => 0, 0⟩ = some (.ok disk, d) ∧ d.nextbno = 3 + (argsDir args).blocks ∧
      Formatted disk (argsDir args) := by
  obtain ⟨d₀, hinit, h₀⟩ := initDisk_spec
  have hhome : Home superRoot 3 := by
    intro k _
    right
    unfold superRoot superBase blockWords
    omega
  have hfill₀ : Filling d₀ superRoot 3 .nil :=
    ⟨h₀.next, h₀.fresh, h₀.root, fun kid hk => by simp [HostDir.kids] at hk, fun kid hk => by simp [HostDir.kids] at hk,
      fun kid hk => by simp [HostDir.kids] at hk⟩
  obtain ⟨d, hwrite, hfill, hout⟩ := writeArgs_spec args .nil d₀ 3 hfill₀ hhome (by decide) hnames hfit
  change Filling d superRoot 3 (argsDir args) at hfill
  generalize argsDir args = es at hnames hfit hfill
  obtain ⟨hother, hbits⟩ := markUsed_bits hfit d.mem
  generalize hm : (List.range (3 + es.blocks)).foldl markUsed d.mem = m at hother hbits
  have hflush : flushBitmap d = some (.ok (), { d with mem := m }) := by
    unfold flushBitmap Fallible.modify
    simp only [hfill.next, hm]
  obtain ⟨disk, hdisk⟩ : ∃ disk : Nat → Word, disk = fun a =>
    if diskAddr 1 ≤ a ∧ a < diskAddr 1 + (2 + fileWords) then m (superBase + (a - diskAddr 1)) else m a := ⟨_, rfl⟩
  have hformat : format args ⟨fun _ => 0, 0⟩ = some (.ok disk, { d with mem := m }) := by
    unfold format
    rw [bind_of_ok hinit, bind_of_ok (assert_true (by simpa using hne) d₀), bind_of_ok hwrite, bind_of_ok hflush, hdisk]
    rfl
  -- `super` comes into block 1, and the other blocks stay
  have hsuper : ∀ k < 2 + fileWords, disk (diskAddr 1 + k) = d.mem (superBase + k) := by
    intro k hk
    rw [hdisk]
    simp only
    rw [if_pos ⟨by omega, by omega⟩, Nat.add_sub_cancel_left, hother]
    unfold superBase nblock blockWords
    unfold fileWords at hk
    omega
  have hblock : ∀ a, 2 ≤ a / blockWords → disk a = m a := by
    intro a ha
    rw [hdisk]
    simp only
    rw [if_neg]
    unfold diskAddr fileWords blockWords at *
    omega
  have hkeep : ∀ a, 3 ≤ a / blockWords → disk a = d.mem a :=
    fun a ha => (hblock a (by omega)).trans (hother a (by omega))
  refine ⟨disk, _, hformat, hfill.next, ?_, ?_, ?_, fun b hb => ?_, fun a hle hlt => ?_⟩
  · exact (hsuper 0 (by decide)).trans
      ((hout superBase (.inr (Nat.le_refl _)) fun k _ _ => by unfold superRoot; omega).trans h₀.magic)
  · exact (hsuper 1 (by decide)).trans
      ((hout (superBase + 1) (.inr (Nat.le_succ _)) fun k _ _ => by unfold superRoot; omega).trans h₀.nblocks)
  · -- `s_root` has the words of the root that was filled
    refine Placed.congr (.dir superRoot 3 es hfill.dir hfill.names hfill.kids) (fun k hk => ?_)
      fun a hle _ => hkeep a hle
    have h := hsuper (2 + k) (by omega)
    rw [← Nat.add_assoc, ← Nat.add_assoc] at h
    exact h
  · have hw : Fs.bitmapWord b = diskAddr 2 + b / 32 := by
      unfold Fs.bitmapWord
      rfl
    have hword : d.mem (Fs.bitmapWord b) = freshBits (b / 32) := by
      rw [hout _ (.inl (by rw [bitmapWord_block hb]; decide)) fun k _ _ => ?_]
      · rw [hw]
        apply h₀.bitmap
        unfold blockSizeBit blockSize pageSize at hb
        unfold blockWords
        omega
      · have := bitmapWord_block hb
        rintro heq
        rw [heq] at this
        unfold superRoot superBase nblock blockWords at this
        omega
    -- the bits of the blocks that there are not are 0 from the start
    have hfresh : (freshBits (b / 32)).getLsbD (b % 32) = decide (b < nblock) := by
      have hmod := Nat.mod_lt b (show 0 < 32 by decide)
      unfold freshBits nblock
      by_cases hlt : b / 32 < 32
      · rw [if_pos hlt, BitVec.getLsbD_allOnes, decide_eq_true hmod, decide_eq_true (by omega)]
      · rw [if_neg hlt]
        exact BitVec.getLsbD_zero.trans (decide_eq_false (by omega)).symm
    rw [hblock _ (Nat.le_of_eq (bitmapWord_block hb).symm), hbits b hb, hword, hfresh, Bool.and_comm, ← Bool.decide_and]
  · rw [hkeep a (by omega)]
    apply hfill.fresh
    · rw [hfill.next]
      exact hle
    · unfold superBase blockWords at *
      omega

theorem main_of_format {args : Args} {disk : Nat → Word} {d : Image}
    (h : format args ⟨fun _ => 0, 0⟩ = some (.ok disk, d)) :
    main args = some disk := by
  unfold main
  rw [h]
  rfl

end Fsformat

end Mos
