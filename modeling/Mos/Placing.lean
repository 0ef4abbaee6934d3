import Mathlib.Data.List.Perm.Subperm
import Mos.FsMake
import Mos.Layout
/-!
# Placing — what the functions of `fsformat` write

`Placed` is a tree that stands in the words of `disk` where `Layout` puts it.  While a directory is being written
(`Filling`) the blocks from `nextbno` on are zero, and what is in place already is in the blocks before them: each
entry is written behind it.
-/
namespace Mos.Fsformat

open Fallible FilePtr

/-! ## What is in the words -/

/-- **The file has these blocks.** -/
structure Attaches (m : Nat → Word) (f : Nat) (bs : List Nat) : Prop where
  direct : ∀ i < nDirect, m (fDirect f i) = BitVec.ofNat 32 (bs.getD i 0)
  indirect : m (fIndirect f) = BitVec.ofNat 32 ((indirectBlock bs).getD 0)
  links : ∀ c, indirectBlock bs = some c → ∀ i < nIndirect, nDirect ≤ i →
    m (diskAddr c + i) = BitVec.ofNat 32 (bs.getD i 0)

/-- The entry has this name. -/
def NameAt (m : Nat → Word) (e : Nat) (name : List (BitVec 8)) : Prop := ∀ i < maxNameLen, fName m e i = name.getD i 0

/-- The blocks have these bytes, and zeroes behind them. -/
def Carries (m : Nat → Word) (bs : List Nat) (data : List (BitVec 8)) : Prop :=
  ∀ i < bs.length, ∀ j < blockSize, byteAt m (4 * diskAddr (bs.getD i 0) + j) = data.getD (blockSize * i + j) 0

/-- A directory with these blocks, whose entries from the `n`-th on are blank. -/
structure DirAt (m : Nat → Word) (f : Nat) (bs : List Nat) (n : Nat) : Prop where
  type : m (fType f) = ftypeDir
  size : m (fSize f) = BitVec.ofNat 32 (blockSize * bs.length)
  link : m (fDir f) = 0
  blocks : Attaches m f bs
  blank : ∀ k, n ≤ k → k < file2blk * bs.length → ∀ j < fileWords, m (entryAt bs k + j) = 0

/-- A file with these blocks and bytes. -/
structure FileAt (m : Nat → Word) (f : Nat) (bs : List Nat) (data : List (BitVec 8)) : Prop where
  type : m (fType f) = ftypeReg
  size : m (fSize f) = BitVec.ofNat 32 data.length
  link : m (fDir f) = 0
  blocks : Attaches m f bs
  contents : Carries m bs data

/-- **The tree is in its place**: the node has the entry `f`, and its blocks from `lo` on. -/
inductive Placed (m : Nat → Word) : Nat → Nat → HostNode → Prop where
  | file (f lo : Nat) (data : List (BitVec 8)) (h : FileAt m f (fileBlocks lo (chunks data)) data) :
      Placed m f lo (.file data)
  | dir (f lo : Nat) (es : HostDir) (h : DirAt m f (es.dirBlocks lo) es.len)
      (names : ∀ kid ∈ es.kids lo, NameAt m kid.ptr kid.name)
      (kids : ∀ kid ∈ es.kids lo, Placed m kid.ptr kid.lo kid.node) : Placed m f lo (.dir es)

variable {m m' : Nat → Word} {f f' e lo : Nat} {bs : List Nat} {data name : List (BitVec 8)}

/-! ## What the words depend on -/

theorem Attaches.congr (h : Attaches m f bs) (hf : ∀ k, 34 ≤ k → k < 45 → m' (f' + k) = m (f + k))
    (hind : ∀ c, indirectBlock bs = some c → ∀ a, a / blockWords = c → m' a = m a) : Attaches m' f' bs := by
  refine ⟨fun i hi => ?_, ?_, fun c hc i hi h10 => ?_⟩
  · unfold nDirect at hi
    rw [← h.direct i hi]
    unfold fDirect
    rw [Nat.add_assoc, Nat.add_assoc, hf (34 + i) (by omega) (by omega)]
  · rw [← h.indirect]
    exact hf 44 (by decide) (by decide)
  · rw [hind c hc _ (Fs.diskAddr_div c hi), h.links c hc i hi h10]

theorem NameAt.congr (h : NameAt m e name) (he : ∀ k < 32, m' (e + k) = m (e + k)) : NameAt m' e name := by
  intro i hi
  rw [← h i hi]
  unfold fName byteAt
  unfold maxNameLen at hi
  rw [show (4 * e + i) / 4 = e + i / 4 by omega, he (i / 4) (by omega)]

theorem Carries.congr (h : Carries m bs data) (hbs : ∀ b ∈ bs, ∀ a, a / blockWords = b → m' a = m a) :
    Carries m' bs data := by
  intro i hi j hj
  rw [← h i hi j hj]
  unfold byteAt
  rw [hbs (bs.getD i 0)]
  · rw [List.getD_eq_getElem _ _ hi]
    exact List.getElem_mem hi
  · unfold diskAddr blockWords
    unfold blockSize pageSize at hj
    omega

theorem DirAt.congr {n : Nat} (h : DirAt m f bs n) (hf : ∀ k < fileWords, m' (f' + k) = m (f + k))
    (hind : ∀ c, indirectBlock bs = some c → ∀ a, a / blockWords = c → m' a = m a)
    (hblank : ∀ k, n ≤ k → k < file2blk * bs.length → ∀ j < fileWords, m' (entryAt bs k + j) = m (entryAt bs k + j)) :
    DirAt m' f' bs n :=
  ⟨(hf 33 (by decide)).trans h.type, (hf 32 (by decide)).trans h.size, (hf 45 (by decide)).trans h.link,
    h.blocks.congr (fun k _ hk => hf k (Nat.lt_trans hk (by decide))) hind,
    fun k hk hlt j hj => (hblank k hk hlt j hj).trans (h.blank k hk hlt j hj)⟩

theorem fileBlocks_bound {n b : Nat} (hb : b ∈ fileBlocks lo n) : lo ≤ b ∧ b < lo + span n := by
  obtain ⟨i, hi, rfl⟩ := List.mem_map.1 hb
  have hi := List.mem_range.1 hi
  unfold span
  split <;> split <;> omega

theorem fileIndirect_bound {n c : Nat} (hc : indirectBlock (fileBlocks lo n) = some c) : lo ≤ c ∧ c < lo + span n := by
  unfold indirectBlock at hc
  by_cases hn : nDirect < n
  · rw [getElem?_fileBlocks hn, Option.map_some, Option.some.injEq] at hc
    rw [← hc]
    unfold span nDirect at *
    split <;> split <;> omega
  · rw [List.getElem?_eq_none (by rw [length_fileBlocks]; omega)] at hc
    cases hc

/-- **A tree depends on its entry and its blocks alone.** -/
theorem Placed.congr {node : HostNode} (h : Placed m f lo node) (hf : ∀ k < fileWords, m' (f' + k) = m (f + k))
    (hblocks : ∀ a, lo ≤ a / blockWords → a / blockWords < lo + node.blocks → m' a = m a) : Placed m' f' lo node := by
  induction h generalizing f' with
  | file f lo data h =>
    simp only [HostNode.blocks] at hblocks
    refine .file f' lo data ⟨(hf 33 (by decide)).trans h.type, (hf 32 (by decide)).trans h.size,
      (hf 45 (by decide)).trans h.link,
      h.blocks.congr (fun k _ hk => hf k (Nat.lt_trans hk (by decide))) fun c hc a ha => ?_,
        h.contents.congr fun b hb a ha => ?_⟩
    · have := fileIndirect_bound hc
      exact hblocks a (by omega) (by omega)
    · have := fileBlocks_bound hb
      exact hblocks a (by omega) (by omega)
  | dir f lo es h names kids ih =>
    simp only [HostNode.blocks] at hblocks
    have hentry : ∀ k, k / file2blk < (es.dirBlocks lo).length → ∀ j < fileWords,
        m' (entryAt (es.dirBlocks lo) k + j) = m (entryAt (es.dirBlocks lo) k + j) := by
      intro k hk j hj
      have := HostDir.dirBlocks_bound es _ (getD_mem hk)
      apply hblocks
      · rw [entryAt_word hj]
        omega
      · rw [entryAt_word hj]
        omega
    have hkid : ∀ kid ∈ es.kids lo, ∀ j < fileWords, m' (kid.ptr + j) = m (kid.ptr + j) := by
      intro kid hk
      obtain ⟨k, hlt, -, hptr⟩ := HostDir.mem_kids hk
      rw [hptr]
      apply hentry
      rw [HostDir.length_dirBlocks]
      unfold file2blk
      omega
    refine .dir f' lo es (h.congr hf (fun c hc a ha => ?_) fun k _ hk =>
      hentry k (Nat.div_lt_of_lt_mul hk)) (fun kid hk => ?_)
      fun kid hk => ?_
    · have := HostDir.indirect_bound es c hc
      exact hblocks a (by omega) (by omega)
    · exact (names kid hk).congr fun j hj => hkid kid hk j (Nat.lt_trans hj (by decide))
    · have := HostDir.kids_bound es kid hk
      exact ih kid hk (hkid kid hk) fun a _ _ => hblocks a (by omega) (by omega)

/-! ## `save_block_link` -/

theorem assert_true {b : Bool} (h : b = true) (d : Image) : (assert b : FormatM Unit) d = some (.ok (), d) := by
  rw [h]
  rfl

theorem nextBlock_ok {d : Image} (h : d.nextbno < nblock) :
    nextBlock d = some (.ok d.nextbno, { d with nextbno := d.nextbno + 1 }) := by
  unfold nextBlock
  rw [bind_read, id_eq, bind_of_ok (assert_true (decide_eq_true h) d)]
  rfl

theorem toNat_block {b : Nat} (h : b ≤ nblock) : (BitVec.ofNat 32 b).toNat = b := by
  unfold nblock at h
  rw [BitVec.toNat_ofNat, Nat.mod_eq_of_lt (by omega)]

theorem block_ne_zero {b : Nat} (h0 : b ≠ 0) (h : b ≤ nblock) : BitVec.ofNat 32 b ≠ 0 := by
  intro hz
  have hz := congrArg BitVec.toNat hz
  rw [toNat_block h] at hz
  exact h0 hz

theorem Attaches.store {b c : Nat} (hind : m (fIndirect f) = BitVec.ofNat 32 c)
    (hdirect : ∀ i < nDirect, m (fDirect f i) = BitVec.ofNat 32 (bs.getD i 0))
    (hlinks : ∀ i < nIndirect, nDirect ≤ i → m (diskAddr c + i) = BitVec.ofNat 32 (bs.getD i 0))
    (hlen : bs.length < nIndirect) (h10 : nDirect ≤ bs.length) (hc : indirectBlock (bs ++ [b]) = some c)
    (hf : ∀ k < fileWords, (f + k) / blockWords ≠ c) :
    Attaches (Function.update m (diskAddr c + bs.length) (BitVec.ofNat 32 b)) f (bs ++ [b]) := by
  have hother : ∀ k < fileWords, Function.update m (diskAddr c + bs.length) (BitVec.ofNat 32 b)
      (f + k) = m (f + k) := by
    intro k hk
    apply Function.update_of_ne
    intro heq
    apply hf k hk
    rw [heq]
    exact Fs.diskAddr_div c hlen
  refine ⟨fun i hi => ?_, ?_, fun c' hc' i hi h10' => ?_⟩
  · have hk : 34 + i < fileWords := by
      unfold nDirect at hi
      unfold fileWords
      omega
    unfold fDirect
    rw [Nat.add_assoc, hother _ hk, ← Nat.add_assoc, List.getD_append _ _ _ _ (by omega)]
    exact hdirect i hi
  · rw [hc]
    exact (hother 44 (by decide)).trans hind
  · cases hc.symm.trans hc'
    by_cases heq : i = bs.length
    · rw [heq, Function.update_self, List.getD_append_right _ _ _ _ (Nat.le_refl _), Nat.sub_self]
      rfl
    · rw [Function.update_of_ne (by omega), hlinks i hi h10']
      by_cases hlt : i < bs.length
      · rw [List.getD_append _ _ _ _ hlt]
      · rw [List.getD_eq_default _ _ (by omega),
          List.getD_eq_default _ _ (by rw [List.length_append, List.length_singleton]; omega)]

/-- **`save_block_link`** of the block behind those of the file. -/
theorem saveBlockLink_spec {d : Image} {b : Nat} (h : Attaches d.mem f bs) (hlen : bs.length < nIndirect)
    (hbs : ∀ c ∈ bs, c < nblock) (hnext : d.nextbno = b + 1) (hroom : bs.length = nDirect → d.nextbno < nblock)
    (hfresh : bs.length = nDirect → ∀ a, a / blockWords = d.nextbno → d.mem a = 0)
    (hf : ∀ c, indirectBlock (bs ++ [b]) = some c → ∀ k < fileWords, (f + k) / blockWords ≠ c) :
    ∃ d', saveBlockLink f bs.length b d = some (.ok (), d') ∧ Attaches d'.mem f (bs ++ [b]) ∧
      d'.nextbno = d.nextbno + (if bs.length = nDirect then 1 else 0) ∧
      ∀ a, (∀ k, 34 ≤ k → k < 45 → a ≠ f + k) → (∀ c, indirectBlock (bs ++ [b]) = some c → a / blockWords ≠ c) →
        d'.mem a = d.mem a := by
  unfold saveBlockLink
  rw [bind_of_ok (assert_true (decide_eq_true hlen) d)]
  by_cases h₁ : bs.length < nDirect
  · rw [if_pos h₁]
    have hnone : indirectBlock (bs ++ [b]) = none :=
      indirectBlock_none (by rw [List.length_append, List.length_singleton]; omega)
    refine ⟨_, rfl, ⟨fun i hi => ?_, ?_, fun c hc => ?_⟩, ?_, fun a ha _ => ?_⟩
    · by_cases heq : i = bs.length
      · rw [heq]
        refine (Function.update_self _ _ _).trans ?_
        rw [List.getD_append_right _ _ _ _ (Nat.le_refl _), Nat.sub_self]
        rfl
      · refine (Function.update_of_ne (by unfold fDirect; omega) _ _).trans ?_
        rw [h.direct i hi]
        by_cases hlt : i < bs.length
        · rw [List.getD_append _ _ _ _ hlt]
        · rw [List.getD_eq_default _ _ (by omega),
            List.getD_eq_default _ _ (by rw [List.length_append, List.length_singleton]; omega)]
    · refine (Function.update_of_ne (by unfold fIndirect fDirect; unfold nDirect at h₁; omega) _ _).trans ?_
      rw [h.indirect, hnone, indirectBlock_none (by omega)]
    · rw [hnone] at hc
      cases hc
    · rw [if_neg (by omega)]
      rfl
    · refine Function.update_of_ne ?_ _ _
      unfold nDirect at h₁
      unfold fDirect
      rw [Nat.add_assoc]
      exact ha (34 + bs.length) (by omega) (by omega)
  · rw [if_neg h₁]
    rw [bind_of_ok (show loadWord (fIndirect f) d = some (.ok (d.mem (fIndirect f)), d) from rfl)]
    rcases Nat.eq_or_lt_of_le (Nat.not_lt.1 h₁) with h₂ | h₂
    · -- the eleventh block: the indirect block is taken behind it
      have hc : indirectBlock (bs ++ [b]) = some d.nextbno := by
        unfold indirectBlock
        rw [List.getElem?_append_right (Nat.le_of_eq h₂.symm), h₂, Nat.sub_self, hnext]
        rfl
      have hzero : d.mem (fIndirect f) = 0 := by
        rw [h.indirect, indirectBlock_none (Nat.le_of_eq h₂.symm)]
        rfl
      have hroom := hroom h₂.symm
      have hfind : ∀ k < fileWords, (f + k) / blockWords ≠ d.nextbno := hf _ hc
      let d₁ : Image := ⟨Function.update d.mem (fIndirect f) (BitVec.ofNat 32 d.nextbno), d.nextbno + 1⟩
      have hread : loadWord (fIndirect f) d₁ = some (.ok (BitVec.ofNat 32 d.nextbno), d₁) :=
        congrArg (fun w => some (Except.ok w, d₁)) (Function.update_self _ _ _)
      rw [if_pos hzero, bind_of_ok (nextBlock_ok hroom), bind_of_ok (show storeWord _ _ _ = some (.ok (), d₁) from rfl)]
      dsimp only
      rw [bind_of_ok hread, toNat_block (Nat.le_of_lt hroom)]
      refine ⟨_, rfl, Attaches.store ?_ (fun i hi => ?_) (fun i hi h10 => ?_) hlen (Nat.le_of_eq h₂) hc hfind, ?_,
        fun a ha hac => ?_⟩
      · exact Function.update_self _ _ _
      · refine (Function.update_of_ne ?_ _ _).trans (h.direct i hi)
        unfold fDirect fIndirect
        unfold nDirect at hi
        omega
      · refine (Function.update_of_ne ?_ _ _).trans ?_
        · intro heq
          apply hfind 44 (by decide)
          rw [show f + 44 = fIndirect f from rfl, ← heq]
          exact Fs.diskAddr_div _ hi
        · rw [hfresh h₂.symm _ (Fs.diskAddr_div _ hi), List.getD_eq_default _ _ (by omega)]
          rfl
      · rw [if_pos h₂.symm]
      · refine (Function.update_of_ne ?_ _ _).trans (Function.update_of_ne ?_ _ _)
        · intro heq
          apply hac _ hc
          rw [heq]
          exact Fs.diskAddr_div _ hlen
        · exact ha 44 (by decide) (by decide)
    · have hold : ∃ c, indirectBlock bs = some c ∧ c ≤ nblock ∧ c ≠ 0 := by
        have hget : bs[nDirect]? = some bs[nDirect] := List.getElem?_eq_getElem h₂
        have hlt := hbs _ (List.getElem_mem h₂)
        refine ⟨bs[nDirect] + 1, ?_, hlt, Nat.succ_ne_zero _⟩
        unfold indirectBlock
        rw [hget]
        rfl
      obtain ⟨c, hold, hle, hne⟩ := hold
      have hc : indirectBlock (bs ++ [b]) = some c := by
        unfold indirectBlock at *
        rw [List.getElem?_append_left h₂]
        exact hold
      have hword : d.mem (fIndirect f) = BitVec.ofNat 32 c := by
        rw [h.indirect, hold]
        rfl
      have hread : loadWord (fIndirect f) d = some (.ok (BitVec.ofNat 32 c), d) :=
        congrArg (fun w => some (Except.ok w, d)) hword
      rw [hword, if_neg (block_ne_zero hne hle)]
      dsimp only
      rw [bind_of_ok hread, toNat_block hle]
      refine ⟨_, rfl, Attaches.store hword h.direct (h.links c hold) hlen (Nat.le_of_lt h₂) hc (hf c hc),
        ?_, fun a _ hac => ?_⟩
      · rw [if_neg (by omega)]
        rfl
      · refine Function.update_of_ne ?_ _ _
        intro heq
        apply hac _ hc
        rw [heq]
        exact Fs.diskAddr_div _ hlen

/-! ## `create_file` -/

theorem blockLink_spec {d : Image} {i : Nat} (h : Attaches d.mem f bs) (hlen : bs.length ≤ nIndirect)
    (hbs : ∀ c ∈ bs, c < nblock) (hi : i < bs.length) :
    ∃ a, blockLink f i d = some (.ok a, d) ∧ d.mem a = BitVec.ofNat 32 (bs.getD i 0) := by
  unfold blockLink
  by_cases h₁ : i < nDirect
  · rw [if_pos h₁]
    exact ⟨_, rfl, h.direct i h₁⟩
  · rw [if_neg h₁]
    have h10 : nDirect < bs.length ∨ i = nDirect := by omega
    have hlt : nDirect < bs.length := by omega
    have hc : indirectBlock bs = some (bs[nDirect] + 1) := by
      unfold indirectBlock
      rw [List.getElem?_eq_getElem hlt]
      rfl
    have hle : bs[nDirect] + 1 ≤ nblock := hbs _ (List.getElem_mem hlt)
    have hread : loadWord (fIndirect f) d = some (.ok (BitVec.ofNat 32 (bs[nDirect] + 1)), d) :=
      congrArg (fun w => some (Except.ok w, d)) (h.indirect.trans (by rw [hc]; rfl))
    rw [bind_of_ok hread, toNat_block hle]
    exact ⟨_, rfl, h.links _ hc i (by omega) (by omega)⟩

theorem entries_eq (bs : List Nat) (i : Nat) :
    entries (diskAddr (bs.getD i 0)) = (List.range file2blk).map fun j => entryAt bs (file2blk * i + j) := by
  unfold entries
  refine List.map_congr_left fun j hj => ?_
  have hj := List.mem_range.1 hj
  unfold entryAt
  unfold file2blk at *
  rw [show (16 * i + j) / 16 = i by omega, show (16 * i + j) % 16 = j by omega]

theorem unusedFrom_cons {d : Image} {i : Nat} (h : Attaches d.mem f bs) (hlen : bs.length ≤ nIndirect)
    (hbs : ∀ c ∈ bs, c < nblock) (hi : i < bs.length) (is : List Nat) : unusedFrom f (i :: is) d =
      match ((List.range file2blk).map fun j => entryAt bs (file2blk * i + j)).find? fun e => fName d.mem e 0 == 0 with
      | some e => some (.ok (some e), d)
      | none => unusedFrom f is d := by
  obtain ⟨a, ha, hword⟩ := blockLink_spec h hlen hbs hi
  have hread : loadWord a d = some (.ok (BitVec.ofNat 32 (bs.getD i 0)), d) :=
    congrArg (fun w => some (Except.ok w, d)) hword
  rw [unusedFrom, bind_of_ok ha, bind_of_ok hread, bind_read, id_eq,
    toNat_block (Nat.le_of_lt (hbs _ (getD_mem hi))), entries_eq]
  cases ((List.range file2blk).map fun j => entryAt bs (file2blk * i + j)).find? fun e => fName d.mem e 0 == 0 with
  | none => rfl
  | some e => rfl

theorem unusedFrom_named {d : Image} (h : Attaches d.mem f bs) (hlen : bs.length ≤ nIndirect)
    (hbs : ∀ c ∈ bs, c < nblock) (rest : List Nat) : ∀ is : List Nat, (∀ i ∈ is, i < bs.length) →
      (∀ i ∈ is, ∀ j < file2blk, fName d.mem (entryAt bs (file2blk * i + j)) 0 ≠ 0) →
        unusedFrom f (is ++ rest) d = unusedFrom f rest d
  | [], _, _ => rfl
  | i :: is, his, hnamed => by
    rw [List.cons_append, unusedFrom_cons h hlen hbs (his i List.mem_cons_self)]
    have hnone : ((List.range file2blk).map fun j => entryAt bs (file2blk * i + j)).find? (fun e =>
      fName d.mem e 0 == 0) = none := by
      rw [List.find?_eq_none]
      intro e he
      obtain ⟨j, hj, rfl⟩ := List.mem_map.1 he
      simpa using hnamed i List.mem_cons_self j (List.mem_range.1 hj)
    rw [hnone]
    exact unusedFrom_named h hlen hbs rest is (fun i hi => his i (List.mem_cons_of_mem _ hi))
      fun i hi => hnamed i (List.mem_cons_of_mem _ hi)

theorem unusedFrom_blank {d : Image} {k : Nat} (h : Attaches d.mem f bs) (hlen : bs.length ≤ nIndirect)
    (hbs : ∀ c ∈ bs, c < nblock) (hk : k / file2blk < bs.length) (hnamed : ∀ j < k, fName d.mem (entryAt bs j) 0 ≠ 0)
    (hblank : fName d.mem (entryAt bs k) 0 = 0) :
    unusedFrom f (List.range (k / file2blk + 1)) d = some (.ok (some (entryAt bs k)), d) := by
  rw [List.range_succ, unusedFrom_named h hlen hbs]
  · rw [unusedFrom_cons h hlen hbs hk]
    have hsome : (List.range file2blk).find?
        ((fun e => fName d.mem e 0 == 0) ∘ fun j => entryAt bs (file2blk * (k / file2blk) + j)) =
        some (k % file2blk) := by
      rw [List.find?_range_eq_some]
      refine ⟨?_, List.mem_range.2 (Nat.mod_lt _ (by decide)), fun j hj => ?_⟩
      · rw [Function.comp_apply, Nat.div_add_mod]
        exact beq_iff_eq.2 hblank
      · have hlt : file2blk * (k / file2blk) + j < k := by
          have := Nat.div_add_mod k file2blk
          omega
        simpa using hnamed _ hlt
    rw [List.find?_map, hsome, Option.map_some, Nat.div_add_mod]
  · intro i hi
    have := List.mem_range.1 hi
    omega
  · intro i hi j hj
    have hi := List.mem_range.1 hi
    apply hnamed
    unfold file2blk at *
    omega

/-- The blocks from `nextbno` on are zero. -/
def Fresh (d : Image) : Prop := ∀ a, d.nextbno ≤ a / blockWords → a < superBase → d.mem a = 0

/-- The words of the directory are not in the blocks from `lo` on. -/
def Home (f lo : Nat) : Prop := ∀ k < fileWords, (f + k) / blockWords < lo ∨ nblock ≤ (f + k) / blockWords

/-- What a directory has so far: its entries are in their places, with the blocks `bs` of its own, and `nextbno` is
`next`. -/
structure Having (d : Image) (f lo : Nat) (es : HostDir) (bs : List Nat) (next : Nat) : Prop where
  next : d.nextbno = next
  fresh : Fresh d
  dir : DirAt d.mem f bs es.len
  named : ∀ kid ∈ es.kids lo, kid.name.getD 0 0 ≠ 0
  names : ∀ kid ∈ es.kids lo, NameAt d.mem kid.ptr kid.name
  kids : ∀ kid ∈ es.kids lo, Placed d.mem kid.ptr kid.lo kid.node

/-- **The directory has the entries so far.** -/
abbrev Filling (d : Image) (f lo : Nat) (es : HostDir) : Prop := Having d f lo es (es.dirBlocks lo) (lo + es.blocks)

/-- There is room for the next one. -/
abbrev Ready (d : Image) (f lo : Nat) (es : HostDir) : Prop := Having d f lo es (es.widened lo) (es.nextLo lo)

/-- Words of the entries that are in place. -/
def KidWord (lo : Nat) (es : HostDir) (a : Nat) : Prop :=
  ∃ kid ∈ es.kids lo, (kid.lo ≤ a / blockWords ∧ a / blockWords < kid.lo + kid.node.blocks) ∨
    ∃ k < fileWords, a = kid.ptr + k

namespace KidWord

variable {es : HostDir} {a : Nat}

theorem kid_index {kid : Kid} (hk : kid ∈ es.kids lo) : ∃ k < es.len, k / file2blk < (es.dirBlocks lo).length ∧
    kid.ptr = entryAt (es.dirBlocks lo) k := by
  obtain ⟨k, hlt, -, hptr⟩ := HostDir.mem_kids hk
  refine ⟨k, hlt, ?_, hptr⟩
  rw [HostDir.length_dirBlocks]
  unfold file2blk
  omega

theorem bound (h : KidWord lo es a) : lo ≤ a / blockWords ∧ a / blockWords < lo + es.blocks := by
  obtain ⟨kid, hk, ⟨hle, hlt⟩ | ⟨j, hj, rfl⟩⟩ := h
  · have := HostDir.kids_bound es kid hk
    omega
  · obtain ⟨k, -, hb, hptr⟩ := kid_index hk
    rw [hptr, entryAt_word hj]
    exact HostDir.dirBlocks_bound es _ (getD_mem hb)

theorem not_indirect (h : KidWord lo es a) {c : Nat} (hc : indirectBlock (es.widened lo) = some c) :
    a / blockWords ≠ c := by
  obtain ⟨-, -, hmem⟩ := HostDir.widened_indirect hc
  intro heq
  obtain ⟨kid, hk, ⟨hle, hlt⟩ | ⟨j, hj, rfl⟩⟩ := h
  · have := HostDir.kids_apart_indirect_widened hk hc
    omega
  · obtain ⟨k, -, hb, hptr⟩ := kid_index hk
    rw [hptr, entryAt_word hj] at heq
    rw [← heq] at hmem
    exact hmem (HostDir.dirBlocks_widened (getD_mem hb))

theorem not_next (h : KidWord lo es a) {k : Nat} (hk : k < fileWords) : a ≠ es.nextEntry lo + k := by
  have hn : es.len / file2blk < (es.widened lo).length := by
    rw [HostDir.length_widened]
    exact Nat.lt_succ_self _
  intro heq
  obtain ⟨kid, hkid, ⟨hle, hlt⟩ | ⟨j, hj, hptr'⟩⟩ := h
  · have hb := HostDir.kids_apart_widened hkid (getD_mem hn)
    rw [heq, HostDir.nextEntry, entryAt_word hk] at hle hlt
    omega
  · obtain ⟨i, hi, hb, hptr⟩ := kid_index hkid
    rw [hptr', hptr, ← HostDir.entryAt_widened hb] at heq
    have hblock : i / file2blk < (es.widened lo).length := by
      have := Nat.div_le_div_right (c := file2blk) (Nat.le_of_lt hi)
      omega
    have := entryAt_inj (HostDir.pairwise_widened lo es) hblock hn hj hk heq
    omega

end KidWord

theorem Home.not_kid {es : HostDir} {k : Nat} (h : Home f lo) (hk : k < fileWords) (hfit : lo + es.blocks ≤ nblock) :
    ¬KidWord lo es (f + k) := by
  intro hkid
  have := hkid.bound
  have := h k hk
  omega

namespace Having

variable {d d' : Image} {es : HostDir} {next : Nat}

/-- **What is in place stays**, where its words do. -/
theorem kept (h : Having d f lo es bs next) (hm : ∀ a, KidWord lo es a → d'.mem a = d.mem a) :
    (∀ kid ∈ es.kids lo, NameAt d'.mem kid.ptr kid.name) ∧ ∀ kid ∈ es.kids lo,
    Placed d'.mem kid.ptr kid.lo kid.node := by
  constructor
  · intro kid hk
    exact (h.names kid hk).congr fun j hj => hm _ ⟨kid, hk, .inr ⟨j, Nat.lt_trans hj (by decide), rfl⟩⟩
  · intro kid hk
    exact (h.kids kid hk).congr (fun j hj => hm _ ⟨kid, hk, .inr ⟨j, hj, rfl⟩⟩) fun a hle hlt =>
      hm a ⟨kid, hk, .inl ⟨hle, hlt⟩⟩

theorem name_ne (h : Having d f lo es bs next) {k : Nat} (hk : k < es.len) :
    fName d.mem (entryAt (es.dirBlocks lo) k) 0 ≠ 0 := by
  have hlen : k < (es.kids lo).length := by rwa [HostDir.length_kids]
  have hget := List.getElem?_eq_getElem hlen
  have hmem := List.getElem_mem hlen
  rw [← HostDir.getElem?_kids es k _ hget, h.names _ hmem 0 (by decide)]
  exact h.named _ hmem

end Having

theorem block_lt {es : HostDir} (hfit : es.nextLo lo ≤ nblock) : ∀ b ∈ es.widened lo, b < nblock := fun b hb => by
  have := HostDir.widened_bound es b hb
  omega

theorem length_le {es : HostDir} (hfit : es.nextLo lo ≤ nblock) : (es.widened lo).length ≤ nIndirect := by
  have hsub : es.widened lo ⊆ List.range nblock := fun b hb => List.mem_range.2 (block_lt hfit b hb)
  have hnodup : (es.widened lo).Nodup := (HostDir.pairwise_widened lo es).imp Nat.ne_of_lt
  have hle := (List.subperm_of_subset hnodup hsub).length_le
  rw [List.length_range] at hle
  exact hle

/-- **`make_link_block`** -/
theorem makeLinkBlock_spec {d : Image} (h : Attaches d.mem f bs)
    (hsize : d.mem (fSize f) = BitVec.ofNat 32 (blockSize * bs.length)) (hlen : bs.length < nIndirect)
    (hbs : ∀ c ∈ bs, c < nblock) (hroom : d.nextbno + (if bs.length = nDirect then 2 else 1) ≤ nblock)
    (hfresh : Fresh d)
    (hf : ∀ c, indirectBlock (bs ++ [d.nextbno]) = some c → ∀ k < fileWords, (f + k) / blockWords ≠ c) :
    ∃ d', makeLinkBlock f bs.length d = some (.ok d.nextbno, d') ∧ Attaches d'.mem f (bs ++ [d.nextbno]) ∧
      d'.mem (fSize f) = BitVec.ofNat 32 (blockSize * (bs.length + 1)) ∧
      d'.nextbno = d.nextbno + (if bs.length = nDirect then 2 else 1) ∧
      ∀ a, a ≠ f + 32 → (∀ k, 34 ≤ k → k < 45 → a ≠ f + k) →
        (∀ c, indirectBlock (bs ++ [d.nextbno]) = some c → a / blockWords ≠ c) → d'.mem a = d.mem a := by
  have hnext : d.nextbno < nblock := by
    split at hroom <;> omega
  have hroom' : bs.length = nDirect → d.nextbno + 1 < nblock := fun h10 => by
    rw [if_pos h10] at hroom
    omega
  have hzero : bs.length = nDirect → ∀ a, a / blockWords = d.nextbno + 1 → d.mem a = 0 := fun h10 a ha => by
    have := hroom' h10
    apply hfresh a
    · omega
    · unfold superBase nblock blockWords at *
      omega
  obtain ⟨d₁, hsave, hatt, hno, hframe⟩ :=
    saveBlockLink_spec (d := { d with nextbno := d.nextbno + 1 }) h hlen hbs rfl hroom' hzero hf
  have hsize₁ : d₁.mem (fSize f) = BitVec.ofNat 32 (blockSize * bs.length) := by
    rw [← hsize]
    refine hframe _ (fun k h34 _ => by unfold fSize; omega) fun c hc => hf c hc 32 (by decide)
  have hread : loadWord (fSize f) d₁ = some (.ok (BitVec.ofNat 32 (blockSize * bs.length)), d₁) :=
    congrArg (fun w => some (Except.ok w, d₁)) hsize₁
  unfold makeLinkBlock
  rw [bind_of_ok (nextBlock_ok hnext), bind_of_ok hsave, bind_of_ok hread]
  refine ⟨{ d₁ with mem := Function.update d₁.mem (fSize f) (BitVec.ofNat 32 (blockSize * bs.length) + 4096) }, rfl,
    hatt.congr (fun k h34 _ => ?_)
    (fun c hc a ha => ?_), ?_, ?_, fun a h32 h34 hc => ?_⟩
  · exact Function.update_of_ne (by unfold fSize; omega) _ _
  · refine Function.update_of_ne ?_ _ _
    intro heq
    exact hf c hc 32 (by decide) ((congrArg (· / blockWords) heq).symm.trans ha)
  · refine (Function.update_self _ _ _).trans ?_
    rw [Nat.mul_succ, BitVec.ofNat_add]
    rfl
  · refine hno.trans ?_
    dsimp only
    split <;> omega
  · exact (Function.update_of_ne h32 _ _).trans (hframe a h34 hc)

/-- **`create_file`**: the next entry of the directory, which is blank. -/
theorem createFile_spec {d : Image} {es : HostDir} (h : Filling d f lo es) (hhome : Home f lo) (hlo : 0 < lo)
    (hfit : es.nextLo lo ≤ nblock) : ∃ d', createFile f d = some (.ok (es.nextEntry lo), d') ∧ Ready d' f lo es ∧
      ∀ a, a / blockWords < lo ∨ superBase ≤ a → (∀ k, 32 ≤ k → k < 45 → a ≠ f + k) → d'.mem a = d.mem a := by
  have hsub : ∀ b ∈ es.dirBlocks lo, b < nblock := fun b hb => block_lt hfit b (HostDir.dirBlocks_widened hb)
  have hlen : (es.dirBlocks lo).length ≤ nIndirect := by
    have h1 := length_le hfit
    have h2 := HostDir.length_dirBlocks lo es
    have h3 := HostDir.length_widened lo es
    unfold file2blk at *
    omega
  have hnblk : (d.mem (fSize f)).toNat / blockSize = (es.dirBlocks lo).length := by
    rw [h.dir.size, BitVec.toNat_ofNat]
    unfold nIndirect at hlen
    unfold blockSize pageSize at *
    omega
  have hread : loadWord (fSize f) d = some (.ok (d.mem (fSize f)), d) := rfl
  unfold createFile
  rw [bind_of_ok hread, hnblk]
  by_cases h16 : es.len % file2blk = 0
  · -- every entry has a name, and a block is linked
    have hw : es.widened lo = es.dirBlocks lo ++ [d.nextbno] := by
      rw [h.next]
      exact if_pos h16
    have hl : (es.dirBlocks lo).length = es.len / file2blk := by
      rw [HostDir.length_dirBlocks]
      unfold file2blk at *
      omega
    have hg : es.grown = if (es.dirBlocks lo).length = nDirect then 2 else 1 := by
      rw [hl]
      exact if_pos h16
    have hall : unusedFrom f (List.range (es.dirBlocks lo).length) d = some (.ok none, d) := by
      have hpass := unusedFrom_named h.dir.blocks hlen hsub [] (List.range (es.dirBlocks lo).length)
          (fun i hi => List.mem_range.1 hi)
        fun i hi j hj => h.name_ne (by
          have := List.mem_range.1 hi
          unfold file2blk at *
          omega)
      rw [List.append_nil] at hpass
      exact hpass
    have hblock : d.nextbno ∈ es.widened lo := by
      rw [hw]
      exact List.mem_append_right _ (List.mem_singleton.2 rfl)
    have hind : ∀ c, indirectBlock (es.dirBlocks lo ++ [d.nextbno]) = some c → lo ≤ c ∧ c < es.nextLo lo ∧ c ∉
        es.widened lo := fun c hc =>
      HostDir.widened_indirect (hw ▸ hc)
    have hf : ∀ c, indirectBlock (es.dirBlocks lo ++ [d.nextbno]) = some c → ∀ k < fileWords, (f + k) /
        blockWords ≠ c := fun c hc k hk => by
      have := hind c hc
      have := hhome k hk
      omega
    have hwlen := length_le hfit
    rw [hw, List.length_append, List.length_singleton] at hwlen
    obtain ⟨d', hmake, hatt, hsize, hno, hframe⟩ := makeLinkBlock_spec h.dir.blocks h.dir.size (by omega) hsub
      (by rw [h.next, ← hg]; exact hfit) h.fresh hf
    have hout : ∀ a, (∀ k < fileWords, a ≠ f + k) → (∀ c, indirectBlock (es.widened lo) = some c → a / blockWords ≠ c) →
        d'.mem a = d.mem a := fun a ha hc =>
      hframe a (ha 32 (by decide)) (fun k _ hk => ha k (Nat.lt_trans hk (by decide))) fun c hc' => hc c (hw ▸ hc')
    have hkept := h.kept fun a (ha : KidWord lo es a) => hout a
      (fun k hk heq => hhome.not_kid hk (by unfold HostDir.nextLo at hfit; omega) (heq ▸ ha))
      fun c hc => ha.not_indirect hc
    have hnext : d'.nextbno = es.nextLo lo := by
      rw [hno, h.next, ← hg]
      rfl
    refine ⟨d', ?_, ⟨hnext, fun a hle hlt => ?_, ⟨?_, ?_, ?_, ?_, fun k hk hlt j hj => ?_⟩, h.named, hkept.1,
      hkept.2⟩, fun a ha hne => ?_⟩
    · rw [bind_of_ok hall]
      refine (bind_of_ok hmake).trans ?_
      unfold HostDir.nextEntry entryAt
      rw [hw, h16, ← hl, List.getD_append_right _ _ _ _ (Nat.le_refl _), Nat.sub_self, List.getD_cons_zero,
        Nat.mul_zero, Nat.add_zero]
      rfl
    · rw [hnext] at hle
      rw [hout a]
      · apply h.fresh a _ hlt
        rw [h.next]
        unfold HostDir.nextLo at hle
        omega
      · intro k hk heq
        have := hhome k hk
        have : lo ≤ es.nextLo lo := by
          unfold HostDir.nextLo
          omega
        unfold superBase nblock blockWords at *
        omega
      · intro c hc
        have := HostDir.widened_indirect hc
        omega
    · rw [← h.dir.type]
      exact hframe _ (by unfold fType; omega) (fun k h34 _ => by unfold fType; omega) fun c hc => hf c hc 33 (by decide)
    · rw [hsize, hw, List.length_append, List.length_singleton]
    · rw [← h.dir.link]
      exact hframe _ (by unfold fDir; omega) (fun k _ h45 => by unfold fDir; omega) fun c hc => hf c hc 45 (by decide)
    · rw [hw]
      exact hatt
    · -- the entries of the new block
      rw [hw, List.length_append, List.length_singleton] at hlt
      have hkb : k / file2blk = (es.dirBlocks lo).length := by
        unfold file2blk at *
        omega
      have hword : (entryAt (es.widened lo) k + j) / blockWords = d.nextbno := by
        rw [entryAt_word hj, hkb, hw, List.getD_append_right _ _ _ _ (Nat.le_refl _), Nat.sub_self]
        rfl
      have hbound := HostDir.widened_bound es _ hblock
      rw [hout _]
      · apply h.fresh
        · rw [hword]
        · unfold superBase
          unfold nblock blockWords at *
          omega
      · intro i hi heq
        have := hhome i hi
        rw [← heq, hword] at this
        omega
      · intro c hc heq
        rw [hword] at heq
        exact (HostDir.widened_indirect hc).2.2 (heq ▸ hblock)
    · refine hframe a (hne 32 (by decide) (by decide)) (fun k h34 h45 => hne k (by omega) h45) fun c hc => ?_
      have := hind c hc
      rcases ha with ha | ha
      · omega
      · unfold superBase nblock blockWords at *
        omega
  · have hw : es.widened lo = es.dirBlocks lo := if_neg h16
    have hg : es.grown = 0 := if_neg h16
    have hl := HostDir.length_widened lo es
    rw [hw] at hl
    have hlt : es.len < file2blk * (es.dirBlocks lo).length := by
      rw [hl]
      unfold file2blk
      omega
    have hblank : fName d.mem (entryAt (es.dirBlocks lo) es.len) 0 = 0 := by
      have hzero := h.dir.blank es.len (Nat.le_refl _) hlt 0 (by decide)
      unfold fName byteAt
      rw [show (4 * entryAt (es.dirBlocks lo) es.len + 0) / 4 = entryAt (es.dirBlocks lo) es.len + 0 by omega, hzero]
      exact Fs.getByte_zero _
    rw [hl, bind_of_ok (unusedFrom_blank h.dir.blocks hlen hsub (by rw [hl]; exact Nat.lt_succ_self _)
      (fun j hj => h.name_ne hj) hblank)]
    refine ⟨d, ?_, ⟨?_, h.fresh, ?_, h.named, h.names, h.kids⟩, fun _ _ _ => rfl⟩
    · unfold HostDir.nextEntry
      rw [hw]
      rfl
    · rw [h.next]
      unfold HostDir.nextLo
      rw [hg, Nat.add_zero]
    · rw [hw]
      exact h.dir

/-! ## The next entry -/

variable {d d' : Image} {es : HostDir} {node : HostNode}

theorem nextEntry_block {k : Nat} (hk : k < fileWords) : (es.nextEntry lo + k) / blockWords ∈ es.widened lo := by
  rw [HostDir.nextEntry, entryAt_word hk]
  apply getD_mem
  rw [HostDir.length_widened]
  exact Nat.lt_succ_self _

theorem nextEntry_home : Home (es.nextEntry lo) (es.nextLo lo) :=
  fun _ hk => .inl (HostDir.widened_bound es _ (nextEntry_block hk)).2

theorem Home.not_next {k j : Nat} (h : Home f lo) (hk : k < fileWords) (hj : j < fileWords)
    (hfit : es.nextLo lo ≤ nblock) :
    f + k ≠ es.nextEntry lo + j := by
  intro heq
  have := h k hk
  have hb : (es.nextEntry lo + j) / blockWords ∈ es.widened lo := nextEntry_block hj
  have := HostDir.widened_bound es _ hb
  rw [← heq] at this
  omega

theorem Having.next_blank (h : Ready d f lo es) {j : Nat} (hj : j < fileWords) : d.mem (es.nextEntry lo + j) = 0 := by
  apply h.dir.blank es.len (Nat.le_refl _) _ j hj
  rw [HostDir.length_widened]
  unfold file2blk
  omega

/-- **An entry is written**, and its blocks. -/
theorem Having.snoc (h : Ready d f lo es) (hhome : Home f lo) (hfit : es.nextLo lo + node.blocks ≤ nblock)
    (hname : name.getD 0 0 ≠ 0) (hno : d'.nextbno = d.nextbno + node.blocks) (hfresh : Fresh d')
    (hn : NameAt d'.mem (es.nextEntry lo) name) (hp : Placed d'.mem (es.nextEntry lo) (es.nextLo lo) node)
    (hframe : ∀ a, a / blockWords < es.nextLo lo ∨ superBase ≤ a → (∀ k < fileWords, a ≠ es.nextEntry lo + k) →
      d'.mem a = d.mem a) :
    Filling d' f lo (.snoc es name node) := by
  have hle : es.nextLo lo ≤ nblock := by omega
  have hlo : lo + es.blocks ≤ es.nextLo lo := Nat.le_add_right _ _
  have hself : ∀ k < fileWords, d'.mem (f + k) = d.mem (f + k) := by
    intro k hk
    apply hframe
    · rcases hhome k hk with hlt | hge
      · left
        omega
      · right
        unfold superBase nblock blockWords at *
        omega
    · exact fun j hj => hhome.not_next hk hj hle
  have hkept := h.kept fun a (ha : KidWord lo es a) => hframe a (.inl (Nat.lt_of_lt_of_le ha.bound.2 hlo))
      fun k hk => ha.not_next hk
  have hblank : ∀ k, es.len + 1 ≤ k → k < file2blk * (es.widened lo).length → ∀ j < fileWords,
      d'.mem (entryAt (es.widened lo) k + j) = d.mem (entryAt (es.widened lo) k + j) := by
    intro k hk hlt j hj
    have hb := Nat.div_lt_of_lt_mul hlt
    apply hframe
    · left
      rw [entryAt_word hj]
      exact (HostDir.widened_bound es _ (getD_mem hb)).2
    · intro i hi heq
      have hlast : es.len / file2blk < (es.widened lo).length := by
        rw [HostDir.length_widened]
        exact Nat.lt_succ_self _
      have := entryAt_inj (HostDir.pairwise_widened lo es) hb hlast hj hi heq
      omega
  refine ⟨?_, hfresh, ?_, fun kid hk => ?_, fun kid hk => ?_, fun kid hk => ?_⟩
  · rw [hno, h.next]
    simp only [HostDir.blocks, HostDir.nextLo]
    omega
  · rw [HostDir.dirBlocks_snoc]
    have hdir : DirAt d.mem f (es.widened lo) (es.len + 1) :=
      ⟨h.dir.type, h.dir.size, h.dir.link, h.dir.blocks, fun k hk hlt j hj => h.dir.blank k (by omega) hlt j hj⟩
    refine hdir.congr hself (fun c hc a ha => ?_) hblank
    obtain ⟨-, hlt, hmem⟩ := HostDir.widened_indirect hc
    refine hframe a (.inl (ha ▸ hlt)) fun k hk heq => hmem ?_
    rw [← ha, heq]
    exact nextEntry_block hk
  · simp only [HostDir.kids] at hk
    rcases List.mem_append.1 hk with hk | hk
    · exact h.named kid hk
    · obtain rfl := List.mem_singleton.1 hk
      exact hname
  · simp only [HostDir.kids] at hk
    rcases List.mem_append.1 hk with hk | hk
    · exact hkept.1 kid hk
    · obtain rfl := List.mem_singleton.1 hk
      exact hn
  · simp only [HostDir.kids] at hk
    rcases List.mem_append.1 hk with hk | hk
    · exact hkept.2 kid hk
    · obtain rfl := List.mem_singleton.1 hk
      exact hp

/-! ## `write_file` -/

theorem putData_other {c a : Nat} (hlen : data.length ≤ blockSize) (ha : a / blockWords ≠ c) :
    putData m (4 * diskAddr c) data a = m a := by
  refine eq_of_getByte fun j hj => ?_
  rw [← byteAt_word _ a hj, ← byteAt_word m a hj]
  unfold putData
  rw [byteAt_putBytes, if_neg]
  rintro ⟨hle, hlt⟩
  apply ha
  unfold diskAddr blockWords at *
  unfold blockSize pageSize at hlen
  omega

theorem length_chunk (data : List (BitVec 8)) (i : Nat) : (chunk data i).length ≤ blockSize := by
  unfold chunk
  rw [List.length_take]
  exact Nat.min_le_left _ _

theorem getD_chunk {i j : Nat} (hj : j < blockSize) : (chunk data i).getD j 0 = data.getD (blockSize * i + j) 0 := by
  unfold chunk
  rw [List.getD_eq_getElem?_getD, List.getD_eq_getElem?_getD, List.getElem?_take_of_lt hj, List.getElem?_drop]

theorem putData_contents {c i j : Nat} (hzero : ∀ a, a / blockWords = c → m a = 0) (hj : j < blockSize) :
    byteAt (putData m (4 * diskAddr c) (chunk data i)) (4 * diskAddr c + j) = data.getD (blockSize * i + j) 0 := by
  rw [← getD_chunk hj]
  unfold putData
  rw [byteAt_putBytes, Nat.add_sub_cancel_left]
  split
  · rfl
  · have hlen : (chunk data i).length ≤ j := by omega
    rw [List.getD_eq_default _ _ hlen]
    unfold byteAt
    rw [hzero]
    · exact Fs.getByte_zero _
    · unfold diskAddr blockWords
      unfold blockSize pageSize at hj
      omega

theorem fileIndirect_not_mem {n c : Nat} (hc : indirectBlock (fileBlocks lo n) = some c) : c ∉ fileBlocks lo n := by
  intro hmem
  obtain ⟨i, -, hi⟩ := List.mem_map.1 hmem
  unfold indirectBlock at hc
  by_cases hn : nDirect < n
  · rw [getElem?_fileBlocks hn, Option.map_some, Option.some.injEq, show span nDirect = nDirect from rfl] at hc
    unfold span nDirect at *
    split at hi <;> omega
  · rw [List.getElem?_eq_none (by rw [length_fileBlocks]; omega)] at hc
    cases hc

theorem span_ge (n : Nat) : n ≤ span n := by
  unfold span
  split <;> omega

theorem span_mono {n n' : Nat} (h : n ≤ n') : span n ≤ span n' := by
  unfold span
  split <;> split <;> omega

/-- The first `n` blocks of a file are written. -/
structure Loaded (d : Image) (e lo : Nat) (data : List (BitVec 8)) (n : Nat) : Prop where
  next : d.nextbno = lo + span n
  fresh : Fresh d
  blocks : Attaches d.mem e (fileBlocks lo n)
  contents : Carries d.mem (fileBlocks lo n) data

/-- **One block of a file**: the bytes of one `read`, and the link. -/
theorem writeBlock_spec {n : Nat} (h : Loaded d e lo data n) (hhome : Home e lo) (hfit : lo + span (n + 1) ≤ nblock) :
    ∃ d₁, saveBlockLink e n d.nextbno ⟨putData d.mem (4 * diskAddr d.nextbno) (chunk data n), d.nextbno + 1⟩ =
    some (.ok (), d₁) ∧
      Loaded d₁ e lo data (n + 1) ∧
      ∀ a, a / blockWords < lo ∨ superBase ≤ a → (∀ j, 34 ≤ j → j < 45 → a ≠ e + j) → d₁.mem a = d.mem a := by
  obtain ⟨hnext, hfresh, hatt, hcont⟩ := h
  have hsucc := span_succ n
  have hblock : d.nextbno < nblock := by
    split at hsucc <;> omega
  have hout : ∀ a, a / blockWords ≠ d.nextbno → putData d.mem (4 * diskAddr d.nextbno) (chunk data n) a =
      d.mem a := fun a ha =>
    putData_other (length_chunk data n) ha
  have hword : ∀ j < fileWords, (e + j) / blockWords ≠ d.nextbno := fun j hj => by
    have := hhome j hj
    omega
  have hold : ∀ b ∈ fileBlocks lo n, b ≠ d.nextbno := fun b hb => by
    have := fileBlocks_bound hb
    omega
  have hind : ∀ c, indirectBlock (fileBlocks lo (n + 1)) = some c →
      (∀ j < fileWords, (e + j) / blockWords ≠ c) ∧ lo ≤ c ∧
      c < lo + span (n + 1) := fun c hc => by
    have hc := fileIndirect_bound hc
    refine ⟨fun j hj => ?_, hc⟩
    have := hhome j hj
    omega
  have hatt₁ : Attaches (putData d.mem (4 * diskAddr d.nextbno) (chunk data n)) e (fileBlocks lo n) := by
    refine hatt.congr (fun j _ hj => hout _ (hword j (Nat.lt_trans hj (by decide)))) fun c hc a ha => hout a ?_
    have := fileIndirect_bound hc
    omega
  have hzero : ∀ a, a / blockWords = d.nextbno → d.mem a = 0 := fun a ha => by
    apply hfresh a (Nat.le_of_eq ha.symm)
    unfold superBase nblock blockWords at *
    omega
  have hn : n < nIndirect := by
    have := span_ge (n + 1)
    unfold nblock at hfit
    unfold nIndirect blockSize pageSize
    omega
  obtain ⟨d₁, hsave, hatt₂, hno, hframe⟩ := saveBlockLink_spec
    (d := ⟨putData d.mem (4 * diskAddr d.nextbno) (chunk data n), d.nextbno + 1⟩) (b := d.nextbno) hatt₁
    (by rw [length_fileBlocks]; exact hn) (fun c hc => by have := fileBlocks_bound hc; omega) rfl
    (fun h10 => by
      rw [length_fileBlocks] at h10
      rw [if_pos h10] at hsucc
      dsimp only
      omega)
    (fun h10 a ha => by
      rw [length_fileBlocks] at h10
      rw [if_pos h10] at hsucc
      dsimp only at ha ⊢
      rw [hout a (by omega)]
      apply hfresh a (by omega)
      unfold superBase nblock blockWords at *
      omega)
    (fun c hc => (hind c (by rw [fileBlocks_succ, ← hnext]; exact hc)).1)
  rw [length_fileBlocks] at hsave hno
  rw [hnext, ← fileBlocks_succ] at hatt₂ hframe
  dsimp only at hframe
  rw [hnext] at hout hold hzero hword
  have hno₁ : d₁.nextbno = lo + span (n + 1) := by
    rw [hno, hnext, hsucc]
    dsimp only
    split <;> omega
  have hnot : ∀ c, indirectBlock (fileBlocks lo (n + 1)) = some c → c ∉ fileBlocks lo (n + 1) :=
    fun c hc => fileIndirect_not_mem hc
  have hrange : ∀ b ∈ fileBlocks lo (n + 1), lo ≤ b ∧ b < lo + span (n + 1) := fun b hb => fileBlocks_bound hb
  have hlast : (fileBlocks lo (n + 1)).getD n 0 = lo + span n := by
    rw [fileBlocks_succ, List.getD_append_right _ _ _ _ (by rw [length_fileBlocks]), length_fileBlocks, Nat.sub_self]
    rfl
  -- the blocks of the file are written to by `read` alone
  have hblocks : ∀ a, a / blockWords ∈ fileBlocks lo (n + 1) →
      d₁.mem a = putData d.mem (4 * diskAddr (lo + span n)) (chunk data n) a := by
    intro a ha
    refine hframe a (fun j _ hj heq => ?_) fun c hc heq => hnot c hc (heq ▸ ha)
    subst heq
    have := hrange _ ha
    have := hhome j (Nat.lt_trans hj (by decide))
    omega
  have hcont₁ : Carries d₁.mem (fileBlocks lo (n + 1)) data := by
    intro i hi j hj
    have hmem := getD_mem hi
    have hdiv : (4 * diskAddr ((fileBlocks lo (n + 1)).getD i 0) + j) / 4 /
        blockWords = (fileBlocks lo (n + 1)).getD i 0 := by
      unfold diskAddr blockWords
      unfold blockSize pageSize at hj
      omega
    unfold byteAt
    rw [hblocks _ (by rw [hdiv]; exact hmem)]
    rw [length_fileBlocks] at hi
    rcases Nat.lt_succ_iff_lt_or_eq.1 hi with hi | rfl
    · have hold' : (fileBlocks lo (n + 1)).getD i 0 = (fileBlocks lo n).getD i 0 := by
        rw [fileBlocks_succ, List.getD_append _ _ _ _ (by rw [length_fileBlocks]; exact hi)]
      rw [hout _ (by rw [hdiv, hold']; exact hold _ (getD_mem (by rw [length_fileBlocks]; exact hi))), hold']
      exact hcont i (by rw [length_fileBlocks]; exact hi) j hj
    · rw [hlast]
      exact putData_contents hzero hj
  have hfresh₁ : Fresh d₁ := by
    intro a hle hlt
    have hle : lo + span (n + 1) ≤ a / blockWords := hno₁ ▸ hle
    have hn1 : lo + span n < lo + span (n + 1) := by
      split at hsucc <;> omega
    rw [hframe a (fun j _ hj heq => ?_) (fun c hc heq => ?_), hout a (by omega)]
    · exact hfresh a (by omega) hlt
    · subst heq
      have := hhome j (Nat.lt_trans hj (by decide))
      unfold superBase nblock blockWords at *
      omega
    · have := (hind c hc).2
      omega
  refine ⟨d₁, hsave, ⟨hno₁, hfresh₁, hatt₂, hcont₁⟩, fun a ha he => (hframe a he fun c hc => ?_).trans (hout a ?_)⟩
  · have := (hind c hc).2
    unfold superBase nblock blockWords at *
    omega
  · unfold superBase nblock blockWords at *
    omega

/-- **The loop of `write_file`** -/
theorem writeBlocks_spec (hhome : Home e lo) :
    ∀ (k n : Nat) (d : Image), Loaded d e lo data n → lo + span (n + k) ≤ nblock →
    ∃ d', writeBlocks e data (List.range' n k) d = some (.ok (), d') ∧ Loaded d' e lo data (n + k) ∧
      ∀ a, a / blockWords < lo ∨ superBase ≤ a → (∀ j, 34 ≤ j → j < 45 → a ≠ e + j) → d'.mem a = d.mem a
  | 0, n, d, h, _ => ⟨d, rfl, h, fun _ _ _ => rfl⟩
  | k + 1, n, d, h, hfit => by
    have hspan : lo + span (n + 1) ≤ nblock := Nat.le_trans (Nat.add_le_add_left (span_mono (by omega)) lo) hfit
    have hblock : d.nextbno < nblock := by
      have hsucc := span_succ n
      rw [h.next]
      split at hsucc <;> omega
    rw [show n + (k + 1) = n + 1 + k by omega] at hfit ⊢
    obtain ⟨d₁, hsave, h₁, hframe₁⟩ := writeBlock_spec h hhome hspan
    obtain ⟨d', hrest, h', hframe'⟩ := writeBlocks_spec hhome k (n + 1) d₁ h₁ hfit
    refine ⟨d', ?_, h', fun a ha he => (hframe' a ha he).trans (hframe₁ a ha he)⟩
    rw [List.range'_succ, writeBlocks, bind_of_ok (show modify _ d = some (.ok (), _) from rfl)]
    refine (bind_of_ok (nextBlock_ok
      (d := ⟨putData d.mem (4 * diskAddr d.nextbno) (chunk data n), d.nextbno⟩) hblock)).trans ?_
    exact (bind_of_ok hsave).trans hrest

end Mos.Fsformat
