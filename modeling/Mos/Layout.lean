import Mathlib.Data.List.GetD
import Mathlib.Data.List.Nodup
import Mos.FsHold
import Mos.Fsformat
/-!
# Layout — where `fsformat` puts the files

Blocks are taken one after another and none is given back, so a tree decides where each of its blocks goes: the blocks
of an entry follow those of the entries before it, a directory takes a block when its entries have filled the ones it
has, and the block of the indirections follows the eleventh.  `slots` lists the blocks of a tree in their order, each
with the file that holds it and what for.
-/
namespace Mos

open FilePtr Fsformat

/-- Where block `i` of a file is, among the blocks of the file. -/
def span (i : Nat) : Nat := if i ≤ nDirect then i else i + 1

/-- The blocks of a file that begins with block `lo`. -/
def fileBlocks (lo n : Nat) : List Nat := (List.range n).map fun i => lo + span i

/-- The block of the indirections of a file with these blocks. -/
def indirectBlock (bs : List Nat) : Option Nat := bs[nDirect]?.map (· + 1)

/-- Entry `k` of a directory with these blocks. -/
def entryAt (bs : List Nat) (k : Nat) : Nat := diskAddr (bs.getD (k / file2blk) 0) + fileWords * (k % file2blk)

namespace HostDir

def len : HostDir → Nat
  | .nil => 0
  | .snoc before _ _ => before.len + 1

/-- The blocks that a directory takes for its next entry. -/
def grown (es : HostDir) : Nat :=
  if es.len % file2blk = 0 then (if es.len / file2blk = nDirect then 2 else 1) else 0

end HostDir

mutual

/-- **How many blocks** a file or a directory takes. -/
def HostNode.blocks : HostNode → Nat
  | .file data => span (chunks data)
  | .dir entries => entries.blocks

def HostDir.blocks : HostDir → Nat
  | .nil => 0
  | .snoc before _ node => before.blocks + before.grown + node.blocks

end

/-- An entry that is in its place: where it is, and where its blocks begin. -/
structure Kid where
  name : List (BitVec 8)
  ptr : Nat
  lo : Nat
  node : HostNode

namespace HostDir

/-- The blocks of a directory that begins with block `lo`. -/
def dirBlocks (lo : Nat) : HostDir → List Nat
  | .nil => []
  | .snoc before _ _ =>
    if before.len % file2blk = 0 then dirBlocks lo before ++ [lo + before.blocks] else dirBlocks lo before

/-- Its blocks when there is room for the next entry. -/
def widened (lo : Nat) (es : HostDir) : List Nat :=
  if es.len % file2blk = 0 then es.dirBlocks lo ++ [lo + es.blocks] else es.dirBlocks lo

/-- The next entry, and where its blocks begin. -/
def nextEntry (lo : Nat) (es : HostDir) : Nat := entryAt (es.widened lo) es.len

def nextLo (lo : Nat) (es : HostDir) : Nat := lo + es.blocks + es.grown

/-- **The entries in their places.** -/
def kids (lo : Nat) : HostDir → List Kid
  | .nil => []
  | .snoc before name node => kids lo before ++ [⟨name, before.nextEntry lo, before.nextLo lo, node⟩]

end HostDir

/-- A block of a file, and the block of its indirections behind the eleventh. -/
def linkSlots (f i b : Nat) : List ((Nat × Use) × Nat) :=
  ((f, .block i), b) :: if i = nDirect then [((f, .indirect), b + 1)] else []

mutual

/-- **The blocks of a tree**, with what holds them. -/
def HostNode.slots (f lo : Nat) : HostNode → List ((Nat × Use) × Nat)
  | .file data => (List.range (chunks data)).flatMap fun i => linkSlots f i (lo + span i)
  | .dir entries => entries.slots f lo

def HostDir.slots (f lo : Nat) : HostDir → List ((Nat × Use) × Nat)
  | .nil => []
  | .snoc before _ node =>
    before.slots f lo ++
    (if before.len % file2blk = 0 then linkSlots f (before.len / file2blk) (lo + before.blocks) else []) ++
      node.slots (before.nextEntry lo) (before.nextLo lo)

end

/-! ## One file -/

theorem span_succ (i : Nat) : span (i + 1) = span i + if i = nDirect then 2 else 1 := by
  unfold span nDirect
  split <;> split <;> split <;> omega

theorem blocks_empty : (HostNode.file []).blocks = 0 := by
  simp only [HostNode.blocks]
  rfl

theorem length_fileBlocks (lo n : Nat) : (fileBlocks lo n).length = n := by
  simp [fileBlocks]

theorem fileBlocks_succ (lo n : Nat) : fileBlocks lo (n + 1) = fileBlocks lo n ++ [lo + span n] := by
  simp [fileBlocks, List.range_succ]

theorem getElem?_fileBlocks {lo n i : Nat} (hi : i < n) : (fileBlocks lo n)[i]? = some (lo + span i) := by
  simp [fileBlocks, hi]

theorem linkSlots_blocks (f i b : Nat) :
    (linkSlots f i b).map Prod.snd = List.range' b (if i = nDirect then 2 else 1) := by
  unfold linkSlots
  by_cases h : i = nDirect
  · simp [h, List.range'_succ]
  · simp [h]

theorem fileSlots_blocks (f lo n : Nat) :
    ((List.range n).flatMap fun i => linkSlots f i (lo + span i)).map Prod.snd = List.range' lo (span n) := by
  induction n with
  | zero => simp [span]
  | succ n ih =>
    rw [List.range_succ, List.flatMap_append, List.map_append, ih, List.flatMap_singleton, linkSlots_blocks, span_succ,
      List.range'_append_1]

theorem link_mem {f i b : Nat} : ((f, Use.block i), b) ∈ linkSlots f i b := List.mem_cons_self

theorem link_indirect_mem {f b : Nat} : ((f, Use.indirect), b + 1) ∈ linkSlots f nDirect b := by
  simp [linkSlots]

theorem mem_linkSlots {f i b c n : Nat} {u : Use} (h : ((n, u), c) ∈ linkSlots f i b) :
    n = f ∧ (u = .block i ∧ c = b ∨ u = .indirect ∧ i = nDirect ∧ c = b + 1) := by
  unfold linkSlots at h
  by_cases hi : i = nDirect
  · simpa [hi, and_assoc, ← and_or_left] using h
  · simpa [hi, and_assoc] using h

theorem indirectBlock_append {bs : List Nat} {b c : Nat} (hc : indirectBlock (bs ++ [b]) = some c) :
    indirectBlock bs = some c ∨ bs.length = nDirect ∧ c = b + 1 := by
  unfold indirectBlock at *
  rw [List.getElem?_append] at hc
  split at hc
  · exact .inl hc
  · rw [List.getElem?_singleton] at hc
    split at hc
    · simp only [Option.map_some, Option.some.injEq] at hc
      exact .inr ⟨by omega, hc.symm⟩
    · cases hc

theorem indirectBlock_none {bs : List Nat} (h : bs.length ≤ nDirect) : indirectBlock bs = none := by
  unfold indirectBlock
  rw [List.getElem?_eq_none h]
  rfl

theorem getD_mem {bs : List Nat} {i : Nat} (hi : i < bs.length) : bs.getD i 0 ∈ bs := by
  rw [List.getD_eq_getElem _ _ hi]
  exact List.getElem_mem hi

/-! ## Directories -/

namespace HostDir

variable {lo : Nat}

theorem dirBlocks_snoc (before : HostDir) (name : List (BitVec 8)) (node : HostNode) :
    (HostDir.snoc before name node).dirBlocks lo = before.widened lo := by
  simp only [dirBlocks, widened]

theorem length_dirBlocks (lo : Nat) : ∀ es : HostDir, (es.dirBlocks lo).length = (es.len + 15) / file2blk
  | .nil => rfl
  | .snoc before _ _ => by
    have ih := length_dirBlocks lo before
    simp only [dirBlocks, len]
    split
    · rename_i h16
      rw [List.length_append, ih, List.length_singleton]
      unfold file2blk at *
      omega
    · rename_i h16
      rw [ih]
      unfold file2blk at *
      omega

theorem length_widened (lo : Nat) (es : HostDir) : (es.widened lo).length = es.len / file2blk + 1 := by
  have h := length_dirBlocks lo (.snoc es [] (.file []))
  rw [dirBlocks_snoc] at h
  rw [h]
  simp only [len, file2blk]
  omega

theorem length_dirBlocks_le (lo : Nat) : ∀ es : HostDir, (es.dirBlocks lo).length ≤ es.blocks
  | .nil => Nat.le_refl _
  | .snoc before _ _ => by
    have ih := length_dirBlocks_le lo before
    simp only [dirBlocks, blocks]
    split
    · rename_i h16
      have hg : 1 ≤ before.grown := by
        unfold grown
        rw [if_pos h16]
        split <;> decide
      rw [List.length_append, List.length_singleton]
      omega
    · omega

theorem dirBlocks_bound : ∀ es : HostDir, ∀ b ∈ es.dirBlocks lo, lo ≤ b ∧ b < lo + es.blocks
  | .nil => fun b hb => by simp [dirBlocks] at hb
  | .snoc before _ _ => fun b hb => by
    have ih := dirBlocks_bound before b
    simp only [dirBlocks] at hb
    simp only [blocks]
    split at hb
    · rename_i h16
      have hg : 1 ≤ before.grown := by
        unfold grown
        rw [if_pos h16]
        split <;> decide
      rcases List.mem_append.1 hb with hb | hb
      · have := ih hb
        omega
      · have := List.mem_singleton.1 hb
        omega
    · have := ih hb
      omega

theorem widened_bound (es : HostDir) : ∀ b ∈ es.widened lo, lo ≤ b ∧ b < es.nextLo lo := by
  intro b hb
  have h := dirBlocks_bound (.snoc es [] (.file [])) b (by rwa [dirBlocks_snoc])
  simpa only [blocks, blocks_empty, nextLo, Nat.add_assoc, Nat.add_zero] using h

theorem indirect_bound : ∀ es : HostDir, ∀ c, indirectBlock (es.dirBlocks lo) = some c → lo ≤ c ∧ c < lo + es.blocks
  | .nil => fun c hc => by simp [dirBlocks, indirectBlock] at hc
  | .snoc before _ _ => fun c hc => by
    have ih := indirect_bound before c
    have hlen := length_dirBlocks lo before
    simp only [dirBlocks] at hc
    simp only [blocks]
    split at hc
    · rename_i h16
      unfold indirectBlock at hc ih
      rw [List.getElem?_append] at hc
      split at hc
      · have := ih hc
        omega
      · rename_i hge
        rw [List.getElem?_singleton] at hc
        split at hc
        · rename_i h0
          have hg : before.grown = 2 := by
            unfold grown
            rw [if_pos h16, if_pos]
            unfold file2blk nDirect at *
            omega
          simp only [Option.map_some, Option.some.injEq] at hc
          omega
        · simp at hc
    · have := ih hc
      omega

theorem indirect_not_mem : ∀ es : HostDir, ∀ c, indirectBlock (es.dirBlocks lo) = some c → c ∉ es.dirBlocks lo
  | .nil => fun c hc => by simp [dirBlocks, indirectBlock] at hc
  | .snoc before _ _ => fun c hc hmem => by
    have ih := indirect_not_mem before c
    simp only [dirBlocks] at hc hmem
    split at hc
    · rename_i h16
      rw [if_pos h16] at hmem
      rcases indirectBlock_append hc with hc | ⟨-, rfl⟩
      · rcases List.mem_append.1 hmem with hmem | hmem
        · exact ih hc hmem
        · have := indirect_bound before c hc
          have := List.mem_singleton.1 hmem
          omega
      · rcases List.mem_append.1 hmem with hmem | hmem
        · have := dirBlocks_bound before _ hmem
          omega
        · have := List.mem_singleton.1 hmem
          omega
    · rename_i h16
      rw [if_neg h16] at hmem
      exact ih hc hmem

theorem widened_indirect {es : HostDir} {c : Nat} (hc : indirectBlock (es.widened lo) = some c) :
    lo ≤ c ∧ c < es.nextLo lo ∧ c ∉ es.widened lo := by
  have hbound := indirect_bound (.snoc es [] (.file [])) c (by rwa [dirBlocks_snoc])
  have hmem := indirect_not_mem (.snoc es [] (.file [])) c (by rwa [dirBlocks_snoc])
  rw [dirBlocks_snoc] at hmem
  simp only [blocks, blocks_empty] at hbound
  refine ⟨hbound.1, ?_, hmem⟩
  unfold nextLo
  omega

/-- The blocks of the entries are among those of the directory, and none of them is a block of the directory itself. -/
theorem kids_bound : ∀ es : HostDir, ∀ kid ∈ es.kids lo, lo ≤ kid.lo ∧ kid.lo + kid.node.blocks ≤ lo + es.blocks
  | .nil => fun kid hk => by simp [kids] at hk
  | .snoc before _ _ => fun kid hk => by
    simp only [kids] at hk
    simp only [blocks]
    rcases List.mem_append.1 hk with hk | hk
    · have := kids_bound before kid hk
      omega
    · obtain rfl := List.mem_singleton.1 hk
      unfold nextLo
      dsimp only
      omega

theorem kids_apart :
    ∀ es : HostDir, ∀ kid ∈ es.kids lo, ∀ b ∈ es.dirBlocks lo, b < kid.lo ∨ kid.lo + kid.node.blocks ≤ b
  | .nil => fun kid hk => by simp [kids] at hk
  | .snoc before name node => fun kid hk b hb => by
    rw [dirBlocks_snoc] at hb
    simp only [kids] at hk
    rcases List.mem_append.1 hk with hk | hk
    · have hbound := kids_bound before kid hk
      unfold widened at hb
      split at hb
      · rcases List.mem_append.1 hb with hb | hb
        · exact kids_apart before kid hk b hb
        · have := List.mem_singleton.1 hb
          omega
      · exact kids_apart before kid hk b hb
    · obtain rfl := List.mem_singleton.1 hk
      exact .inl (widened_bound before b hb).2

theorem kids_apart_widened {es : HostDir} {kid : Kid} (hk : kid ∈ es.kids lo) {b : Nat} (hb : b ∈ es.widened lo) :
    b < kid.lo ∨ kid.lo + kid.node.blocks ≤ b := by
  apply kids_apart (.snoc es [] (.file [])) kid
  · exact List.mem_append_left _ hk
  · rwa [dirBlocks_snoc]

theorem kids_apart_indirect : ∀ es : HostDir, ∀ kid ∈ es.kids lo, ∀ c, indirectBlock (es.dirBlocks lo) = some c →
    c < kid.lo ∨ kid.lo + kid.node.blocks ≤ c
  | .nil => fun kid hk => by simp [kids] at hk
  | .snoc before name node => fun kid hk c hc => by
    simp only [kids] at hk
    have hbound := indirect_bound (.snoc before name (.file [])) c (by simpa only [dirBlocks_snoc] using hc)
    simp only [blocks, blocks_empty] at hbound
    rcases List.mem_append.1 hk with hk | hk
    · have hkid := kids_bound before kid hk
      by_cases hold : indirectBlock (before.dirBlocks lo) = some c
      · exact kids_apart_indirect before kid hk c hold
      · -- the block comes with the last entry
        rw [dirBlocks_snoc] at hc
        unfold widened at hc
        split at hc
        · unfold indirectBlock at hc hold
          rw [List.getElem?_append] at hc
          split at hc
          · exact absurd hc hold
          · rw [List.getElem?_singleton] at hc
            split at hc
            · simp only [Option.map_some, Option.some.injEq] at hc
              omega
            · simp at hc
        · exact absurd hc hold
    · obtain rfl := List.mem_singleton.1 hk
      unfold nextLo
      dsimp only
      omega

theorem kids_apart_indirect_widened {es : HostDir} {kid : Kid} (hk : kid ∈ es.kids lo) {c : Nat}
    (hc : indirectBlock (es.widened lo) = some c) : c < kid.lo ∨ kid.lo + kid.node.blocks ≤ c := by
  apply kids_apart_indirect (.snoc es [] (.file [])) kid
  · exact List.mem_append_left _ hk
  · rwa [dirBlocks_snoc]

/-! ### The entries -/

theorem length_kids (lo : Nat) : ∀ es : HostDir, (es.kids lo).length = es.len
  | .nil => rfl
  | .snoc before _ _ => by simp [kids, len, length_kids lo before]

theorem entryAt_append {bs cs : List Nat} {k : Nat} (hk : k / file2blk < bs.length) :
    entryAt (bs ++ cs) k = entryAt bs k := by
  unfold entryAt
  rw [List.getD_append _ _ _ _ hk]

theorem dirBlocks_widened {es : HostDir} {b : Nat} (hb : b ∈ es.dirBlocks lo) : b ∈ es.widened lo := by
  unfold widened
  split
  · exact List.mem_append_left _ hb
  · exact hb

theorem entryAt_widened {es : HostDir} {k : Nat} (hk : k / file2blk < (es.dirBlocks lo).length) :
    entryAt (es.widened lo) k = entryAt (es.dirBlocks lo) k := by
  unfold widened
  split
  · exact entryAt_append hk
  · rfl

theorem getElem?_kids : ∀ es : HostDir, ∀ k kid, (es.kids lo)[k]? = some kid → kid.ptr = entryAt (es.dirBlocks lo) k
  | .nil => fun k kid hk => by simp [kids] at hk
  | .snoc before name node => fun k kid hk => by
    have hlen := length_kids lo before
    have hblocks := length_dirBlocks lo before
    rw [dirBlocks_snoc]
    simp only [kids] at hk
    rw [List.getElem?_append] at hk
    split at hk
    · rename_i hlt
      rw [entryAt_widened]
      · exact getElem?_kids before k kid hk
      · unfold file2blk at *
        omega
    · rename_i hge
      rw [List.getElem?_singleton] at hk
      split at hk
      · obtain rfl := Option.some.inj hk
        have hk : k = before.len := by omega
        rw [hk]
        rfl
      · cases hk

theorem mem_kids {es : HostDir} {kid : Kid} (h : kid ∈ es.kids lo) : ∃ k < es.len, (es.kids lo)[k]? = some kid ∧
    kid.ptr = entryAt (es.dirBlocks lo) k := by
  obtain ⟨k, hk⟩ := List.mem_iff_getElem?.1 h
  have hlt := (List.getElem?_eq_some_iff.1 hk).1
  rw [length_kids] at hlt
  exact ⟨k, hlt, hk, getElem?_kids es k kid hk⟩

theorem pairwise_dirBlocks (lo : Nat) : ∀ es : HostDir, (es.dirBlocks lo).Pairwise (· < ·)
  | .nil => List.Pairwise.nil
  | .snoc before _ _ => by
    have ih := pairwise_dirBlocks lo before
    simp only [dirBlocks]
    split
    · rw [List.pairwise_append]
      refine ⟨ih, List.pairwise_singleton _ _, fun a ha b hb => ?_⟩
      rw [List.mem_singleton.1 hb]
      exact (dirBlocks_bound before a ha).2
    · exact ih

theorem pairwise_widened (lo : Nat) (es : HostDir) : (es.widened lo).Pairwise (· < ·) := by
  rw [← dirBlocks_snoc es [] (.file [])]
  exact pairwise_dirBlocks lo _

end HostDir

theorem entryAt_word {bs : List Nat} {k j : Nat} (hj : j < fileWords) :
    (entryAt bs k + j) / blockWords = bs.getD (k / file2blk) 0 := by
  unfold entryAt
  exact Fs.entry_word (Nat.mod_lt _ (by decide)) hj

/-- **No word is in two entries.** -/
theorem entryAt_inj {bs : List Nat} (hbs : bs.Pairwise (· < ·)) {k k' j j' : Nat} (hk : k / file2blk < bs.length)
    (hk' : k' / file2blk < bs.length) (hj : j < fileWords) (hj' : j' < fileWords)
    (h : entryAt bs k + j = entryAt bs k' + j') : k = k' := by
  have hb : (entryAt bs k + j) / blockWords = bs.getD (k / file2blk) 0 := entryAt_word hj
  rw [h, entryAt_word hj', List.getD_eq_getElem _ _ hk, List.getD_eq_getElem _ _ hk'] at hb
  have hnodup : bs.Nodup := hbs.imp Nat.ne_of_lt
  have hi : k' / file2blk = k / file2blk := (List.Nodup.getElem_inj_iff hnodup).1 hb
  unfold entryAt at h
  rw [hi] at h
  unfold fileWords at *
  unfold file2blk at *
  omega

/-! ## All the blocks -/

mutual

/-- **The blocks of a tree are those from `lo` on**, each once. -/
theorem HostNode.slots_blocks (f lo : Nat) :
    ∀ node : HostNode, (node.slots f lo).map Prod.snd = List.range' lo node.blocks
  | .file data => by
    simp only [HostNode.slots, HostNode.blocks]
    exact fileSlots_blocks f lo (chunks data)
  | .dir entries => by
    simp only [HostNode.slots, HostNode.blocks]
    exact HostDir.slots_blocks f lo entries

theorem HostDir.slots_blocks (f lo : Nat) : ∀ es : HostDir, (es.slots f lo).map Prod.snd = List.range' lo es.blocks
  | .nil => by simp [HostDir.slots, HostDir.blocks]
  | .snoc before name node => by
    have hbefore := HostDir.slots_blocks f lo before
    have hnode := HostNode.slots_blocks (before.nextEntry lo) (before.nextLo lo) node
    have hgrown : (if before.len % file2blk = 0 then linkSlots f (before.len / file2blk) (lo + before.blocks)
      else []).map Prod.snd =
        List.range' (lo + before.blocks) before.grown := by
      unfold HostDir.grown
      split
      · exact linkSlots_blocks _ _ _
      · rfl
    simp only [HostDir.slots, HostDir.blocks]
    rw [List.map_append, List.map_append, hbefore, hnode, hgrown, List.range'_append_1]
    unfold HostDir.nextLo
    rw [Nat.add_assoc, List.range'_append_1]

end

namespace HostDir

variable {f lo : Nat}

theorem kids_slots : ∀ es : HostDir, ∀ kid ∈ es.kids lo, ∀ x ∈ kid.node.slots kid.ptr kid.lo, x ∈ es.slots f lo
  | .nil => fun kid hk => by simp [kids] at hk
  | .snoc before _ _ => fun kid hk x hx => by
    simp only [kids] at hk
    simp only [slots]
    rcases List.mem_append.1 hk with hk | hk
    · exact List.mem_append_left _ (List.mem_append_left _ (kids_slots before kid hk x hx))
    · obtain rfl := List.mem_singleton.1 hk
      exact List.mem_append_right _ hx

theorem own_slots : ∀ es : HostDir, ∀ i b, (es.dirBlocks lo)[i]? = some b → ∀ x ∈ linkSlots f i b, x ∈ es.slots f lo
  | .nil => fun i b hb => by simp [dirBlocks] at hb
  | .snoc before _ _ => fun i b hb x hx => by
    have hlen := length_dirBlocks lo before
    simp only [slots]
    apply List.mem_append_left
    simp only [dirBlocks] at hb
    split at hb
    · rename_i h16
      rw [if_pos h16]
      rw [List.getElem?_append] at hb
      split at hb
      · exact List.mem_append_left _ (own_slots before i b hb x hx)
      · rw [List.getElem?_singleton] at hb
        split at hb
        · obtain rfl := Option.some.inj hb
          have hi : i = before.len / file2blk := by
            unfold file2blk at *
            omega
          exact List.mem_append_right _ (hi ▸ hx)
        · cases hb
    · exact List.mem_append_left _ (own_slots before i b hb x hx)

/-- What holds a block of the tree: the directory, or one of the entries. -/
theorem mem_slots : ∀ es : HostDir, ∀ x ∈ es.slots f lo, (∃ i b, (es.dirBlocks lo)[i]? = some b ∧ x ∈ linkSlots f i b) ∨
    ∃ kid ∈ es.kids lo, x ∈ kid.node.slots kid.ptr kid.lo
  | .nil => fun x hx => by simp [slots] at hx
  | .snoc before _ _ => fun x hx => by
    have hlen := length_dirBlocks lo before
    simp only [slots] at hx
    rw [dirBlocks_snoc]
    simp only [kids]
    rcases List.mem_append.1 hx with hx | hx
    · rcases List.mem_append.1 hx with hx | hx
      · rcases mem_slots before x hx with ⟨i, b, hb, hx⟩ | ⟨kid, hk, hx⟩
        · refine .inl ⟨i, b, ?_, hx⟩
          unfold widened
          split
          · exact List.getElem?_append_left (List.getElem?_eq_some_iff.1 hb).1 ▸ hb
          · exact hb
        · exact .inr ⟨kid, List.mem_append_left _ hk, hx⟩
      · split at hx
        · rename_i h16
          refine .inl ⟨before.len / file2blk, lo + before.blocks, ?_, hx⟩
          have hi : before.len / file2blk = (before.dirBlocks lo).length := by
            unfold file2blk at *
            omega
          unfold widened
          rw [if_pos h16, hi]
          simp
        · simp at hx
    · exact .inr ⟨_, List.mem_append_right _ (List.mem_singleton.2 rfl), hx⟩

end HostDir

end Mos
