import Mos.Lib.Bytes
import Mos.Directory
import Mos.Boot
/-!
# SegImage — what `elf_load_seg` leaves in an address space

The pages of a space as their bytes: `load_icode_mapper` replaces the page it is called for, so a segment is the
result of its calls in order.  When the segment starts inside a page and its file content ends there, the first of the
zero pages is that page again.
-/
namespace Mos

/-- The bytes of the pages of a space, by page number. -/
abbrev PageImage := Nat → Option (Nat → BitVec 8)

/-- The bytes of the page that a call of the mapper makes. -/
def MapPage.bytes (m : MapPage) (o : Nat) : BitVec 8 :=
  match m.src with
  | some src => if m.offset ≤ o ∧ o < m.offset + m.len then src (o - m.offset) else 0
  | none => 0

/-- The page is replaced. -/
def MapPage.place (img : PageImage) (m : MapPage) : PageImage := Function.update img (vpn m.va) (some m.bytes)

/-- The bytes of the page at `va` in the space of a directory. -/
def pageBytes (p : Pmap) (d : Nat) (va : Word) : Option (Nat → BitVec 8) :=
  (p.frame (slotOf d va)).map fun f => byteAt (p.mem f)

/-- **The segment is loaded**: every address of it is mapped and holds the byte of the file, or zero past the file. -/
def SegLoaded (p : Pmap) (d : Nat) (ph : Elf32Phdr) (bin : Nat → BitVec 8) : Prop :=
  ∀ i < ph.pMemsz.toNat,
    (pageBytes p d (ph.pVaddr + BitVec.ofNat 32 i)).map (fun f => f ((ph.pVaddr.toNat + i) % pageSize)) =
    some (if i < ph.pFilesz.toNat then bin i else 0)

/-- **When `elf_load_seg` gets it right**: the segment starts at a page, or the file content fills the first page, or
there is nothing but file content; or the file content is zero, and counting whole pages from its end reaches the end of
the segment. -/
def SegFits (ph : Elf32Phdr) (bin : Nat → BitVec 8) : Prop :=
  let offset := ph.pVaddr.toNat % pageSize
  let binSize := ph.pFilesz.toNat
  let sgsize := ph.pMemsz.toNat
  offset = 0 ∨ pageSize ≤ offset + binSize ∨ binSize = sgsize ∨
    (∀ i < binSize, bin i = 0) ∧ (offset + sgsize - 1) / pageSize ≤ (sgsize - binSize - 1) / pageSize

/-! ## Pages in order -/

namespace PageImage

variable {img : PageImage} {v : Nat}

theorem foldl_place_none : ∀ {ms : List MapPage} {img : PageImage}, (∀ m ∈ ms, vpn m.va ≠ v) →
    ms.foldl MapPage.place img v = img v
  | [], _, _ => rfl
  | m :: ms, img, h => by
    rw [List.foldl_cons, foldl_place_none (fun x hx => h x (List.mem_cons_of_mem _ hx))]
    exact Function.update_of_ne (Ne.symm (h m List.mem_cons_self)) _ _

/-- **A page that all its calls agree on.** -/
theorem foldl_place_mem {b : Nat → BitVec 8} : ∀ {ms : List MapPage} {img : PageImage}, (∃ m ∈ ms, vpn m.va = v) →
    (∀ m ∈ ms, vpn m.va = v → m.bytes = b) → ms.foldl MapPage.place img v = some b
  | [], _, h, _ => by
    obtain ⟨m, hm, -⟩ := h
    cases hm
  | m :: ms, img, h, hb => by
    rw [List.foldl_cons]
    by_cases hlater : ∃ m ∈ ms, vpn m.va = v
    · exact foldl_place_mem hlater (fun x hx => hb x (List.mem_cons_of_mem _ hx))
    · have hnone : ∀ x ∈ ms, vpn x.va ≠ v := fun x hx hc => hlater ⟨x, hx, hc⟩
      have hv : vpn m.va = v := by
        obtain ⟨x, hx, hxv⟩ := h
        rcases List.mem_cons.1 hx with rfl | hx
        · exact hxv
        · exact absurd hxv (hnone x hx)
      rw [foldl_place_none hnone, MapPage.place, hv, Function.update_self, hb m List.mem_cons_self hv]

end PageImage

/-- **Calls that each place their page** place them all. -/
theorem mapPages_place {σ : Type} {R : σ → PageImage → Prop} {f : MapPage → σ → Option (Int × σ)} :
    ∀ {ms : List MapPage}
    {s s' : σ} {img : PageImage},
    (∀ m ∈ ms, ∀ s s' img, R s img → f m s = some (0, s') → R s' (m.place img)) → R s img →
    mapPages f ms s = some (0, s') → R s' (ms.foldl MapPage.place img)
  | [], s, s', img, _, h, hl => by
    cases hl
    exact h
  | m :: ms, s, s', img, hstep, h, hl => by
    unfold mapPages at hl
    obtain ⟨⟨r, s₁⟩, hone, hrest⟩ := Option.bind_eq_some_iff.1 hl
    dsimp only at hrest
    split at hrest
    · rename_i hne
      cases hrest
      exact absurd rfl hne
    · rename_i hr
      obtain rfl : r = 0 := not_not.1 hr
      have hfirst := hstep m List.mem_cons_self s s₁ img h hone
      rw [List.foldl_cons]
      exact mapPages_place (fun x hx => hstep x (List.mem_cons_of_mem _ hx)) hfirst hrest

/-! ## `load_icode_mapper` -/

/-- The image of a space. -/
structure Shows (p : Pmap) (d : Nat) (img : PageImage) : Prop where
  acct : ∃ g, Acct utopEntries p g ∧ d ∈ g.dirs
  page : ∀ va < utop, img (vpn va) = pageBytes p d va

theorem copyIn_bytes (p : Pmap) (f o : Nat) (src : Nat → BitVec 8) (n a : Nat) :
    byteAt ((p.copyIn f o src n).mem f) a = if o ≤ a ∧ a < o + n then src (a - o) else byteAt (p.mem f) a := by
  unfold Pmap.copyIn
  induction n with
  | zero =>
    rw [if_neg (by omega)]
    rfl
  | succ n ih =>
    rw [List.range_succ, List.foldl_append, List.foldl_cons, List.foldl_nil]
    generalize (List.range n).foldl (fun p i => p.writeByte f (o + i) (src i)) p = q at ih ⊢
    have hput : (q.writeByte f (o + n) (src n)).mem f = putByte (q.mem f) (o + n) (src n) := Function.update_self _ _ _
    rw [hput, byteAt_putByte, ih]
    by_cases ha : a = o + n
    · rw [if_pos ha, if_pos (by omega), ha]
      congr 1
      omega
    · rw [if_neg ha]
      refine ite_congr ?_ (fun _ => rfl) (fun _ => rfl)
      exact propext ⟨fun h => ⟨h.1, by omega⟩, fun h => ⟨h.1, by omega⟩⟩

namespace Shows

variable {p p' : Pmap} {d : Nat} {asid : Word} {img : PageImage} {m : MapPage}

/-- **`load_icode_mapper` replaces one page.** -/
theorem mapper (h : Shows p d img) (hva : m.va < utop) (hperm : ppn m.perm = 0)
    (hl : loadIcodeMapper d asid m p = some (0, p')) : Shows p' d (m.place img) := by
  obtain ⟨g, hg, hd⟩ := h.acct
  have hi := pdx_lt_utop.2 hva
  unfold loadIcodeMapper at hl
  cases hf : p.pageFreeList with
  | nil =>
    simp only [pageAlloc, hf] at hl
    cases hl
  | cons pp rest =>
    obtain ⟨p₁, ha, hn, hr, hfl, hmem, hacct, hsame⟩ := hg.alloc hf
    rw [ha] at hl
    dsimp only at hl
    have hfree : pp ∈ p.pageFreeList := by rw [hf]; exact List.mem_cons_self
    obtain ⟨hlt, hr0, -⟩ := hg.of_free hfree
    have hout : Outside utopEntries p g.dirs pp := (hg.unref hlt hr0).1
    -- the page is filled
    obtain ⟨p₂, ⟨hn₂, hr₂, hfl₂, hmem₂⟩, hbytes, hl⟩ : ∃ p₂ : Pmap, (p₂.npage = p₁.npage ∧ p₂.ppRef = p₁.ppRef ∧
        p₂.pageFreeList = p₁.pageFreeList ∧ ∀ x, x ≠ pp → p₂.mem x = p₁.mem x) ∧
        (∀ a, byteAt (p₂.mem pp) a = m.bytes a) ∧ pageInsert p₂ d asid pp m.va m.perm = some (0, p') := by
      have hzero : ∀ a, byteAt (p₁.mem pp) a = 0 := by
        intro a
        rw [hmem, Function.update_self]
        unfold byteAt getByte
        simp
      split at hl
      · rename_i src hsrc
        refine ⟨_, copyIn_frame pp m.offset src m.len p₁, fun a => ?_, hl⟩
        rw [copyIn_bytes, hzero, MapPage.bytes, hsrc]
      · rename_i hsrc
        refine ⟨p₁, ⟨rfl, rfl, rfl, fun _ _ => rfl⟩, fun a => ?_, hl⟩
        rw [hzero, MapPage.bytes, hsrc]
    have hlimbo := Finset.mem_insert_self pp g.limbo
    have hunused := hacct.unref (hacct.limbo pp hlimbo).1 (hacct.limbo pp hlimbo).2
    have hsame₂ : SameMaps utopEntries g.dirs p₁ p₂ := SameMaps.of_mem fun f hf => hmem₂ f fun hc => hf (hc ▸ hunused.1)
    have hacct₂ : Acct utopEntries p₂ { g with limbo := insert pp g.limbo } := hacct.congr hn₂ hr₂ hfl₂
      fun f hf => hmem₂ f fun hc => hf (hc ▸ hunused.1)
    have hroom : p₂.ppRef pp < 65535 := by
      rw [hr₂, hr, hr0]
      decide
    rcases hacct₂.insertPage hd hi asid (hacct₂.usable_of_limbo hlimbo) (.inr hroom) (by rw [hperm, Nat.or_zero]) with
      ⟨-, -, he⟩ | ⟨q, he, hins⟩
    · rw [he] at hl
      cases hl
    · obtain rfl : q = p' := by simpa using he.symm.trans hl
      refine ⟨⟨_, hins.acct, hd⟩, fun va hva' => ?_⟩
      have hslot : slotOf d va ∈ pageSlots utopEntries g.dirs := slotOf_mem hd (pdx_lt_utop.2 hva')
      have hppn : ppn (entryOf pp m.perm) = pp := by
        rw [ppn_entryOf (Nat.lt_of_lt_of_le hlt hg.npage_le), hperm, Nat.or_zero]
      have hframe : q.frame (slotOf d va) = if slotOf d va = slotOf d m.va then some pp else p.frame (slotOf d va) := by
        unfold Pmap.frame
        rw [hins.pte _ hslot]
        split
        · rw [Option.map_some, hppn]
        · rw [hsame₂.pte _ hslot, hsame.pte _ hslot]
      unfold pageBytes MapPage.place
      rw [hframe]
      by_cases hv : vpn va = vpn m.va
      · rw [if_pos (by rw [slotOf_vpn, slotOf_vpn, hv]), hv, Function.update_self, Option.map_some]
        have hpage : q.mem pp = p₂.mem pp :=
          hins.mem pp (hacct₂.usable_of_limbo hlimbo).outside (fun _ => (hacct₂.usable_of_limbo hlimbo).notFree)
        have hall : byteAt (q.mem pp) = m.bytes := funext fun a => by rw [hpage, hbytes]
        rw [hall]
      · have hne : slotOf d va ≠ slotOf d m.va := by
          intro hc
          rw [slotOf_vpn, slotOf_vpn] at hc
          obtain ⟨h₁, h₂⟩ := Prod.mk.inj (Prod.mk.inj hc).2
          exact hv (by rw [← Nat.div_add_mod (vpn va) pageWords, ← Nat.div_add_mod (vpn m.va) pageWords, h₁, h₂])
        rw [if_neg hne, Function.update_of_ne hv, h.page va hva']
        unfold pageBytes
        cases hfr : p.frame (slotOf d va) with
        | none => rfl
        | some f =>
          -- a page that is mapped is neither free nor a table
          have hu := hg.usable_of_frame hslot hfr
          have hfp : f ≠ pp := fun hc => hu.notFree (hc ▸ hfree)
          have hfr₂ : p₂.frame (slotOf d va) = some f := by
            rw [hsame₂.frame _ hslot, hsame.frame _ hslot, hfr]
          have hu₂ := hacct₂.usable_of_frame hslot hfr₂
          have hpage : q.mem f = p.mem f := by
            rw [hins.mem f hu₂.outside (fun _ => hu₂.notFree), hmem₂ f hfp, hmem, Function.update_of_ne hfp]
          rw [Option.map_some, Option.map_some, hpage]

end Shows

/-! ## The calls of a segment -/

namespace SegImage

variable {ph : Elf32Phdr} {bin : Nat → BitVec 8} {img : PageImage}

/-- The offset of the segment in its first page. -/
def offset (ph : Elf32Phdr) : Nat := ph.pVaddr.toNat % pageSize

/-- Where the content of the first page ends, for a segment that starts inside it. -/
def firstEnd (ph : Elf32Phdr) : Nat := if offset ph ≠ 0 then min ph.pFilesz.toNat (pageSize - offset ph) else 0

/-- How many pages have content after that, and how many are zero. -/
def contentPages (ph : Elf32Phdr) : Nat := (ph.pFilesz.toNat - firstEnd ph + pageSize - 1) / pageSize

def zeroStart (ph : Elf32Phdr) : Nat := firstEnd ph + contentPages ph * pageSize

def zeroPages (ph : Elf32Phdr) : Nat := (ph.pMemsz.toNat - zeroStart ph + pageSize - 1) / pageSize

def perm (ph : Elf32Phdr) : Word := if ph.pFlags &&& pfW ≠ 0 then pteV ||| pteD else pteV

def firstCall (ph : Elf32Phdr) (bin : Nat → BitVec 8) : MapPage :=
  ⟨ph.pVaddr, offset ph, perm ph, some bin, firstEnd ph⟩

def contentCall (ph : Elf32Phdr) (bin : Nat → BitVec 8) (k : Nat) : MapPage :=
  let i := firstEnd ph + k * pageSize
  ⟨ph.pVaddr + BitVec.ofNat 32 i, 0, perm ph, some (fun j => bin (i + j)), min (ph.pFilesz.toNat - i) pageSize⟩

def zeroCall (ph : Elf32Phdr) (k : Nat) : MapPage :=
  let i := zeroStart ph + k * pageSize
  ⟨ph.pVaddr + BitVec.ofNat 32 i, 0, perm ph, none, min (ph.pMemsz.toNat - i) pageSize⟩

theorem sub_pteAddr (va : Word) : (va - pteAddr va).toNat = va.toNat % pageSize := by
  have hlt := va.isLt
  rw [BitVec.toNat_sub_of_le (by rw [BitVec.le_def, pteAddr_toNat]; exact Nat.div_mul_le_self _ _),
    pteAddr_toNat]
  unfold pageSize
  omega

theorem segPages_eq (ph : Elf32Phdr) (bin : Nat → BitVec 8) : segPages ph bin =
    (if offset ph ≠ 0 then [firstCall ph bin] else []) ++ (List.range (contentPages ph)).map (contentCall ph bin) ++
      (List.range (zeroPages ph)).map (zeroCall ph) := by
  have hoff := sub_pteAddr ph.pVaddr
  simp only [segPages, hoff, pageOffsets, List.map_map, List.length_map, List.length_range]
  rfl

theorem vpn_add {va : Word} {i : Nat} (h : va.toNat + i < 2 ^ 32) :
    vpn (va + BitVec.ofNat 32 i) = (va.toNat + i) / pageSize := by
  unfold vpn pgshift pageSize
  rw [BitVec.toNat_ushiftRight, Nat.shiftRight_eq_div_pow, BitVec.toNat_add, BitVec.toNat_ofNat]
  omega

/-- The image of a segment that is loaded. -/
def Loaded (img : PageImage) (ph : Elf32Phdr) (bin : Nat → BitVec 8) : Prop :=
  ∀ i < ph.pMemsz.toNat, (img ((ph.pVaddr.toNat + i) / pageSize)).map (fun f => f ((ph.pVaddr.toNat + i) % pageSize)) =
    some (if i < ph.pFilesz.toNat then bin i else 0)

theorem loaded_of_page {i : Nat} {m : MapPage} {b : BitVec 8} {ms : List MapPage} (hm : m ∈ ms)
    (hv : vpn m.va = (ph.pVaddr.toNat + i) / pageSize)
    (hall : ∀ x ∈ ms, vpn x.va = (ph.pVaddr.toNat + i) / pageSize → x.bytes = m.bytes)
    (hb : m.bytes ((ph.pVaddr.toNat + i) % pageSize) = b) :
    (ms.foldl MapPage.place img ((ph.pVaddr.toNat + i) / pageSize)).map (fun f =>
      f ((ph.pVaddr.toNat + i) % pageSize)) =
      some b := by
  rw [PageImage.foldl_place_mem ⟨m, hm, hv⟩ hall, Option.map_some, hb]

theorem vpn_firstCall : vpn (firstCall ph bin).va = ph.pVaddr.toNat / pageSize := by
  unfold firstCall vpn pgshift pageSize
  rw [BitVec.toNat_ushiftRight, Nat.shiftRight_eq_div_pow]

theorem vpn_contentCall (hsize : ph.pFilesz.toNat ≤ ph.pMemsz.toNat) (hin : ph.pVaddr.toNat + ph.pMemsz.toNat < 2 ^ 32)
    {k : Nat} (hk : k < contentPages ph) :
    vpn (contentCall ph bin k).va = (ph.pVaddr.toNat + (firstEnd ph + k * pageSize)) / pageSize := by
  refine vpn_add ?_
  unfold contentPages at hk
  unfold pageSize at hk ⊢
  omega

theorem vpn_zeroCall (hin : ph.pVaddr.toNat + ph.pMemsz.toNat < 2 ^ 32) {k : Nat} (hk : k < zeroPages ph) :
    vpn (zeroCall ph k).va = (ph.pVaddr.toNat + (zeroStart ph + k * pageSize)) / pageSize := by
  refine vpn_add ?_
  unfold zeroPages at hk
  unfold pageSize at hk ⊢
  omega

theorem bytes_firstCall (o : Nat) :
    (firstCall ph bin).bytes o = if offset ph ≤ o ∧ o < offset ph + firstEnd ph then bin (o - offset ph) else 0 := by
  simp only [MapPage.bytes, firstCall]
  rfl

theorem bytes_contentCall (k o : Nat) : (contentCall ph bin k).bytes o =
    if o < min (ph.pFilesz.toNat - (firstEnd ph + k * pageSize)) pageSize then bin (firstEnd ph + k * pageSize + o)
    else 0 := by
  simp only [MapPage.bytes, contentCall, Nat.zero_le, true_and, Nat.zero_add, Nat.sub_zero]

theorem bytes_zeroCall (k o : Nat) : (zeroCall ph k).bytes o = 0 := by
  simp only [MapPage.bytes, zeroCall]

theorem mem_segPages (hsize : ph.pFilesz.toNat ≤ ph.pMemsz.toNat) (hin : ph.pVaddr.toNat + ph.pMemsz.toNat < 2 ^ 32)
    {m : MapPage} (h : m ∈ segPages ph bin) :
    (offset ph ≠ 0 ∧ m = firstCall ph bin ∧ vpn m.va = ph.pVaddr.toNat / pageSize) ∨
    (∃ k < contentPages ph, m = contentCall ph bin k ∧
      vpn m.va = (ph.pVaddr.toNat + (firstEnd ph + k * pageSize)) / pageSize) ∨
    ∃ k < zeroPages ph, m = zeroCall ph k ∧
    vpn m.va = (ph.pVaddr.toNat + (zeroStart ph + k * pageSize)) / pageSize := by
  rw [segPages_eq, List.mem_append, List.mem_append] at h
  rcases h with (h | h) | h
  · split at h
    · rename_i hoff
      rw [List.mem_singleton.1 h]
      exact .inl ⟨hoff, rfl, vpn_firstCall⟩
    · cases h
  · obtain ⟨k, hk, rfl⟩ := List.mem_map.1 h
    have hk := List.mem_range.1 hk
    exact .inr (.inl ⟨k, hk, rfl, vpn_contentCall hsize hin hk⟩)
  · obtain ⟨k, hk, rfl⟩ := List.mem_map.1 h
    have hk := List.mem_range.1 hk
    exact .inr (.inr ⟨k, hk, rfl, vpn_zeroCall hin hk⟩)

/-! ### From a page boundary on -/

section Aligned

variable {b : Nat}

theorem exists_boundary (h : offset ph = 0 ∨ pageSize ≤ offset ph + ph.pFilesz.toNat) :
    ∃ b, ph.pVaddr.toNat + firstEnd ph = b * pageSize ∧ (firstEnd ph ≠ 0 → ph.pVaddr.toNat / pageSize + 1 = b) := by
  have hoff : offset ph = ph.pVaddr.toNat % pageSize := rfl
  have hp : pageSize = 4096 := rfl
  by_cases h0 : offset ph = 0
  · have hfe : firstEnd ph = 0 := if_neg (not_not.2 h0)
    refine ⟨ph.pVaddr.toNat / pageSize, ?_, fun hc => absurd hfe hc⟩
    rw [hfe]
    rw [hp] at hoff ⊢
    omega
  · have hfe : firstEnd ph = pageSize - offset ph := (if_pos h0).trans (Nat.min_eq_right (by omega))
    refine ⟨ph.pVaddr.toNat / pageSize + 1, ?_, fun _ => rfl⟩
    rw [hfe]
    rw [hp] at hoff ⊢
    omega

theorem vpn_boundary (hb : ph.pVaddr.toNat + firstEnd ph = b * pageSize) (k : Nat) :
    (ph.pVaddr.toNat + (firstEnd ph + k * pageSize)) / pageSize = b + k := by
  have hp : pageSize = 4096 := rfl
  rw [← Nat.add_assoc, hb, hp]
  omega

theorem vpn_boundary_zero (hb : ph.pVaddr.toNat + firstEnd ph = b * pageSize) (k : Nat) :
    (ph.pVaddr.toNat + (zeroStart ph + k * pageSize)) / pageSize = b + contentPages ph + k := by
  have hp : pageSize = 4096 := rfl
  rw [zeroStart, ← Nat.add_assoc, ← Nat.add_assoc, hb, hp]
  omega

theorem page_boundary (hb : ph.pVaddr.toNat + firstEnd ph = b * pageSize) {i : Nat} (hi : firstEnd ph ≤ i) :
    (ph.pVaddr.toNat + i) / pageSize = b + (i - firstEnd ph) / pageSize ∧
    (ph.pVaddr.toNat + i) % pageSize = (i - firstEnd ph) % pageSize := by
  have hp : pageSize = 4096 := rfl
  rw [hp] at hb ⊢
  omega

variable (hsize : ph.pFilesz.toNat ≤ ph.pMemsz.toNat) (hin : ph.pVaddr.toNat + ph.pMemsz.toNat < 2 ^ 32)
  (hb : ph.pVaddr.toNat + firstEnd ph = b * pageSize) (hfirst : firstEnd ph ≠ 0 → ph.pVaddr.toNat / pageSize + 1 = b)
include hsize hin hb hfirst

/-- **Every page has one call.** -/
theorem mem_aligned (hne : offset ph ≠ 0 → firstEnd ph ≠ 0) {m : MapPage} (h : m ∈ segPages ph bin) :
    (m = firstCall ph bin ∧ vpn m.va + 1 = b) ∨ (∃ k < contentPages ph, m = contentCall ph bin k ∧ vpn m.va = b + k) ∨
    ∃ k, m = zeroCall ph k ∧ vpn m.va = b + contentPages ph + k := by
  rcases mem_segPages hsize hin h with ⟨hoff, rfl, hv⟩ | ⟨k, hk, rfl, hv⟩ | ⟨k, -, rfl, hv⟩
  · exact .inl ⟨rfl, by rw [hv, hfirst (hne hoff)]⟩
  · exact .inr (.inl ⟨k, hk, rfl, hv.trans (vpn_boundary hb k)⟩)
  · exact .inr (.inr ⟨k, rfl, hv.trans (vpn_boundary_zero hb k)⟩)

/-- **Every address gets its byte.** -/
theorem loaded_boundary (hle : firstEnd ph ≤ ph.pFilesz.toNat)
    (hne : offset ph ≠ 0 → firstEnd ph = pageSize - offset ph) :
    Loaded ((segPages ph bin).foldl MapPage.place img) ph bin := by
  have hpos : offset ph ≠ 0 → firstEnd ph ≠ 0 := by
    intro hoff
    rw [hne hoff]
    have : offset ph < pageSize := Nat.mod_lt _ (by decide)
    omega
  have hmem := fun m => @mem_aligned ph bin b hsize hin hb hfirst hpos m
  intro i hi
  by_cases h₁ : i < firstEnd ph
  · -- the first page
    have hoff : offset ph ≠ 0 := by
      intro hc
      have : firstEnd ph = 0 := if_neg (not_not.2 hc)
      omega
    have hfe := hne hoff
    have hmod : offset ph = ph.pVaddr.toNat % pageSize := rfl
    have hpage : (ph.pVaddr.toNat + i) / pageSize = ph.pVaddr.toNat / pageSize ∧
        (ph.pVaddr.toNat + i) % pageSize = offset ph + i := by
      have hp : pageSize = 4096 := rfl
      rw [hp] at hmod hfe ⊢
      omega
    have hbase := hfirst (hpos hoff)
    refine loaded_of_page (m := firstCall ph bin) ?_ (vpn_firstCall.trans hpage.1.symm) (fun x hx hv => ?_) ?_
    · rw [segPages_eq, if_pos hoff]
      simp
    · rw [hpage.1] at hv
      rcases hmem x hx with ⟨rfl, -⟩ | ⟨k, -, -, hk⟩ | ⟨k, -, hk⟩
      · rfl
      · omega
      · omega
    · rw [bytes_firstCall, hpage.2, if_pos (by omega), if_pos (by omega)]
      congr 1
      omega
  · obtain ⟨hpage, hplace⟩ := page_boundary hb (Nat.not_lt.1 h₁)
    obtain ⟨q, hq⟩ : ∃ q, q = (i - firstEnd ph) / pageSize := ⟨_, rfl⟩
    have hi' : i = firstEnd ph + q * pageSize + (i - firstEnd ph) % pageSize := by
      have := Nat.div_add_mod' (i - firstEnd ph) pageSize
      rw [← hq] at this
      omega
    have hlast : (i - firstEnd ph) % pageSize < pageSize := Nat.mod_lt _ (by decide)
    rw [← hq] at hpage
    by_cases h₂ : q < contentPages ph
    · -- a page with content
      have hv := (@vpn_contentCall ph bin hsize hin _ h₂).trans ((vpn_boundary hb q).trans hpage.symm)
      refine loaded_of_page (m := contentCall ph bin q) ?_ hv (fun x hx hx' => ?_) ?_
      · rw [segPages_eq]
        exact List.mem_append_left _ (List.mem_append_right _ (List.mem_map_of_mem (List.mem_range.2 h₂)))
      · rw [hpage] at hx'
        rcases hmem x hx with ⟨-, hk⟩ | ⟨k, -, rfl, hk⟩ | ⟨k, -, hk⟩
        · omega
        · obtain rfl : k = q := by omega
          rfl
        · omega
      · rw [bytes_contentCall, hplace]
        refine ite_congr (propext ?_) (fun _ => ?_) (fun _ => rfl)
        · omega
        · rw [← hi']
    · -- a zero page
      obtain ⟨k, rfl⟩ := Nat.exists_eq_add_of_le (Nat.not_lt.1 h₂)
      have hstart : zeroStart ph + k * pageSize ≤ i := by
        rw [zeroStart, Nat.add_assoc, ← Nat.add_mul]
        omega
      have hk : k < zeroPages ph := by
        have hp : pageSize = 4096 := rfl
        unfold zeroPages
        rw [hp] at hstart ⊢
        omega
      have hv := (vpn_zeroCall hin hk).trans ((vpn_boundary_zero hb k).trans ((Nat.add_assoc _ _ _).trans hpage.symm))
      have hfile : ph.pFilesz.toNat ≤ zeroStart ph := by
        have hp : pageSize = 4096 := rfl
        unfold zeroStart contentPages
        rw [hp]
        omega
      refine loaded_of_page (m := zeroCall ph k) ?_ hv (fun x hx hx' => ?_) ?_
      · rw [segPages_eq]
        exact List.mem_append_right _ (List.mem_map_of_mem (List.mem_range.2 hk))
      · rw [hpage] at hx'
        rcases hmem x hx with ⟨-, hk'⟩ | ⟨j, hj, -, hk'⟩ | ⟨j, rfl, -⟩
        · omega
        · omega
        · exact funext fun o => (bytes_zeroCall j o).trans (bytes_zeroCall k o).symm
      · rw [bytes_zeroCall, if_neg (by omega)]

end Aligned

/-- **A segment that starts at a page, or fills its first page with content, is loaded.** -/
theorem loaded_aligned (hsize : ph.pFilesz.toNat ≤ ph.pMemsz.toNat) (hin : ph.pVaddr.toNat + ph.pMemsz.toNat < 2 ^ 32)
    (h : offset ph = 0 ∨ pageSize ≤ offset ph + ph.pFilesz.toNat) :
    Loaded ((segPages ph bin).foldl MapPage.place img) ph bin := by
  obtain ⟨b, hb, hfirst⟩ := exists_boundary h
  refine loaded_boundary hsize hin hb hfirst ?_ fun hoff => ?_
  · unfold firstEnd
    split
    · exact Nat.min_le_left _ _
    · exact Nat.zero_le _
  · exact (if_pos hoff).trans (Nat.min_eq_right (by omega))

/-! ### File content that ends in the first page -/

section Short

variable (hoff : offset ph ≠ 0) (hshort : offset ph + ph.pFilesz.toNat < pageSize)
include hoff hshort

/-- Nothing is left for the second step, and the third starts where the content ends. -/
theorem short_steps : firstEnd ph = ph.pFilesz.toNat ∧ contentPages ph = 0 ∧ zeroStart ph = ph.pFilesz.toNat := by
  have hfe : firstEnd ph = ph.pFilesz.toNat := (if_pos hoff).trans (Nat.min_eq_left (by omega))
  have hc : contentPages ph = 0 := by
    unfold contentPages
    rw [hfe, Nat.sub_self]
    decide
  exact ⟨hfe, hc, by rw [zeroStart, hfe, hc, Nat.zero_mul, Nat.add_zero]⟩

theorem segPages_short : segPages ph bin = firstCall ph bin :: (List.range (zeroPages ph)).map (zeroCall ph) := by
  rw [segPages_eq, if_pos hoff, (short_steps hoff hshort).2.1]
  rfl

theorem vpn_zero_short (hin : ph.pVaddr.toNat + ph.pMemsz.toNat < 2 ^ 32) {k : Nat} (hk : k < zeroPages ph) :
    vpn (zeroCall ph k).va = ph.pVaddr.toNat / pageSize + k := by
  have hmod : offset ph = ph.pVaddr.toNat % pageSize := rfl
  have hp : pageSize = 4096 := rfl
  rw [vpn_zeroCall hin hk, (short_steps hoff hshort).2.2]
  rw [hp] at hmod hshort ⊢
  omega

theorem zeroPages_pred (hbss : ph.pFilesz.toNat < ph.pMemsz.toNat) :
    zeroPages ph = (ph.pMemsz.toNat - ph.pFilesz.toNat - 1) / pageSize + 1 := by
  have hp : pageSize = 4096 := rfl
  unfold zeroPages
  rw [(short_steps hoff hshort).2.2, hp]
  omega

/-- **Zero pages and nothing else**: what was there stays where they do not reach. -/
theorem image_short (hin : ph.pVaddr.toNat + ph.pMemsz.toNat < 2 ^ 32) (hbss : ph.pFilesz.toNat < ph.pMemsz.toNat)
    (k : Nat) :
    (segPages ph bin).foldl MapPage.place img (ph.pVaddr.toNat / pageSize + k) =
      if k < zeroPages ph then some fun _ => 0 else img (ph.pVaddr.toNat / pageSize + k) := by
  have hzero : ∀ j < zeroPages ph, vpn (zeroCall ph j).va = ph.pVaddr.toNat / pageSize + j :=
    fun j hj => vpn_zero_short hoff hshort hin hj
  rw [segPages_short hoff hshort, List.foldl_cons]
  split
  · rename_i hk
    refine PageImage.foldl_place_mem ⟨zeroCall ph k, List.mem_map_of_mem (List.mem_range.2 hk),
      hzero k hk⟩ fun m hm _ => ?_
    obtain ⟨j, -, rfl⟩ := List.mem_map.1 hm
    exact funext (bytes_zeroCall j)
  · rename_i hk
    have hpos : 0 < zeroPages ph := by
      rw [zeroPages_pred hoff hshort hbss]
      exact Nat.succ_pos _
    rw [PageImage.foldl_place_none, MapPage.place, Function.update_of_ne]
    · rw [vpn_firstCall]
      omega
    · intro m hm
      obtain ⟨j, hj, rfl⟩ := List.mem_map.1 hm
      have hj := List.mem_range.1 hj
      rw [hzero j hj]
      omega

/-- **The content has to be zero**, and the pages have to reach the end. -/
theorem loaded_short (hsize : ph.pFilesz.toNat ≤ ph.pMemsz.toNat) (hin : ph.pVaddr.toNat + ph.pMemsz.toNat < 2 ^ 32)
    (hempty : ∀ i < ph.pMemsz.toNat, img ((ph.pVaddr.toNat + i) / pageSize) = none) :
    Loaded ((segPages ph bin).foldl MapPage.place img) ph bin ↔ ph.pFilesz.toNat = ph.pMemsz.toNat ∨
      (∀ i < ph.pFilesz.toNat, bin i = 0) ∧
      (offset ph + ph.pMemsz.toNat - 1) / pageSize ≤ (ph.pMemsz.toNat - ph.pFilesz.toNat - 1) / pageSize := by
  have hmod : offset ph = ph.pVaddr.toNat % pageSize := rfl
  have hpage : ∀ i, (ph.pVaddr.toNat + i) / pageSize = ph.pVaddr.toNat / pageSize + (offset ph + i) / pageSize := by
    intro i
    have hp : pageSize = 4096 := rfl
    rw [hp] at hmod ⊢
    omega
  rcases Nat.eq_or_lt_of_le hsize with heq | hbss
  · refine iff_of_true (fun i hi => ?_) (.inl heq)
    have hnone : zeroPages ph = 0 := by
      unfold zeroPages
      rw [(short_steps hoff hshort).2.2, heq, Nat.sub_self]
      decide
    have hplace : (ph.pVaddr.toNat + i) / pageSize = ph.pVaddr.toNat / pageSize ∧
        (ph.pVaddr.toNat + i) % pageSize = offset ph + i := by
      have hp : pageSize = 4096 := rfl
      rw [hp] at hmod hshort ⊢
      omega
    refine loaded_of_page (m := firstCall ph bin) ?_ (vpn_firstCall.trans hplace.1.symm) (fun x hx _ => ?_) ?_
    · rw [segPages_short hoff hshort]
      exact List.mem_cons_self
    · rw [segPages_short hoff hshort, hnone] at hx
      rw [List.mem_singleton.1 hx]
    · rw [bytes_firstCall, (short_steps hoff hshort).1, hplace.2, if_pos (by omega), if_pos (by omega)]
      congr 1
      omega
  · have hcount := zeroPages_pred hoff hshort hbss
    have himage := @image_short ph bin img hoff hshort hin hbss
    constructor
    · intro hl
      refine .inr ⟨fun i hi => ?_, ?_⟩
      · have h := hl i (by omega)
        have hfirst : (offset ph + i) / pageSize = 0 := Nat.div_eq_of_lt (by omega)
        rw [hpage, hfirst, himage, if_pos (by rw [hcount]; exact Nat.succ_pos _), if_pos hi] at h
        exact (Option.some.inj h).symm
      · -- the last byte
        have h := hl (ph.pMemsz.toNat - 1) (by omega)
        rw [hpage, himage] at h
        have hnone := hempty (ph.pMemsz.toNat - 1) (by omega)
        rw [hpage] at hnone
        split at h
        · rename_i hk
          have : offset ph + ph.pMemsz.toNat - 1 = offset ph + (ph.pMemsz.toNat - 1) := by omega
          rw [this]
          omega
        · rw [hnone] at h
          cases h
    · rintro (h | ⟨hbytes, hreach⟩) i hi
      · omega
      · have hle : (offset ph + i) / pageSize ≤ (offset ph + ph.pMemsz.toNat - 1) / pageSize :=
          Nat.div_le_div_right (by omega)
        rw [hpage, himage, if_pos (by omega), Option.map_some]
        split
        · rename_i hfile
          rw [hbytes i hfile]
        · rfl

end Short

/-- **What `elf_load_seg` leaves** is the segment exactly in these cases. -/
theorem loaded_iff (hsize : ph.pFilesz.toNat ≤ ph.pMemsz.toNat) (hin : ph.pVaddr.toNat + ph.pMemsz.toNat < 2 ^ 32)
    (hempty : ∀ i < ph.pMemsz.toNat, img ((ph.pVaddr.toNat + i) / pageSize) = none) :
    Loaded ((segPages ph bin).foldl MapPage.place img) ph bin ↔ SegFits ph bin := by
  by_cases hal : offset ph = 0 ∨ pageSize ≤ offset ph + ph.pFilesz.toNat
  · refine iff_of_true (loaded_aligned hsize hin hal) ?_
    rcases hal with h | h
    · exact .inl h
    · exact .inr (.inl h)
  · obtain ⟨hoff, hshort⟩ := not_or.1 hal
    rw [loaded_short hoff (Nat.not_le.1 hshort) hsize hin hempty]
    exact ⟨fun h => .inr (.inr h), fun h => (h.resolve_left hoff).resolve_left hshort⟩

theorem segPages_low (hsize : ph.pFilesz.toNat ≤ ph.pMemsz.toNat) (hin : ph.pVaddr.toNat + ph.pMemsz.toNat ≤ utop.toNat)
    {m : MapPage} (h : m ∈ segPages ph bin) : m.va < utop := by
  have hu : utop.toNat = 521216 * 4096 := by decide
  have hp : pageSize = 4096 := rfl
  have hadd : ∀ i, i < ph.pMemsz.toNat → ph.pVaddr + BitVec.ofNat 32 i < utop := by
    intro i hi
    rw [BitVec.lt_def, BitVec.toNat_add, BitVec.toNat_ofNat]
    omega
  rw [segPages_eq, List.mem_append, List.mem_append] at h
  rcases h with (h | h) | h
  · split at h
    · rename_i hoff
      rw [List.mem_singleton.1 h]
      show ph.pVaddr < utop
      unfold offset at hoff
      rw [hp] at hoff
      rw [BitVec.lt_def]
      omega
    · cases h
  · obtain ⟨k, hk, rfl⟩ := List.mem_map.1 h
    have hk := List.mem_range.1 hk
    refine hadd _ ?_
    unfold contentPages at hk
    rw [hp] at hk ⊢
    omega
  · obtain ⟨k, hk, rfl⟩ := List.mem_map.1 h
    have hk := List.mem_range.1 hk
    refine hadd _ ?_
    unfold zeroPages at hk
    rw [hp] at hk ⊢
    omega

/-- **`elf_load_seg` with `load_icode_mapper`**, in a space with sound accounts. -/
theorem segLoaded_iff {p p' : Pmap} {g : Ledger} (hacct : Acct utopEntries p g) {d : Nat} (hd : d ∈ g.dirs)
    (asid : Word) (hsize : ph.pFilesz.toNat ≤ ph.pMemsz.toNat) (hin : ph.pVaddr.toNat + ph.pMemsz.toNat ≤ utop.toNat)
    (hempty : ∀ i < ph.pMemsz.toNat, p.frame (slotOf d (ph.pVaddr + BitVec.ofNat 32 i)) = none)
    (hl : elfLoadSeg ph bin (loadIcodeMapper d asid) p = some (0, p')) : SegLoaded p' d ph bin ↔ SegFits ph bin := by
  have hu : utop.toNat = 521216 * 4096 := by decide
  have hva : ∀ i < ph.pMemsz.toNat, ph.pVaddr + BitVec.ofNat 32 i < utop ∧
      vpn (ph.pVaddr + BitVec.ofNat 32 i) = (ph.pVaddr.toNat + i) / pageSize := by
    intro i hi
    refine ⟨?_, vpn_add (by omega)⟩
    rw [BitVec.lt_def, BitVec.toNat_add, BitVec.toNat_ofNat]
    omega
  -- the image of the space is the one the page numbers determine
  obtain ⟨img, himg⟩ : ∃ img : PageImage, ∀ va < utop, img (vpn va) = pageBytes p d va := by
    refine ⟨fun v => pageBytes p d (BitVec.ofNat 32 (v * pageSize)), fun va hlt => ?_⟩
    have hv : vpn (BitVec.ofNat 32 (vpn va * pageSize)) = vpn va := by
      have hlt := va.isLt
      unfold vpn pgshift pageSize
      simp only [BitVec.toNat_ushiftRight, Nat.shiftRight_eq_div_pow, BitVec.toNat_ofNat]
      omega
    dsimp only
    unfold pageBytes
    rw [slotOf_vpn, slotOf_vpn, hv]
  have hstart : Shows p d img := ⟨⟨g, hacct, hd⟩, himg⟩
  have hend := mapPages_place (R := fun p img => Shows p d img)
    (fun m hm q q' img hq hone => hq.mapper (segPages_low hsize hin hm) (segPages_perm hm) hone) hstart hl
  have hloaded : SegLoaded p' d ph bin ↔ Loaded ((segPages ph bin).foldl MapPage.place img) ph bin := by
    refine forall₂_congr fun i hi => ?_
    rw [← (hva i hi).2, hend.page _ (hva i hi).1]
  rw [hloaded]
  refine loaded_iff hsize (by omega) fun i hi => ?_
  rw [← (hva i hi).2, himg _ (hva i hi).1]
  unfold pageBytes
  rw [hempty i hi]
  rfl

end SegImage

/-- **The image of an ELF segment**: in any space of the accounts, a segment that loads is there byte for byte exactly
when it starts at a page, or its first page has content to the end, or it has no bytes past its file content; or that
content is zero, and as many pages as the rest takes reach the end. -/
theorem segment_image (s : Account) (h : Run Account.Started Account.step Account.legal s) (d : Nat)
    (hd : d ∈ s.ledger.dirs) (asid : Word) (ph : Elf32Phdr) (bin : Nat → BitVec 8)
    (hsize : ph.pFilesz.toNat ≤ ph.pMemsz.toNat) (hin : ph.pVaddr.toNat + ph.pMemsz.toNat ≤ utop.toNat)
    (hempty : ∀ i < ph.pMemsz.toNat, pageBytes s.pm d (ph.pVaddr + BitVec.ofNat 32 i) = none) (p' : Pmap)
    (hl : elfLoadSeg ph bin (loadIcodeMapper d asid) s.pm = some (0, p')) :
    SegLoaded p' d ph bin ↔ SegFits ph bin := by
  refine SegImage.segLoaded_iff (Account.acct_of_run h) hd asid hsize hin (fun i hi => ?_) hl
  exact Option.map_eq_none_iff.1 (hempty i hi)

namespace SegImage

/-- Four bytes of a program, all `7`. -/
def sevens (va memsz : Word) : Elf32Phdr :=
  { pType := ptLoad, pOffset := 0, pVaddr := va, pFilesz := 4, pMemsz := memsz, pFlags := pfW }

theorem loads_tiny (va memsz : Word)
    (h : ((some Account.tiny).bind (exec Account.step Account.legalB [.alloc, .newDir 15])).any (fun s =>
      decide (15 ∈ s.ledger.dirs ∧ ∀ i < memsz.toNat, s.pm.frame (slotOf 15 (va + BitVec.ofNat 32 i)) = none) &&
        (elfLoadSeg (sevens va memsz) (fun _ => 7) (loadIcodeMapper 15 1) s.pm).any
        (fun r => decide (r.1 = 0))) = true) :
    ∃ s p', Run Account.Started Account.step Account.legal s ∧ 15 ∈ s.ledger.dirs ∧
      (∀ i < memsz.toNat, pageBytes s.pm 15 (va + BitVec.ofNat 32 i) = none) ∧
      elfLoadSeg (sevens va memsz) (fun _ => 7) (loadIcodeMapper 15 1) s.pm = some (0, p') := by
  obtain ⟨s, hr, hs⟩ := @Run.exists_of_exec Account FrameOp Account.Started Account.step Account.legal Account.legalB
    Account.legal_of_legalB [.alloc, .newDir 15] (some Account.tiny) (fun s hs => by cases hs; exact ⟨_, _, rfl⟩) _ h
  rw [Bool.and_eq_true] at hs
  obtain ⟨hd, hempty⟩ := of_decide_eq_true hs.1
  obtain ⟨⟨r, p'⟩, hl, hr0⟩ := (Option.any_eq_true _ _).1 hs.2
  obtain rfl : r = 0 := of_decide_eq_true hr0
  exact ⟨s, p', hr, hd, fun i hi => Option.map_eq_none_iff.2 (hempty i hi), hl⟩

theorem not_fits : ¬SegFits (sevens 0x400004 8) (fun _ => 7) := by
  have h₁ : ¬(sevens 0x400004 8).pVaddr.toNat % pageSize = 0 := by decide
  have h₂ : ¬pageSize ≤ (sevens 0x400004 8).pVaddr.toNat % pageSize + (sevens 0x400004 8).pFilesz.toNat := by decide
  have h₃ : ¬(sevens 0x400004 8).pFilesz.toNat = (sevens 0x400004 8).pMemsz.toNat := by decide
  have h₄ : 0 < (sevens 0x400004 8).pFilesz.toNat := by decide
  rintro (h | h | h | h)
  · exact h₁ h
  · exact h₂ h
  · exact h₃ h
  · have h7 : (7 : BitVec 8) = 0 := h.1 0 h₄
    cases h7

end SegImage

open SegImage in
/-- Four bytes at the end of a page, and four bytes of zeros on the next. -/
theorem segment_image_unaligned : ∃ p' : Pmap, SegLoaded p' 15 (sevens 0x400FFC 8) (fun _ => 7) ∧
    SegFits (sevens 0x400FFC 8) (fun _ => 7) := by
  obtain ⟨s, p', hr, hd, hempty, hl⟩ := loads_tiny 0x400FFC 8 (by decide +kernel)
  have hfits : SegFits (sevens 0x400FFC 8) (fun _ => 7) := .inr (.inl (by decide))
  exact ⟨p', (segment_image s hr 15 hd 1 (sevens 0x400FFC 8) (fun _ => 7) (by decide) (by decide) hempty p' hl).2 hfits,
    hfits⟩

open SegImage in
/-- **Four bytes inside a page, and four bytes of zeros behind them**: the zeros are a new page at the same address, and
the content is gone. -/
theorem segment_image_fails :
    ¬∀ (s : Account) (d : Nat) (asid : Word) (ph : Elf32Phdr) (bin : Nat → BitVec 8) (p' : Pmap),
    Run Account.Started Account.step Account.legal s → d ∈ s.ledger.dirs → ph.pFilesz.toNat ≤ ph.pMemsz.toNat →
    ph.pVaddr.toNat + ph.pMemsz.toNat ≤ utop.toNat →
    (∀ i < ph.pMemsz.toNat, pageBytes s.pm d (ph.pVaddr + BitVec.ofNat 32 i) = none) →
    elfLoadSeg ph bin (loadIcodeMapper d asid) s.pm = some (0, p') → SegLoaded p' d ph bin := by
  obtain ⟨s, p', hr, hd, hempty, hl⟩ := loads_tiny 0x400004 8 (by decide +kernel)
  intro hall
  have hloaded := hall s 15 1 (sevens 0x400004 8) (fun _ => 7) p' hr hd (by decide) (by decide) hempty hl
  have hiff : SegLoaded p' 15 (sevens 0x400004 8) (fun _ => 7) ↔ SegFits (sevens 0x400004 8) (fun _ => 7) :=
    segLoaded_iff (Account.acct_of_run hr) hd 1 (by decide) (by decide)
      (fun i hi => Option.map_eq_none_iff.1 (hempty i hi)) hl
  exact not_fits (hiff.1 hloaded)

end Mos
