import Mathlib.Data.List.Nodup
import Mathlib.Logic.Function.Basic
import Mos.Mmu
/-!
# Pmap — physical pages and two-level page tables

`kern/pmap.c` on the machine state it works on: the page structures, the free list, the physical memory as frames of
words, and the TLB.  A `struct Page *` and a page directory are frame numbers, a `Pte *` is a frame and an index in
it.  A function yields `none` where the kernel panics.
-/
namespace Mos

/-- `EntryHi` and the two `EntryLo` of a TLB entry. -/
structure TlbEntry where
  hi : Word
  lo0 : Word
  lo1 : Word
deriving DecidableEq

structure Pmap where
  npage : Nat
  ppRef : Nat → BitVec 16
  pageFreeList : List Nat
  mem : Nat → Nat → Word
  tlb : List TlbEntry

/-- `Pte *` -/
abbrev PtePtr := Nat × Nat

namespace Pmap

def read (p : Pmap) (e : PtePtr) : Word := p.mem e.1 e.2

def write (p : Pmap) (e : PtePtr) (w : Word) : Pmap :=
  { p with mem := Function.update p.mem e.1 (Function.update (p.mem e.1) e.2 w) }

def setRef (p : Pmap) (pp : Nat) (r : BitVec 16) : Pmap := { p with ppRef := Function.update p.ppRef pp r }

end Pmap

def page2pa (pp : Nat) : Word := BitVec.ofNat 32 pp <<< pgshift

def pa2page (p : Pmap) (pa : Word) : Option Nat := if ppn pa < p.npage then some (ppn pa) else none

/-- `KADDR` of a page-aligned address: its frame. -/
def kaddr (p : Pmap) (pa : Word) : Option Nat := if ppn pa < p.npage then some (ppn pa) else none

/-! ## The TLB -/

/-- `tlbp` finds the entry: its page pair is `hi`'s, and it is global or has `hi`'s address-space id. -/
def TlbEntry.probe (e : TlbEntry) (hi : Word) : Bool :=
  e.hi >>> 13 == hi >>> 13 && (e.hi &&& 0xFF == hi &&& 0xFF || e.lo0 &&& e.lo1 &&& 1 != 0)

def tlbOut (p : Pmap) (entryhi : Word) : Pmap := { p with tlb := p.tlb.filter (fun e => !e.probe entryhi) }

def tlbInvalidate (p : Pmap) (asid va : Word) : Pmap := tlbOut p ((va &&& ~~~0x1FFF) ||| (asid &&& 0xFF))

/-! ## Page structures -/

/-- `page_alloc`; `none` is `-E_NO_MEM`. -/
def pageAlloc (p : Pmap) : Option (Nat × Pmap) :=
  match p.pageFreeList with
  | [] => none
  | pp :: rest => some (pp, { p with pageFreeList := rest, mem := Function.update p.mem pp (fun _ => 0) })

def pageFree (p : Pmap) (pp : Nat) : Option Pmap :=
  if p.ppRef pp = 0 then some { p with pageFreeList := pp :: p.pageFreeList } else none

def pageDecref (p : Pmap) (pp : Nat) : Option Pmap :=
  if p.ppRef pp = 0 then none
  else
    let p₁ := p.setRef pp (p.ppRef pp - 1)
    if p₁.ppRef pp = 0 then pageFree p₁ pp else some p₁

/-! ## Page tables -/

/-- `pgdir_walk`: the return code, `*ppte`, and the state. -/
def pgdirWalk (p : Pmap) (pgdir : Nat) (va : Word) (create : Bool) : Option (Int × Option PtePtr × Pmap) :=
  if valid (p.mem pgdir (pdx va)) then
    (kaddr p (pteAddr (p.mem pgdir (pdx va)))).map (fun t => (0, some (t, ptx va), p))
  else if create then
    match pageAlloc p with
    | none => some (-eNoMem, none, p)
    | some (pp, p₁) =>
      let p₂ := (p₁.setRef pp 1).write (pgdir, pdx va) (page2pa pp ||| pteCCacheable ||| pteV)
      (kaddr p₂ (pteAddr (p₂.mem pgdir (pdx va)))).map (fun t => (0, some (t, ptx va), p₂))
  else some (0, none, p)

/-- `page_lookup`: the page mapped at `va` and its entry. -/
def pageLookup (p : Pmap) (pgdir : Nat) (va : Word) : Option (Option (Nat × PtePtr)) :=
  (pgdirWalk p pgdir va false).bind (fun w =>
    match w.2.1 with
    | none => some none
    | some e => if valid (p.read e) then (pa2page p (p.read e)).map (fun pp => some (pp, e)) else some none)

def pageRemove (p : Pmap) (pgdir : Nat) (asid va : Word) : Option Pmap :=
  (pageLookup p pgdir va).bind (fun l =>
    match l with
    | none => some p
    | some (pp, e) => (pageDecref p pp).map (fun p₁ => tlbInvalidate (p₁.write e 0) asid va))

/-- `page_insert` from step 2 on: no page is mapped at `va`. -/
def pageInsertFresh (p : Pmap) (pgdir : Nat) (asid : Word) (pp : Nat) (va perm : Word) : Option (Int × Pmap) :=
  (pgdirWalk (tlbInvalidate p asid va) pgdir va true).map (fun w =>
    match w with
    | (_, some e, p₁) =>
      (0, (p₁.setRef pp (p₁.ppRef pp + 1)).write e (page2pa pp ||| perm ||| pteCCacheable ||| pteV))
    | (_, none, p₁) => (-eNoMem, p₁))

def pageInsert (p : Pmap) (pgdir : Nat) (asid : Word) (pp : Nat) (va perm : Word) : Option (Int × Pmap) :=
  (pgdirWalk p pgdir va false).bind (fun w =>
    match w.2.1 with
    | none => pageInsertFresh p pgdir asid pp va perm
    | some e =>
      if valid (p.read e) then
        (pa2page p (p.read e)).bind (fun pp' =>
          if pp' = pp then
            some (0, (tlbInvalidate p asid va).write e (page2pa pp ||| perm ||| pteCCacheable ||| pteV))
          else (pageRemove p pgdir asid va).bind (fun p₁ => pageInsertFresh p₁ pgdir asid pp va perm))
      else pageInsertFresh p pgdir asid pp va perm)

/-! ## Start of the machine -/

/-- What the boot loader and the linker hand to the kernel: the memory size, what the memory holds, and the physical
address of `envs` inside the kernel image. -/
structure Board where
  ramLowSize : Word
  ram : Nat → Nat → Word
  envsPa : Word

/-- `PADDR(end)` of `kernel.lds`. -/
def kernEnd : Nat := 0x400000

/-- `sizeof(struct Page)` -/
def sizeofPage : Nat := 12

/-- `mips_detect_memory` -/
def Board.npage (b : Board) : Nat := b.ramLowSize.toNat / pageSize

/-- `alloc`, on physical addresses: the allocated address and the new `freemem`. -/
def alloc (memsize freemem n : Nat) : Option (Nat × Nat) :=
  if roundPage freemem + n ≥ memsize then none else some (roundPage freemem, roundPage freemem + n)

/-- `page_init`: the frames below `freemem` are in use, the others are put on the free list one by one. -/
def pageInit (b : Board) (freemem : Nat) : Pmap :=
  let usedPageNum := roundPage freemem / pageSize
  { npage := b.npage
    ppRef := fun i => if i < usedPageNum then 1 else 0
    pageFreeList := (List.range' usedPageNum (b.npage - usedPageNum)).reverse
    mem := b.ram
    tlb := [] }

/-- `mips_vm_init` and `page_init`: the address of `pages` and the page state. -/
def mipsVmInit (b : Board) : Option (Nat × Pmap) :=
  (alloc b.ramLowSize.toNat kernEnd (b.npage * sizeofPage)).map (fun r => (r.1, pageInit b r.2))

theorem npage_pageInit (b : Board) (freemem : Nat) : (pageInit b freemem).npage ≤ 2 ^ 20 := by
  show b.ramLowSize.toNat / pageSize ≤ 2 ^ 20
  have := b.ramLowSize.isLt
  unfold pageSize
  omega

theorem nodup_pageInit (b : Board) (freemem : Nat) : (pageInit b freemem).pageFreeList.Nodup :=
  List.nodup_reverse.2 List.nodup_range'

theorem mem_pageInit (b : Board) (freemem f : Nat) : f ∈ (pageInit b freemem).pageFreeList ↔
    f < (pageInit b freemem).npage ∧ (pageInit b freemem).ppRef f = 0 := by
  show f ∈ (List.range' _ _).reverse ↔ f < b.npage ∧ (if f < _ then (1 : BitVec 16) else 0) = 0
  rw [List.mem_reverse, List.mem_range'_1]
  split
  · simp
    omega
  · simp
    omega

theorem pageAlloc_eq {p p' : Pmap} {pp : Nat} (ha : pageAlloc p = some (pp, p')) : ∃ rest, p.pageFreeList = pp :: rest ∧
    p' = { p with pageFreeList := rest, mem := Function.update p.mem pp (fun _ => 0) } := by
  unfold pageAlloc at ha
  cases hf : p.pageFreeList with
  | nil => rw [hf] at ha; cases ha
  | cons t rest =>
    rw [hf] at ha
    cases ha
    exact ⟨rest, rfl, rfl⟩

/-! ## Facts about entries -/

theorem ppn_page2pa {pp : Nat} (h : pp < 2 ^ 20) : ppn (page2pa pp) = pp := by
  unfold ppn page2pa pgshift
  rw [BitVec.toNat_ushiftRight, BitVec.toNat_shiftLeft, BitVec.toNat_ofNat, Nat.shiftLeft_eq, Nat.shiftRight_eq_div_pow]
  omega

/-- The entry `page_insert` writes for a page. -/
def entryOf (pp : Nat) (perm : Word) : Word := page2pa pp ||| perm ||| pteCCacheable ||| pteV

theorem valid_entryOf (pp : Nat) (perm : Word) : valid (entryOf pp perm) = true := valid_or_pteV _

/-- **The frame of an entry is the page's number, with the high bits of `perm` on top.** -/
theorem ppn_entryOf {pp : Nat} (h : pp < 2 ^ 20) (perm : Word) : ppn (entryOf pp perm) = pp ||| ppn perm := by
  have hc : ppn pteCCacheable = 0 := by decide
  have hv : ppn pteV = 0 := by decide
  simp only [entryOf, ppn_or, ppn_page2pa h, hc, hv, Nat.or_zero]

end Mos
