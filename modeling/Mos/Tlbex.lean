import Mos.Pmap
/-!
# Tlbex — refilling the TLB

`kern/tlbex.c` and `kern/tlb_asm.S`.  A page that is not mapped is allocated at the first access to it, except in the
zones where `passive_alloc` panics.  The translation of an access is the page table's: the TLB holds copies of it.
-/
namespace Mos

/-- `passive_alloc`; `none` is a panic, also of `panic_on`. -/
def passiveAlloc (p : Pmap) (pgdir : Nat) (asid va : Word) : Option Pmap :=
  if va < utemp ∨ (ustacktop ≤ va ∧ va < ustacktop + ptmap) ∨ (uenvs ≤ va ∧ va < upages) ∨ (upages ≤ va ∧ va < uvpt) ∨
      ulim ≤ va then none
  else
    match pageAlloc p with
    | none => none
    | some (pp, p₁) =>
      (pageInsert p₁ pgdir asid pp (pteAddr va) (if uvpt ≤ va ∧ va < ulim then 0 else pteD)).bind (fun r =>
        if r.1 = 0 then some r.2 else none)

/-- The loop of `_do_tlb_refill`: the entry of `va`.  It goes round at most twice, for a page that `passive_alloc` has
mapped is found. -/
def lookupAlloc (p : Pmap) (pgdir : Nat) (asid va : Word) : Option (PtePtr × Pmap) :=
  (pageLookup p pgdir va).bind (fun l =>
    match l with
    | some (_, e) => some (e, p)
    | none => (passiveAlloc p pgdir asid va).bind (fun p₁ =>
        (pageLookup p₁ pgdir va).bind (fun l => l.map (fun (_, e) => (e, p₁)))))

/-- `tlbwr`: some entry gives way to the new one. -/
def tlbwr (p : Pmap) (victim : Nat) (t : TlbEntry) : Pmap := { p with tlb := t :: p.tlb.eraseIdx victim }

/-- `do_tlb_refill` and `_do_tlb_refill`: the pair of entries around the one of `va` goes into the TLB. -/
def doTlbRefill (p : Pmap) (pgdir : Nat) (asid va : Word) (victim : Nat) : Option Pmap :=
  (lookupAlloc (tlbInvalidate p asid va) pgdir asid va).map (fun (e, p₁) =>
    let even := e.2 / 2 * 2
    tlbwr p₁ victim
      { hi := (va &&& ~~~0x1FFF) ||| (asid &&& 0xFF)
        lo0 := p₁.read (e.1, even) >>> pteHardflagShift
        lo1 := p₁.read (e.1, even + 1) >>> pteHardflagShift })

/-! ## Accesses -/

/-- An access to `va`, which refills the TLB where the page is not mapped; an address of `kseg0` is not translated. -/
def touch (p : Pmap) (pgdir : Nat) (asid va : Word) : Option Pmap :=
  if ulim ≤ va then some p
  else (pageLookup p pgdir va).bind (fun l =>
    match l with
    | some _ => some p
    | none => doTlbRefill p pgdir asid va p.tlb.length)

/-- The word of `va` inside its page. -/
def pageOffset (va : Word) : Nat := (va &&& 0xFFF).toNat / 4

/-- A store to `va` that the TLB lets through: the page is mapped with `PTE_D`. -/
def store (p : Pmap) (pgdir : Nat) (va w : Word) : Option Pmap :=
  if ulim ≤ va then none
  else (pageLookup p pgdir va).bind (fun l =>
    match l with
    | some (pp, e) => if p.read e &&& pteD != 0 then some (p.write (pp, pageOffset va) w) else none
    | none => none)

/-- A load from a mapped `va`. -/
def load (p : Pmap) (pgdir : Nat) (va : Word) : Option Word :=
  if ulim ≤ va then none
  else (pageLookup p pgdir va).bind (fun l => l.map (fun (pp, _) => p.mem pp (pageOffset va)))

end Mos
