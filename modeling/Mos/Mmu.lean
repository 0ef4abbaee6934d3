import Mathlib.Algebra.Ring.Nat
import Mathlib.Tactic.Common
/-!
# Mmu — words, error codes and the layout of an address space

`include/types.h`, `include/error.h` and `include/mmu.h`: the machine word, the error codes, the fields of a virtual
address and of a table entry, and the segments of the address space.  A frame is its page number, an entry of a table
its frame and its index there.
-/
namespace Mos

/-- `u_int`, `u_long`, `Pde`, `Pte` -/
abbrev Word := BitVec 32

/-! ## Error codes -/

def eUnspecified : Int := 1
def eBadEnv : Int := 2
def eInval : Int := 3
def eNoMem : Int := 4
def eNoSys : Int := 5
def eNoFreeEnv : Int := 6
def eIpcNotRecv : Int := 7
def eNoDisk : Int := 8
def eMaxOpen : Int := 9
def eNotFound : Int := 10
def eBadPath : Int := 11
def eFileExists : Int := 12
def eNotExec : Int := 13

/-! ## Addresses -/

def nasid : Nat := 256
def pageSize : Nat := 4096
def ptmap : Word := 4096
def pdmap : Word := 0x400000
def pgshift : Nat := 12
def pdshift : Nat := 22

/-- The words of a page. -/
def pageWords : Nat := 1024

/-- `PDX(va)` -/
def pdx (va : Word) : Nat := ((va >>> pdshift) &&& 0x3FF).toNat

/-- `PTX(va)` -/
def ptx (va : Word) : Nat := ((va >>> pgshift) &&& 0x3FF).toNat

/-- `PTE_ADDR(pte)` -/
def pteAddr (pte : Word) : Word := pte &&& 0xFFFFF000

/-- `PTE_FLAGS(pte)` -/
def pteFlags (pte : Word) : Word := pte &&& 0xFFF

/-- `PPN(pa)` -/
def ppn (pa : Word) : Nat := (pa >>> pgshift).toNat

/-- `VPN(va)` -/
def vpn (va : Word) : Nat := (va >>> pgshift).toNat

/-! ## Table entries -/

def pteHardflagShift : Nat := 6
def pteG : Word := 0x0001 <<< pteHardflagShift
def pteV : Word := 0x0002 <<< pteHardflagShift
def pteD : Word := 0x0004 <<< pteHardflagShift
def pteCCacheable : Word := 0x0018 <<< pteHardflagShift
def pteCow : Word := 0x0001
def pteLibrary : Word := 0x0002

/-- `entry & PTE_V` -/
def valid (entry : Word) : Bool := entry &&& pteV != 0

/-! ## The layout -/

def ulim : Word := 0x80000000
def uvpt : Word := ulim - pdmap
def upages : Word := uvpt - pdmap
def uenvs : Word := upages - pdmap
def utop : Word := uenvs
def uxstacktop : Word := utop
def ustacktop : Word := utop - 2 * ptmap
def utext : Word := pdmap
def ucow : Word := utext - ptmap
def utemp : Word := ucow - ptmap

/-- `ROUND(a, PAGE_SIZE)` on sizes that do not overflow. -/
def roundPage (a : Nat) : Nat := (a + pageSize - 1) / pageSize * pageSize

/-! ## Facts about the fields -/

theorem pdx_lt (va : Word) : pdx va < 1024 := by
  unfold pdx
  rw [BitVec.toNat_and]
  exact Nat.lt_of_le_of_lt Nat.and_le_right (by decide)

theorem ptx_lt (va : Word) : ptx va < 1024 := by
  unfold ptx
  rw [BitVec.toNat_and]
  exact Nat.lt_of_le_of_lt Nat.and_le_right (by decide)

theorem pdx_eq (va : Word) : pdx va = va.toNat / 2 ^ 22 := by
  unfold pdx pdshift
  have hmask : (0x3FF : Word).toNat = 2 ^ 10 - 1 := by decide
  rw [BitVec.toNat_and, hmask, Nat.and_two_pow_sub_one_eq_mod, BitVec.toNat_ushiftRight, Nat.shiftRight_eq_div_pow]
  have := va.isLt
  omega

theorem ptx_eq (va : Word) : ptx va = va.toNat / 2 ^ 12 % 2 ^ 10 := by
  unfold ptx pgshift
  have hmask : (0x3FF : Word).toNat = 2 ^ 10 - 1 := by decide
  rw [BitVec.toNat_and, hmask, Nat.and_two_pow_sub_one_eq_mod, BitVec.toNat_ushiftRight, Nat.shiftRight_eq_div_pow]

/-- The addresses below `UTOP` are those of the first entries of a directory. -/
theorem pdx_lt_utop {va : Word} : pdx va < pdx utop ↔ va < utop := by
  have hu : utop.toNat = 509 * 2 ^ 22 := by decide
  rw [pdx_eq, pdx_eq, hu, BitVec.lt_def, hu]
  omega

theorem valid_or_pteV (x : Word) : valid (x ||| pteV) = true := by
  have h : (x ||| pteV) &&& pteV = pteV := by
    ext i hi
    simp only [BitVec.getElem_and, BitVec.getElem_or]
    cases pteV[i] <;> simp
  unfold valid
  rw [h]
  decide

theorem valid_zero : valid 0 = false := by decide

theorem ppn_or (a b : Word) : ppn (a ||| b) = ppn a ||| ppn b := by
  unfold ppn
  rw [BitVec.ushiftRight_or_distrib, BitVec.toNat_or]

theorem ppn_lt (w : Word) : ppn w < 2 ^ 20 := by
  have hw := w.isLt
  unfold ppn pgshift
  rw [BitVec.toNat_ushiftRight, Nat.shiftRight_eq_div_pow]
  omega

theorem ppn_pteAddr (w : Word) : ppn (pteAddr w) = ppn w := by
  unfold ppn pteAddr pgshift
  rw [BitVec.ushiftRight_and_distrib, BitVec.toNat_and]
  have hmask : ((0xFFFFF000 : BitVec 32) >>> 12).toNat = 2 ^ 20 - 1 := by decide
  rw [hmask, Nat.and_two_pow_sub_one_eq_mod, BitVec.toNat_ushiftRight, Nat.shiftRight_eq_div_pow]
  have := w.isLt
  omega

end Mos
