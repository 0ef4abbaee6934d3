import Mos.Lib.Bytes
import Mos.Lib.Writes
import Mos.Copying
/-!
# InitStack — the first page of a child's stack

`init_stack` of `user/lib/spawn.c` lays out the arguments of a child in a page at `UTEMP`, with the pointers that will
be right when the page is at the top of the stack of the child.  The stores of its loops are a list; the sizes are
words, and so wrap.  The strings of the caller lie outside the page at `UTEMP`, and what the system calls return is
given.
-/
namespace Mos
namespace Forking

/-- The characters before the `NUL`. -/
abbrev CString := { s : List (BitVec 8) // 0 ∉ s }

def strlen (s : CString) : Word := BitVec.ofNat 32 s.val.length

/-- `ROUND(a, 4)` -/
def round4 (a : Word) : Word := (a + 3) &&& ~~~3

/-- `PAGE_SIZE` as a word. -/
def pageSizeW : Word := BitVec.ofNat 32 pageSize

/-- What the system calls of `init_stack` return; the last one is `syscall_mem_unmap` after `error`. -/
structure Calls where
  alloc : Int
  map : Int
  unmap : Int
  cleanup : Int

/-! ## Stores -/

inductive Store where
  | byte (va : Word) (b : BitVec 8)
  | word (va w : Word)

/-- The bytes that are written, by their addresses. -/
def Store.put : Store → Put (BitVec 8)
  | .byte va b => ⟨va.toNat, [b]⟩
  | .word va w => ⟨va.toNat, (List.range 4).map (getByte w)⟩

namespace Machine

/-- `sb` and `sw`; `none` where the page is not there to be written or the word is not aligned. -/
def storeUser (s : Machine) (p : Nat) : Store → Option Machine
  | .byte va b => (s.page p (vpn va)).bind fun m =>
    let o := va.toNat % pageSize
    s.write p (vpn va) (o / 4) (setByte (s.mem m.pp (o / 4)) (o % 4) b)
  | .word va w => if va.toNat % 4 = 0 then s.write p (vpn va) (va.toNat % pageSize / 4) w else none

def storeAll (s : Machine) (p : Nat) : List Store → Option Machine
  | [] => some s
  | x :: xs => (s.storeUser p x).bind fun s' => s'.storeAll p xs

def lbu (s : Machine) (p : Nat) (va : Word) : Option (BitVec 8) :=
  (s.page p (vpn va)).map fun m => byteAt (s.mem m.pp) (va.toNat % pageSize)

def lw (s : Machine) (p : Nat) (va : Word) : Option Word :=
  if va.toNat % 4 = 0 then (s.page p (vpn va)).map fun m => s.mem m.pp (va.toNat % pageSize / 4) else none

end Machine

/-! ## `init_stack` -/

/-- `tot` -/
def total (argv : List CString) : Word := argv.foldl (fun tot s => tot + (strlen s + 1)) 0

def argc (argv : List CString) : Word := BitVec.ofNat 32 argv.length

/-- `strings` -/
def stringsAt (argv : List CString) : Word := utemp + pageSizeW - total argv

/-- `args` -/
def argsAt (argv : List CString) : Word := utemp + pageSizeW - round4 (total argv) - 4 * (argc argv + 1)

/-- What is added to an address in the page at `UTEMP`, for the child. -/
def toChild (va : Word) : Word := ustacktop - utemp - pageSizeW + va

/-- The inner loop, and the `NUL`. -/
def copyString : Word → List (BitVec 8) → List Store
  | ctemp, [] => [.byte ctemp 0]
  | ctemp, b :: bs => .byte ctemp b :: copyString (ctemp + 1) bs

def copyStrings : Word → List CString → List Store
  | _, [] => []
  | ctemp, s :: ss => copyString ctemp s.val ++ copyStrings (ctemp + (strlen s + 1)) ss

/-- The loop over `args[i]`, and `args[argc]`: not a null pointer, but the address of the last `NUL`. -/
def setArgs : Word → Word → List CString → List Store
  | ctemp, a, [] => [.word a (ctemp - 1)]
  | ctemp, a, s :: ss => .word a ctemp :: setArgs (ctemp + (strlen s + 1)) (a + 4) ss

/-- The stores into the page, in order. -/
def initStores (argv : List CString) : List Store :=
  copyStrings (stringsAt argv) argv ++ (setArgs (toChild (stringsAt argv)) (argsAt argv) argv ++
    [.word (argsAt argv - 4) (toChild (argsAt argv)), .word (argsAt argv - 8) (argc argv)])

/-- `init_stack`: the result, `*init_sp` and what it leaves. -/
def initStack (calls : Calls) (s : Machine) (p child : Nat) (argv : List CString) (initSp : Word) :
    Option (Int × Word × Machine) :=
  if round4 (total argv) + 4 * (argc argv + 3) > pageSizeW then some (-eNoMem, initSp, s)
  else if calls.alloc < 0 then some (calls.alloc, initSp, s)
  else
    ((s.memAlloc p (vpn utemp) pteD).storeAll p (initStores argv)).bind fun s₁ =>
      let sp := toChild (argsAt argv - 8)
      let error (s : Machine) := if calls.cleanup < 0 then s else s.memUnmap p (vpn utemp)
      if calls.map < 0 then some (calls.map, sp, error s₁)
      else
        let s₂ := s₁.memMap p (vpn utemp) child (vpn (ustacktop - pageSizeW)) pteD
        if calls.unmap < 0 then some (calls.unmap, sp, error s₂)
        else some (0, sp, s₂.memUnmap p (vpn utemp))

/-! ## What it is for -/

/-- The bytes of the strings, each with its `NUL`. -/
def bytes (argv : List CString) : Nat := (argv.map fun s => s.val.length + 1).sum

/-- The strings padded to words, and `argc + 3` words. -/
def used (argv : List CString) : Nat := (bytes argv + 3) / 4 * 4 + 4 * (argv.length + 3)

/-- The system calls do what they are asked. -/
def Calls.Succeed (calls : Calls) : Prop := 0 ≤ calls.alloc ∧ 0 ≤ calls.map ∧ 0 ≤ calls.unmap

/-- The address `ptr` in the page at the top of the stack, and the string there. -/
structure StringAt (t : Machine) (q : Nat) (ptr : Word) (s : CString) : Prop where
  above : (ustacktop - pageSizeW).toNat ≤ ptr.toNat
  below : ptr.toNat + s.val.length < ustacktop.toNat
  chars : ∀ j ≤ s.val.length, t.lbu q (ptr + BitVec.ofNat 32 j) = some (s.val.getD j 0)

/-- What `_start` of the child reads at `sp` and `sp + 4`. -/
structure Arguments (t : Machine) (q : Nat) (sp : Word) (argv : List CString) : Prop where
  argc : t.lw q sp = some (argc argv)
  argv : ∃ av, t.lw q (sp + 4) = some av ∧
    ∀ i (hi : i < argv.length), ∃ ptr, t.lw q (av + 4 * BitVec.ofNat 32 i) = some ptr ∧ StringAt t q ptr argv[i]

/-- The stores stay inside the page at `UTEMP`, and none overlaps another. -/
structure Placed (ss : List Store) : Prop where
  inside : ∀ x ∈ ss, utemp.toNat ≤ x.put.addr ∧ x.put.stop ≤ utemp.toNat + pageSize
  apart : (ss.map Store.put).Pairwise Put.Apart

/-- **Arguments are passed, or they do not fit.** -/
def ArgsPassed (calls : Calls) (s : Machine) (p child : Nat) (argv : List CString) (initSp : Word) : Prop :=
  ((initStack calls s p child argv initSp).map Prod.fst = some (-eNoMem) ↔ pageSize < used argv) ∧
    (used argv ≤ pageSize → ∃ sp t, initStack calls s p child argv initSp = some (0, sp, t) ∧ Placed (initStores argv) ∧
      Arguments t child sp argv)

/-! ## Sizes -/

theorem strlen_add (s : CString) (w : Word) : w + (strlen s + 1) = w + BitVec.ofNat 32 (s.val.length + 1) := by
  unfold strlen
  rw [BitVec.ofNat_add]
  rfl

theorem bytes_cons (s : CString) (ss : List CString) : bytes (s :: ss) = s.val.length + 1 + bytes ss := by
  unfold bytes
  rw [List.map_cons, List.sum_cons]

theorem total_eq (argv : List CString) : total argv = BitVec.ofNat 32 (bytes argv) := by
  have hgo : ∀ (argv : List CString) (tot : Word),
      argv.foldl (fun tot s => tot + (strlen s + 1)) tot = tot + BitVec.ofNat 32 (bytes argv) := by
    intro argv
    induction argv with
    | nil => exact fun tot => (BitVec.add_zero tot).symm
    | cons s ss ih =>
      intro tot
      rw [List.foldl_cons, ih, strlen_add, bytes_cons, BitVec.add_assoc, ← BitVec.ofNat_add]
  exact (hgo argv 0).trans (BitVec.zero_add _)

theorem round4_toNat (a : Word) : (round4 a).toNat = (a.toNat + 3) % 2 ^ 32 / 4 * 4 := by
  have h3 : (3 : Word).toNat = 2 ^ 2 - 1 := rfl
  unfold round4
  rw [toNat_and_not_mask h3, BitVec.toNat_add]
  rfl

/-- **The test for the size, with the sizes as words.** -/
theorem fit_toNat (argv : List CString) :
    (round4 (total argv) + 4 * (argc argv + 3)).toNat = used argv % 2 ^ 32 := by
  unfold used argc
  rw [BitVec.toNat_add, round4_toNat, BitVec.toNat_mul, BitVec.toNat_add, total_eq, BitVec.toNat_ofNat,
    BitVec.toNat_ofNat]
  have h4 : (4 : Word).toNat = 4 := rfl
  have h3 : (3 : Word).toNat = 3 := rfl
  rw [h4, h3]
  omega

/-! ## The layout -/

section Layout

variable {argv : List CString}

theorem bytes_take {i : Nat} (hi : i < argv.length) : bytes (argv.take i) + (argv[i].val.length + 1) ≤ bytes argv := by
  induction argv generalizing i with
  | nil => exact absurd hi (Nat.not_lt_zero _)
  | cons s ss ih =>
    rw [bytes_cons]
    cases i with
    | zero =>
      show 0 + _ ≤ _
      rw [List.getElem_cons_zero]
      omega
    | succ i =>
      rw [List.take_succ_cons, bytes_cons, List.getElem_cons_succ]
      have := ih (Nat.lt_of_succ_lt_succ hi)
      omega

theorem add_toNat {va : Word} {n : Nat} (h : va.toNat + n < 2 ^ 32) :
    (va + BitVec.ofNat 32 n).toNat = va.toNat + n := by
  rw [BitVec.toNat_add, BitVec.toNat_ofNat]
  omega

theorem stringsAt_toNat (h : used argv ≤ pageSize) :
    (stringsAt argv).toNat = utemp.toNat + pageSize - bytes argv := by
  have hp : pageSize = 4096 := rfl
  have htemp : (utemp + pageSizeW).toNat = utemp.toNat + pageSize := rfl
  have hbase : utemp.toNat = 0x3fe000 := rfl
  unfold used at h
  unfold stringsAt
  rw [BitVec.toNat_sub, htemp, total_eq, BitVec.toNat_ofNat]
  omega

theorem argsAt_toNat (h : used argv ≤ pageSize) :
    (argsAt argv).toNat = utemp.toNat + pageSize - (bytes argv + 3) / 4 * 4 - 4 * (argv.length + 1) := by
  have hp : pageSize = 4096 := rfl
  have htemp : (utemp + pageSizeW).toNat = utemp.toNat + pageSize := rfl
  have hbase : utemp.toNat = 0x3fe000 := rfl
  have h4 : (4 : Word).toNat = 4 := rfl
  have h1 : (1 : Word).toNat = 1 := rfl
  unfold used at h
  unfold argsAt argc
  rw [BitVec.toNat_sub, BitVec.toNat_sub, htemp, round4_toNat, BitVec.toNat_mul, BitVec.toNat_add, total_eq,
    BitVec.toNat_ofNat, BitVec.toNat_ofNat, h4, h1]
  omega

theorem toChild_toNat {va : Word} (h : va.toNat ≤ utemp.toNat + pageSize) :
    (toChild va).toNat + utemp.toNat + pageSize = va.toNat + ustacktop.toNat := by
  have hp : pageSize = 4096 := rfl
  have hbase : utemp.toNat = 0x3fe000 := rfl
  have htop : ustacktop.toNat = 0x7f3fe000 := rfl
  have hdiff : (ustacktop - utemp - pageSizeW).toNat = 0x7efff000 := rfl
  unfold toChild
  rw [BitVec.toNat_add, hdiff]
  omega

theorem copyString_tiles : ∀ {s : List (BitVec 8)} {ctemp : Word}, ctemp.toNat + s.length < 2 ^ 32 →
    Put.Tiles ctemp.toNat ((copyString ctemp s).map Store.put) (ctemp.toNat + (s.length + 1))
  | [], _, _ => ⟨rfl, rfl⟩
  | _ :: bs, ctemp, h => by
    rw [List.length_cons] at h ⊢
    have hnext : (ctemp + 1).toNat = ctemp.toNat + 1 := add_toNat (n := 1) (by omega)
    have ht : Put.Tiles (ctemp + 1).toNat ((copyString (ctemp + 1) bs).map Store.put)
        ((ctemp + 1).toNat + (bs.length + 1)) :=
      copyString_tiles (by omega)
    rw [hnext, Nat.add_right_comm] at ht
    exact ⟨rfl, ht⟩

theorem copyStrings_tiles : ∀ {argv : List CString} {ctemp : Word}, ctemp.toNat + bytes argv < 2 ^ 32 →
    Put.Tiles ctemp.toNat ((copyStrings ctemp argv).map Store.put) (ctemp.toNat + bytes argv)
  | [], _, _ => rfl
  | s :: ss, ctemp, h => by
    rw [bytes_cons] at h ⊢
    have hnext : (ctemp + (strlen s + 1)).toNat = ctemp.toNat + (s.val.length + 1) := by
      rw [strlen_add]
      exact add_toNat (by omega)
    have ht : Put.Tiles (ctemp + (strlen s + 1)).toNat ((copyStrings (ctemp + (strlen s + 1)) ss).map Store.put)
        ((ctemp + (strlen s + 1)).toNat + bytes ss) := copyStrings_tiles (by omega)
    rw [hnext, Nat.add_assoc] at ht
    unfold copyStrings
    rw [List.map_append]
    exact (copyString_tiles (by omega)).append ht

theorem setArgs_tiles : ∀ {argv : List CString} {ctemp a : Word}, a.toNat + 4 * (argv.length + 1) < 2 ^ 32 →
    Put.Tiles a.toNat ((setArgs ctemp a argv).map Store.put) (a.toNat + 4 * (argv.length + 1))
  | [], _, _, _ => ⟨rfl, rfl⟩
  | s :: ss, ctemp, a, h => by
    rw [List.length_cons] at h ⊢
    have hnext : (a + 4).toNat = a.toNat + 4 := add_toNat (n := 4) (by omega)
    have ht : Put.Tiles (a + 4).toNat ((setArgs (ctemp + (strlen s + 1)) (a + 4) ss).map Store.put)
        ((a + 4).toNat + 4 * (ss.length + 1)) := setArgs_tiles (by omega)
    rw [hnext, show a.toNat + 4 + 4 * (ss.length + 1) = a.toNat + 4 * (ss.length + 1 + 1) by omega] at ht
    exact ⟨rfl, ht⟩

theorem byte_mem : ∀ {s : List (BitVec 8)} {ctemp : Word} {j : Nat}, j ≤ s.length →
    Store.byte (ctemp + BitVec.ofNat 32 j) (s.getD j 0) ∈ copyString ctemp s
  | [], ctemp, j, h => by
    obtain rfl : j = 0 := Nat.le_zero.1 h
    rw [show ctemp + BitVec.ofNat 32 0 = ctemp from BitVec.add_zero ctemp]
    exact List.mem_singleton_self _
  | b :: bs, ctemp, 0, _ => by
    rw [show ctemp + BitVec.ofNat 32 0 = ctemp from BitVec.add_zero ctemp]
    exact List.mem_cons_self
  | b :: bs, ctemp, j + 1, h => by
    have hj : Store.byte (ctemp + 1 + BitVec.ofNat 32 j) (bs.getD j 0) ∈ copyString (ctemp + 1) bs :=
      byte_mem (Nat.le_of_succ_le_succ h)
    rw [BitVec.add_assoc, show (1 : Word) + BitVec.ofNat 32 j = BitVec.ofNat 32 (j + 1) by
      rw [Nat.add_comm, BitVec.ofNat_add]
      rfl] at hj
    exact List.mem_cons_of_mem _ hj

theorem string_mem : ∀ {argv : List CString} {ctemp : Word} {i : Nat} (hi : i < argv.length) {j : Nat},
    j ≤ argv[i].val.length →
    Store.byte (ctemp + BitVec.ofNat 32 (bytes (argv.take i)) + BitVec.ofNat 32 j) (argv[i].val.getD j 0) ∈
      copyStrings ctemp argv
  | s :: ss, ctemp, 0, _, j, hj => by
    rw [show ctemp + BitVec.ofNat 32 (bytes ((s :: ss).take 0)) = ctemp from BitVec.add_zero ctemp]
    exact List.mem_append_left _ (byte_mem hj)
  | s :: ss, ctemp, i + 1, hi, j, hj => by
    have hi' : i < ss.length := Nat.lt_of_succ_lt_succ hi
    have h : Store.byte (ctemp + (strlen s + 1) + BitVec.ofNat 32 (bytes (ss.take i)) + BitVec.ofNat 32 j)
        (ss[i].val.getD j 0) ∈ copyStrings (ctemp + (strlen s + 1)) ss := string_mem hi' hj
    rw [strlen_add, BitVec.add_assoc ctemp, ← BitVec.ofNat_add, ← bytes_cons, ← strlen_add] at h
    exact List.mem_append_right _ h

theorem pointer_mem : ∀ {argv : List CString} {ctemp a : Word} {i : Nat}, i < argv.length →
    Store.word (a + 4 * BitVec.ofNat 32 i) (ctemp + BitVec.ofNat 32 (bytes (argv.take i))) ∈ setArgs ctemp a argv
  | s :: ss, ctemp, a, 0, _ => by
    rw [show ctemp + BitVec.ofNat 32 (bytes ((s :: ss).take 0)) = ctemp from BitVec.add_zero ctemp,
      show a + 4 * BitVec.ofNat 32 0 = a from BitVec.add_zero a]
    exact List.mem_cons_self
  | s :: ss, ctemp, a, i + 1, hi => by
    have h : Store.word (a + 4 + 4 * BitVec.ofNat 32 i) (ctemp + (strlen s + 1) + BitVec.ofNat 32 (bytes (ss.take i))) ∈
        setArgs (ctemp + (strlen s + 1)) (a + 4) ss := pointer_mem (Nat.lt_of_succ_lt_succ hi)
    rw [strlen_add, BitVec.add_assoc ctemp, ← BitVec.ofNat_add, ← bytes_cons, BitVec.add_assoc a,
      show (4 : Word) + 4 * BitVec.ofNat 32 i = 4 * BitVec.ofNat 32 (i + 1) by
        rw [BitVec.ofNat_add, BitVec.mul_add, BitVec.add_comm]
        rfl, ← strlen_add] at h
    exact List.mem_cons_of_mem _ h

end Layout

/-! ## The page at `UTEMP` -/

section Page

variable {s t : Machine} {p q : Nat} {m : Mapping} {va : Word}

theorem vpn_toNat (va : Word) : vpn va = va.toNat / pageSize := by
  unfold vpn pgshift
  rw [BitVec.toNat_ushiftRight, Nat.shiftRight_eq_div_pow]
  rfl

/-- An address in the page at `base`. -/
def InPageAt (base : Word) (va : Word) : Prop := base.toNat ≤ va.toNat ∧ va.toNat < base.toNat + pageSize

theorem InPageAt.eq {base : Word} (h : InPageAt base va) (hb : base.toNat % pageSize = 0) :
    vpn va = vpn base ∧ va.toNat % pageSize = va.toNat - base.toNat := by
  have hp : pageSize = 4096 := rfl
  obtain ⟨h₁, h₂⟩ := h
  rw [vpn_toNat, vpn_toNat]
  rw [hp] at hb h₂ ⊢
  omega

/-- The bytes a store writes, by their offset in the page at `UTEMP`. -/
def Store.inTemp (x : Store) : Put (BitVec 8) := ⟨x.put.addr - utemp.toNat, x.put.cells⟩

theorem Store.inTemp_byte (va : Word) (b : BitVec 8) : (Store.byte va b).inTemp = ⟨va.toNat - utemp.toNat, [b]⟩ := rfl

theorem Store.inTemp_word (va w : Word) :
    (Store.word va w).inTemp = ⟨va.toNat - utemp.toNat, (List.range 4).map (getByte w)⟩ := rfl

/-- The store is into the page at `UTEMP`, and aligned. -/
def Store.Fits (x : Store) : Prop :=
  utemp.toNat ≤ x.put.addr ∧ x.put.stop ≤ utemp.toNat + pageSize ∧ (x.put.cells.length = 4 → x.put.addr % 4 = 0)

theorem byteAt_word (M : Nat → Word) (o : Nat) (w : Word) (ho : o % 4 = 0) :
    byteAt (Function.update M (o / 4) w) = Put.apply (byteAt M) ⟨o, (List.range 4).map (getByte w)⟩ := by
  funext c
  unfold byteAt Put.apply
  rw [Function.update_apply]
  by_cases hc : o ≤ c ∧ c < o + 4
  · have hword : c / 4 = o / 4 := by omega
    have hlane : c % 4 = c - o := by omega
    have hlt : c - o < 4 := by omega
    rw [if_pos hword, if_pos hc.1, hlane, List.getElem?_map, List.getElem?_range hlt]
    rfl
  · have hword : c / 4 ≠ o / 4 := by omega
    rw [if_neg hword]
    by_cases hle : o ≤ c
    · have hout : ((List.range 4).map (getByte w)).length ≤ c - o := by
        rw [List.length_map, List.length_range]
        omega
      rw [if_pos hle, List.getElem?_eq_none hout]
      rfl
    · rw [if_neg hle]

theorem byteAt_byte (M : Nat → Word) (o : Nat) (b : BitVec 8) :
    byteAt (putByte M o b) = Put.apply (byteAt M) ⟨o, [b]⟩ := by
  funext c
  rw [byteAt_putByte]
  unfold Put.apply
  by_cases hc : c = o
  · subst hc
    rw [if_pos rfl, if_pos (Nat.le_refl _), Nat.sub_self]
    rfl
  · rw [if_neg hc]
    by_cases hle : o ≤ c
    · rw [if_pos hle, List.getElem?_eq_none (by show 1 ≤ c - o; omega)]
      rfl
    · rw [if_neg hle]

theorem storeUser_temp {x : Store} (hm : s.page p (vpn utemp) = some m) (hd : has m.perm pteD = true) (hx : x.Fits) :
    ∃ t, s.storeUser p x = some t ∧ t.procs = s.procs ∧ byteAt (t.mem m.pp) = x.inTemp.apply (byteAt (s.mem m.pp)) := by
  have hbase : utemp.toNat % pageSize = 0 := rfl
  have hwrite : ∀ o w, s.write p (vpn utemp) o w = some (s.store m.pp o w) := by
    intro o w
    unfold Machine.write
    rw [hm, Option.bind_some, if_pos hd]
  have hmem : ∀ o w, (s.store m.pp o w).mem m.pp = Function.update (s.mem m.pp) o w :=
    fun o w => Function.update_self _ _ _
  obtain ⟨hlo, hhi, hal⟩ := hx
  cases x with
  | byte va b =>
    have hin : InPageAt utemp va := ⟨hlo, hhi⟩
    obtain ⟨hv, ho⟩ := hin.eq hbase
    refine ⟨s.store m.pp (va.toNat % pageSize / 4)
      (setByte (s.mem m.pp (va.toNat % pageSize / 4)) (va.toNat % pageSize % 4) b), ?_, rfl, ?_⟩
    · simp only [Machine.storeUser]
      rw [hv, hm]
      exact hwrite _ _
    · rw [hmem]
      refine (byteAt_byte (s.mem m.pp) (va.toNat % pageSize) b).trans ?_
      rw [ho]
      rfl
  | word va w =>
    have halign : va.toNat % 4 = 0 := hal rfl
    have hstop : va.toNat + 4 ≤ utemp.toNat + pageSize := hhi
    have hin : InPageAt utemp va := ⟨hlo, by omega⟩
    obtain ⟨hv, ho⟩ := hin.eq hbase
    refine ⟨s.store m.pp (va.toNat % pageSize / 4) w, ?_, rfl, ?_⟩
    · simp only [Machine.storeUser]
      rw [if_pos halign, hv]
      exact hwrite _ _
    · have hoff : va.toNat % pageSize % 4 = 0 := by
        have hp : pageSize = 4096 := rfl
        rw [hp]
        omega
      rw [hmem, byteAt_word _ _ _ hoff, ho]
      rfl

/-- **The stores into the page, one after the other.** -/
theorem storeAll_temp : ∀ {xs : List Store} {s : Machine}, s.page p (vpn utemp) = some m → has m.perm pteD = true →
    (∀ x ∈ xs, x.Fits) → ∃ t, s.storeAll p xs = some t ∧ t.procs = s.procs ∧
      byteAt (t.mem m.pp) = (xs.map Store.inTemp).foldl Put.apply (byteAt (s.mem m.pp))
  | [], s, _, _, _ => ⟨s, rfl, rfl, rfl⟩
  | x :: xs, s, hm, hd, hx => by
    obtain ⟨s₁, h₁, hp₁, hb₁⟩ := storeUser_temp hm hd (hx x List.mem_cons_self)
    have hm₁ : s₁.page p (vpn utemp) = some m := by
      unfold Machine.page at hm ⊢
      rwa [hp₁]
    obtain ⟨t, ht, hp, hb⟩ := storeAll_temp hm₁ hd fun y hy => hx y (List.mem_cons_of_mem _ hy)
    refine ⟨t, ?_, hp.trans hp₁, ?_⟩
    · unfold Machine.storeAll
      rw [h₁]
      exact ht
    · rw [hb, hb₁, List.map_cons, List.foldl_cons]

theorem aligned_setArgs {x : Store} :
    ∀ {argv : List CString} {ctemp a : Word}, a.toNat % 4 = 0 → x ∈ setArgs ctemp a argv →
    x.put.addr % 4 = 0
  | [], _, a, ha, hx => by
    obtain rfl := List.mem_singleton.1 hx
    exact ha
  | s :: ss, ctemp, a, ha, hx => by
    rcases List.mem_cons.1 hx with rfl | hx
    · exact ha
    · refine aligned_setArgs ?_ hx
      rw [BitVec.toNat_add, show (4 : Word).toNat = 4 from rfl]
      omega

theorem bytes_copyString {x : Store} :
    ∀ {s : List (BitVec 8)} {ctemp : Word}, x ∈ copyString ctemp s → x.put.cells.length = 1
  | [], _, hx => by
    obtain rfl := List.mem_singleton.1 hx
    rfl
  | _ :: _, _, hx => by
    rcases List.mem_cons.1 hx with rfl | hx
    · rfl
    · exact bytes_copyString hx

theorem bytes_copyStrings {x : Store} : ∀ {argv : List CString} {ctemp : Word}, x ∈ copyStrings ctemp argv →
    x.put.cells.length = 1
  | [], _, hx => nomatch hx
  | _ :: _, _, hx => (List.mem_append.1 hx).elim bytes_copyString bytes_copyStrings

/-- **The stores of `init_stack` stay inside the page and do not overlap.** -/
theorem initStores_placed {argv : List CString} (h : used argv ≤ pageSize) :
    Placed (initStores argv) ∧ ∀ x ∈ initStores argv, x.Fits := by
  have hp : pageSize = 4096 := rfl
  have hbase : utemp.toNat = 0x3fe000 := rfl
  have hS := stringsAt_toNat h
  have hA := argsAt_toNat h
  unfold used at h
  rw [hp] at h hS hA
  have hstr : Put.Tiles (stringsAt argv).toNat ((copyStrings (stringsAt argv) argv).map Store.put)
      ((stringsAt argv).toNat + bytes argv) := copyStrings_tiles (by omega)
  have hargs : Put.Tiles (argsAt argv).toNat ((setArgs (toChild (stringsAt argv)) (argsAt argv) argv).map Store.put)
      ((argsAt argv).toNat + 4 * (argv.length + 1)) := setArgs_tiles (by omega)
  have h4 : (argsAt argv - 4).toNat = (argsAt argv).toNat - 4 := by
    rw [BitVec.toNat_sub, show (4 : Word).toNat = 4 from rfl]
    omega
  have h8 : (argsAt argv - 8).toNat = (argsAt argv).toNat - 8 := by
    rw [BitVec.toNat_sub, show (8 : Word).toNat = 8 from rfl]
    omega
  -- the two words below `args`
  let low : List Store := [.word (argsAt argv - 4) (toChild (argsAt argv)), .word (argsAt argv - 8) (argc argv)]
  have hlow : ∀ x ∈ low, (argsAt argv).toNat ≤ x.put.addr + 8 ∧ x.put.stop ≤ (argsAt argv).toNat ∧
      x.put.addr % 4 = 0 := by
    intro x hx
    rcases List.mem_cons.1 hx with rfl | hx
    · have hstop : (argsAt argv - 4).toNat + 4 ≤ (argsAt argv).toNat := by omega
      exact ⟨by show _ ≤ (argsAt argv - 4).toNat + 8; omega, hstop, by show (argsAt argv - 4).toNat % 4 = 0; omega⟩
    · obtain rfl := List.mem_singleton.1 hx
      have hstop : (argsAt argv - 8).toNat + 4 ≤ (argsAt argv).toNat := by omega
      exact ⟨by show _ ≤ (argsAt argv - 8).toNat + 8; omega, hstop, by show (argsAt argv - 8).toNat % 4 = 0; omega⟩
  have hlowp : (low.map Store.put).Pairwise Put.Apart := by
    refine List.pairwise_pair.2 (.inr ?_)
    show (argsAt argv - 8).toNat + 4 ≤ (argsAt argv - 4).toNat
    omega
  have hfits : ∀ x ∈ initStores argv, x.Fits := by
    intro x hx
    rcases List.mem_append.1 hx with hx | hx
    · obtain ⟨h₁, h₂⟩ := hstr.within (List.mem_map_of_mem hx)
      refine ⟨by omega, by rw [hp]; omega, fun hl => ?_⟩
      rw [bytes_copyStrings hx] at hl
      cases hl
    · rcases List.mem_append.1 hx with hx | hx
      · obtain ⟨h₁, h₂⟩ := hargs.within (List.mem_map_of_mem hx)
        exact ⟨by omega, by rw [hp]; omega, fun _ => aligned_setArgs (by omega) hx⟩
      · obtain ⟨h₁, h₂, h₃⟩ := hlow x hx
        exact ⟨by omega, by rw [hp]; omega, fun _ => h₃⟩
  refine ⟨⟨fun x hx => ⟨(hfits x hx).1, (hfits x hx).2.1⟩, ?_⟩, hfits⟩
  unfold initStores
  rw [List.map_append, List.map_append]
  refine Put.pairwise_append (stringsAt argv).toNat hstr.pairwise
    (Put.pairwise_append (argsAt argv).toNat hargs.pairwise hlowp ?_ ?_) ?_ ?_
  · exact fun w hw => (hargs.within hw).1
  · intro w hw
    obtain ⟨x, hx, rfl⟩ := List.mem_map.1 hw
    exact (hlow x hx).2.1
  · exact fun w hw => (hstr.within hw).1
  · intro w hw
    rcases List.mem_append.1 hw with hw | hw
    · have := (hargs.within hw).2
      omega
    · obtain ⟨x, hx, rfl⟩ := List.mem_map.1 hw
      have := (hlow x hx).2.1
      omega

end Page

/-! ## What the child reads -/

section Child

variable {s t : Machine} {p q : Nat} {argv : List CString}

/-- The page at the top of the stack of `q` is what the stores left. -/
def Shown (ss : List Store) (t : Machine) (q : Nat) : Prop :=
  ∃ m M, t.page q (vpn (ustacktop - pageSizeW)) = some m ∧
    byteAt (t.mem m.pp) = (ss.map Store.inTemp).foldl Put.apply (byteAt M)

theorem toChild_add (va w : Word) : toChild (va + w) = toChild va + w := (BitVec.add_assoc _ _ _).symm

theorem toChild_page {va : Word} (h : InPageAt utemp va) : InPageAt (ustacktop - pageSizeW) (toChild va) ∧
    vpn (toChild va) = vpn (ustacktop - pageSizeW) ∧ (toChild va).toNat % pageSize = va.toNat - utemp.toNat := by
  have hp : pageSize = 4096 := rfl
  have hbase : utemp.toNat = 0x3fe000 := rfl
  have htop : ustacktop.toNat = 0x7f3fe000 := rfl
  have hst : (ustacktop - pageSizeW).toNat = 0x7f3fd000 := rfl
  have hto := toChild_toNat (Nat.le_of_lt h.2)
  obtain ⟨h₁, h₂⟩ := h
  rw [hp] at h₂ hto
  have hin : InPageAt (ustacktop - pageSizeW) (toChild va) := by
    unfold InPageAt
    rw [hp]
    omega
  obtain ⟨hv, ho⟩ := hin.eq (by rfl)
  exact ⟨hin, hv, by rw [ho]; omega⟩

theorem inTemp_apart (h : Placed (initStores argv)) : ((initStores argv).map Store.inTemp).Pairwise Put.Apart := by
  have hp := h.apart
  rw [List.pairwise_map] at hp ⊢
  refine hp.imp_of_mem fun {x y} hx hy hxy => ?_
  have hxi := (h.inside x hx).1
  have hyi := (h.inside y hy).1
  unfold Put.Apart Put.stop at hxy ⊢
  unfold Store.inTemp
  show x.put.addr - utemp.toNat + x.put.cells.length ≤ y.put.addr - utemp.toNat ∨
    y.put.addr - utemp.toNat + y.put.cells.length ≤ x.put.addr - utemp.toNat
  omega

/-- **Every store is read back.** -/
theorem shown_cell (hu : used argv ≤ pageSize) (ht : Shown (initStores argv) t q) {x : Store}
    (hx : x ∈ initStores argv) :
    ∃ m, t.page q (vpn (ustacktop - pageSizeW)) = some m ∧
      ∀ j (hj : j < x.inTemp.cells.length), byteAt (t.mem m.pp) (x.inTemp.addr + j) = x.inTemp.cells[j] := by
  obtain ⟨m, M, hm, hb⟩ := ht
  refine ⟨m, hm, fun j hj => ?_⟩
  rw [hb]
  exact Put.foldl_read (inTemp_apart (initStores_placed hu).1) (List.mem_map_of_mem hx) hj

theorem lbu_shown (hu : used argv ≤ pageSize) (ht : Shown (initStores argv) t q) {va : Word} {b : BitVec 8}
    (hx : .byte va b ∈ initStores argv) : t.lbu q (toChild va) = some b := by
  obtain ⟨m, hm, hc⟩ := shown_cell hu ht hx
  obtain ⟨hlo, hhi⟩ := (initStores_placed hu).1.inside _ hx
  have hin : InPageAt utemp va := ⟨hlo, hhi⟩
  obtain ⟨-, hv, ho⟩ := toChild_page hin
  unfold Machine.lbu
  rw [hv, hm, Option.map_some, ho]
  simp only [Store.inTemp_byte] at hc
  have h := hc 0 Nat.zero_lt_one
  rw [Nat.add_zero] at h
  rw [h]
  rfl

theorem lw_shown (hu : used argv ≤ pageSize) (ht : Shown (initStores argv) t q) {va w : Word}
    (hx : .word va w ∈ initStores argv) : t.lw q (toChild va) = some w := by
  have hp : pageSize = 4096 := rfl
  have hbase : utemp.toNat = 0x3fe000 := rfl
  obtain ⟨hplaced, hfits⟩ := initStores_placed hu
  obtain ⟨m, hm, hc⟩ := shown_cell hu ht hx
  obtain ⟨hlo, hhi, hal⟩ := hfits _ hx
  have hlo' : utemp.toNat ≤ va.toNat := hlo
  have hhi' : va.toNat + 4 ≤ utemp.toNat + pageSize := hhi
  have hal' : va.toNat % 4 = 0 := hal rfl
  have hin : InPageAt utemp va := ⟨hlo', by omega⟩
  obtain ⟨-, hv, ho⟩ := toChild_page hin
  have halign : (toChild va).toNat % 4 = 0 := by
    rw [hp] at ho
    omega
  unfold Machine.lw
  rw [if_pos halign, hv, hm, Option.map_some, ho]
  refine congrArg some (eq_of_getByte fun j hj => ?_)
  simp only [Store.inTemp_word, List.length_map, List.length_range, List.getElem_map, List.getElem_range] at hc
  have h := hc j hj
  have hdiv : (va.toNat - utemp.toNat + j) / 4 = (va.toNat - utemp.toNat) / 4 := by omega
  have hmod : (va.toNat - utemp.toNat + j) % 4 = j := by omega
  unfold byteAt at h
  rwa [hdiv, hmod] at h

/-- **The child finds its arguments.** -/
theorem shown_arguments (hu : used argv ≤ pageSize) (ht : Shown (initStores argv) t q) :
    Arguments t q (toChild (argsAt argv - 8)) argv := by
  have hp : pageSize = 4096 := rfl
  have hbase : utemp.toNat = 0x3fe000 := rfl
  have htop : ustacktop.toNat = 0x7f3fe000 := rfl
  have hlowmem : ∀ x ∈ ([.word (argsAt argv - 4) (toChild (argsAt argv)), .word (argsAt argv - 8) (argc argv)] :
    List Store),
      x ∈ initStores argv := fun x hx => List.mem_append_right _ (List.mem_append_right _ hx)
  refine ⟨lw_shown hu ht (hlowmem _ (List.mem_cons_of_mem _ (List.mem_singleton_self _))),
    toChild (argsAt argv), ?_, ?_⟩
  · have hnext : toChild (argsAt argv - 8) + 4 = toChild (argsAt argv - 4) := by
      have hsub : argsAt argv - 8 + 4 = argsAt argv - 4 := by bv_omega
      rw [← toChild_add, hsub]
    rw [hnext]
    exact lw_shown hu ht (hlowmem _ List.mem_cons_self)
  · intro i hi
    have hptr : Store.word (argsAt argv + 4 * BitVec.ofNat 32 i)
        (toChild (stringsAt argv) + BitVec.ofNat 32 (bytes (argv.take i))) ∈
        setArgs (toChild (stringsAt argv)) (argsAt argv) argv := pointer_mem hi
    refine ⟨toChild (stringsAt argv) + BitVec.ofNat 32 (bytes (argv.take i)), ?_, ?_⟩
    · rw [← toChild_add]
      exact lw_shown hu ht (List.mem_append_right _ (List.mem_append_left _ hptr))
    · rw [← toChild_add]
      have hS := stringsAt_toNat hu
      have htake := bytes_take hi
      unfold used at hu
      rw [hp] at hu hS
      have hva : (stringsAt argv + BitVec.ofNat 32 (bytes (argv.take i))).toNat =
          (stringsAt argv).toNat + bytes (argv.take i) := add_toNat (by omega)
      have hto : (toChild (stringsAt argv + BitVec.ofNat 32 (bytes (argv.take i)))).toNat + utemp.toNat + pageSize =
          (stringsAt argv + BitVec.ofNat 32 (bytes (argv.take i))).toNat + ustacktop.toNat :=
        toChild_toNat (by rw [hp]; omega)
      have hst : (ustacktop - pageSizeW).toNat = 0x7f3fd000 := rfl
      rw [hp] at hto
      refine ⟨by omega, by omega, fun j hj => ?_⟩
      rw [← toChild_add]
      refine lbu_shown ?_ ht (List.mem_append_left _ (string_mem hi hj))
      unfold used
      omega

end Child

/-! ## The call -/

section Call

variable {calls : Calls} {s : Machine} {p child : Nat} {argv : List CString} {initSp : Word}

theorem Calls.Succeed.neg (h : calls.Succeed) : ¬calls.alloc < 0 ∧ ¬calls.map < 0 ∧ ¬calls.unmap < 0 := by
  unfold Calls.Succeed at h
  omega

/-- **`init_stack` of arguments that fit.** -/
theorem initStack_fits (initSp : Word) (hc : calls.Succeed) (hp : (s.procs p).isSome) (hq : (s.procs child).isSome)
    (hu : used argv ≤ pageSize) : ∃ t, initStack calls s p child argv initSp = some (0, toChild (argsAt argv - 8), t) ∧
      Shown (initStores argv) t child := by
  obtain ⟨hca, hcm, hcu⟩ := hc.neg
  have hfit : ¬round4 (total argv) + 4 * (argc argv + 3) > pageSizeW := by
    rw [gt_iff_lt, BitVec.lt_def, fit_toNat]
    have hps : pageSizeW.toNat = 4096 := rfl
    have hpg : pageSize = 4096 := rfl
    omega
  have htemp : Machine.legal (vpn utemp) = true := rfl
  have hstack : Machine.legal (vpn (ustacktop - pageSizeW)) = true := rfl
  have hne : vpn (ustacktop - pageSizeW) ≠ vpn utemp := by decide
  obtain ⟨pr, hpr⟩ := Option.isSome_iff_exists.1 hp
  obtain ⟨pq, hpq⟩ := Option.isSome_iff_exists.1 hq
  -- the page at `UTEMP`
  let m : Mapping := ⟨s.npage, pteD ||| pteCCacheable ||| pteV⟩
  have hs₀ : (s.memAlloc p (vpn utemp) pteD).page p (vpn utemp) = some m := by
    unfold Machine.memAlloc
    rw [if_pos htemp, Machine.page_setPage, if_pos ⟨rfl, rfl⟩, hpr]
    rfl
  have hd : has (pteD ||| pteCCacheable ||| pteV) pteD = true := by decide
  obtain ⟨s₁, h₁, hp₁, hb₁⟩ := storeAll_temp hs₀ hd (initStores_placed hu).2
  have hm₁ : s₁.page p (vpn utemp) = some m := by
    unfold Machine.page at hs₀ ⊢
    rwa [hp₁]
  have hq₁ : (s₁.procs child).isSome := by
    rw [hp₁]
    unfold Machine.memAlloc
    rw [if_pos htemp]
    show (Function.update s.procs p ((s.procs p).map _) child).isSome
    rw [Function.update_apply]
    split
    · rw [hpr]
      rfl
    · exact hq
  obtain ⟨pc, hpc⟩ := Option.isSome_iff_exists.1 hq₁
  refine ⟨(s₁.memMap p (vpn utemp) child (vpn (ustacktop - pageSizeW)) pteD).memUnmap p (vpn utemp), ?_, ?_⟩
  · unfold initStack
    rw [if_neg hfit, if_neg hca, h₁, Option.bind_some]
    dsimp only
    rw [if_neg hcm, if_neg hcu]
  · refine ⟨⟨m.pp, pteD ||| pteCCacheable ||| pteV⟩, (s.memAlloc p (vpn utemp) pteD).mem m.pp, ?_, ?_⟩
    · unfold Machine.memUnmap Machine.memMap
      rw [if_pos htemp, htemp, hstack, hm₁]
      rw [Machine.page_setPage, if_neg fun h => hne h.2]
      show (s₁.setPage child (vpn (ustacktop - pageSizeW)) _).page child (vpn (ustacktop - pageSizeW)) = _
      rw [Machine.page_setPage, if_pos ⟨rfl, rfl⟩, hpc]
      rfl
    · unfold Machine.memUnmap Machine.memMap
      rw [if_pos htemp, htemp, hstack, hm₁]
      exact hb₁

theorem initStack_noMem (hc : calls.Succeed) : (initStack calls s p child argv initSp).map Prod.fst = some (-eNoMem) ↔
    pageSize < used argv % 2 ^ 32 := by
  obtain ⟨hca, hcm, hcu⟩ := hc.neg
  have hps : pageSizeW.toNat = pageSize := rfl
  have htest : round4 (total argv) + 4 * (argc argv + 3) > pageSizeW ↔ pageSize < used argv % 2 ^ 32 := by
    rw [gt_iff_lt, BitVec.lt_def, fit_toNat, hps]
  unfold initStack
  by_cases hfit : round4 (total argv) + 4 * (argc argv + 3) > pageSizeW
  · rw [if_pos hfit]
    exact ⟨fun _ => htest.1 hfit, fun _ => rfl⟩
  · rw [if_neg hfit, if_neg hca]
    refine ⟨fun h => ?_, fun h => absurd (htest.2 h) hfit⟩
    cases hs : (s.memAlloc p (vpn utemp) pteD).storeAll p (initStores argv) with
    | none =>
      rw [hs] at h
      cases h
    | some s₁ =>
      rw [hs, Option.bind_some] at h
      dsimp only at h
      rw [if_neg hcm, if_neg hcu] at h
      cases h

theorem args_not_passed (hc : calls.Succeed) (hw : ¬(used argv < 2 ^ 32 ∨ pageSize < used argv % 2 ^ 32)) :
    ¬ArgsPassed calls s p child argv initSp := by
  have hpg : pageSize = 4096 := rfl
  rintro ⟨h, -⟩
  rw [initStack_noMem hc] at h
  rw [hpg] at h hw
  omega

/-- **`init_stack` passes arguments, unless their size wraps below a page.** -/
theorem args_passed_iff (hc : calls.Succeed) (hp : (s.procs p).isSome) (hq : (s.procs child).isSome) :
    ArgsPassed calls s p child argv initSp ↔ used argv < 2 ^ 32 ∨ pageSize < used argv % 2 ^ 32 := by
  have hpg : pageSize = 4096 := rfl
  constructor
  · intro h
    by_contra hw
    exact args_not_passed hc hw h
  · intro h
    refine ⟨by rw [initStack_noMem hc]; rw [hpg] at h ⊢; omega, fun hu => ?_⟩
    obtain ⟨t, ht, hshown⟩ := initStack_fits initSp hc hp hq hu
    exact ⟨_, t, ht, (initStores_placed hu).1, shown_arguments hu hshown⟩

/-- A parent and its child. -/
def pair : Machine :=
  { procs := fun p => if p < 2 then some { pages := fun _ => none, fork := none, runnable := false } else none
    nprocs := 2, mem := fun _ _ => 0, npage := 0 }

def granting : Calls := { alloc := 0, map := 0, unmap := 0, cleanup := 0 }

/-- `echo hi` -/
def echoHi : List CString := [⟨[0x65, 0x63, 0x68, 0x6F], by decide⟩, ⟨[0x68, 0x69], by decide⟩]

theorem args_passed_echo :
    ArgsPassed granting pair 0 1 echoHi 0 ↔ used echoHi < 2 ^ 32 ∨ pageSize < used echoHi % 2 ^ 32 :=
  args_passed_iff ⟨by decide, by decide, by decide⟩ rfl rfl

theorem bytes_replicate (n : Nat) (s : CString) : bytes (List.replicate n s) = n * (s.val.length + 1) := by
  induction n with
  | zero => exact (Nat.zero_mul _).symm
  | succ n ih => rw [List.replicate_succ, bytes_cons, ih, Nat.succ_mul, Nat.add_comm]

/-- A string of `n` characters. -/
def aaa (n : Nat) : CString := ⟨List.replicate n 0x61, fun h => absurd (List.eq_of_mem_replicate h) (by decide)⟩

theorem aaa_length (n : Nat) : (aaa n).val.length = n := List.length_replicate

theorem used_replicate (n k : Nat) : used (List.replicate n (aaa k)) = (n * (k + 1) + 3) / 4 * 4 + 4 * (n + 3) := by
  unfold used
  rw [bytes_replicate, aaa_length, List.length_replicate]

/-- 512 pointers to one string of 8388607 characters. -/
def long : List CString := List.replicate 512 (aaa 0x7FFFFF)

/-- **The bytes of the strings wrap to 0**, and so they fit. -/
theorem args_passed_fails : ¬ArgsPassed granting pair 0 1 long 0 := by
  have hpg : pageSize = 4096 := rfl
  have hu : used long = _ := used_replicate 512 0x7FFFFF
  refine args_not_passed ⟨Int.le_refl 0, Int.le_refl 0, Int.le_refl 0⟩ ?_
  omega

end Call

end Forking
end Mos
