import Mos.Syscall
/-!
# Devices — what `sys_write_dev` and `sys_read_dev` access

Both calls check the length, the user range and the physical address, then go to the device with the access of that
width.  The end of the physical range is computed in 32 bits, so a range that wraps round ends below every bound.
-/
namespace Mos

/-- `ioread8` to `iowrite32`, at a physical address. -/
inductive IoAccess where
  | iowrite8 (paddr : Word)
  | iowrite16 (paddr : Word)
  | iowrite32 (paddr : Word)
  | ioread8 (paddr : Word)
  | ioread16 (paddr : Word)
  | ioread32 (paddr : Word)
deriving DecidableEq

/-- The accesses of `sys_write_dev`. -/
def writeDevAccess (va pa len : Word) : List IoAccess :=
  if badDevArgs va pa len then []
  else if len = 1 then [.iowrite8 pa]
  else if len = 2 then [.iowrite16 pa]
  else if len = 4 then [.iowrite32 pa]
  else []

/-- The accesses of `sys_read_dev`. -/
def readDevAccess (va pa len : Word) : List IoAccess :=
  if badDevArgs va pa len then []
  else if len = 1 then [.ioread8 pa]
  else if len = 2 then [.ioread16 pa]
  else if len = 4 then [.ioread32 pa]
  else []

/-- The user range is inside of `[UTEMP, UTOP)`. -/
def UserRange (va len : Word) : Prop := utemp.toNat ≤ va.toNat ∧ va.toNat + len.toNat ≤ utop.toNat

/-- Every byte of the physical range is one of the `n` bytes from `base` on. -/
def InDevice (base n : Nat) (pa len : Word) : Prop :=
  ∀ i < len.toNat, base ≤ pa.toNat + i ∧ pa.toNat + i < base + n

/-- **The access that the calls are for**: to the console or to the IDE disk. -/
structure DevAllowed (va pa len : Word) : Prop where
  width : len = 1 ∨ len = 2 ∨ len = 4
  user : UserRange va len
  device : InDevice 0x180003f8 0x20 pa len ∨ InDevice 0x180001f0 0x8 pa len

/-- **The calls of `cur` are guarded**: an access is one that the calls are for, and without it both calls return
`-E_INVAL` and leave everything as it is. -/
structure DevGuarded (k : Kernel) (cur : EnvIx) (va pa len : Word) : Prop where
  accesses : writeDevAccess va pa len ≠ [] ∨ readDevAccess va pa len ≠ [] → DevAllowed va pa len
  refused : ¬DevAllowed va pa len → writeDevAccess va pa len = [] ∧ readDevAccess va pa len = [] ∧
    sysWriteDev k cur va pa len = ret (-eInval) k ∧ ∀ w, sysReadDev k cur va pa len w = ret (-eInval) k

/-- **The physical range wraps round**, and the length and the user range are good. -/
def DevWraps (va pa len : Word) : Prop :=
  (len = 1 ∨ len = 2 ∨ len = 4) ∧ UserRange va len ∧ 2 ^ 32 ≤ pa.toNat + len.toNat

section Checks

variable {va pa len : Word}

theorem width_toNat (h : len = 1 ∨ len = 2 ∨ len = 4) : len.toNat = 1 ∨ len.toNat = 2 ∨ len.toNat = 4 := by
  rcases h with rfl | rfl | rfl
  · exact .inl rfl
  · exact .inr (.inl rfl)
  · exact .inr (.inr rfl)

theorem legalRange_iff (h : len = 1 ∨ len = 2 ∨ len = 4) : isIllegalVaRange va len = false ↔ UserRange va len := by
  have hn := width_toNat h
  have hva := va.isLt
  have htemp : utemp.toNat = 0x3FE000 := by decide
  have htop : utop.toNat = 0x7F400000 := by decide
  have h0 : ¬len = 0 := by
    rintro rfl
    exact absurd h (by decide)
  unfold isIllegalVaRange UserRange
  rw [if_neg h0]
  simp only [Bool.or_eq_false_iff, decide_eq_false_iff_not, BitVec.not_lt, BitVec.le_def, GT.gt,
    BitVec.toNat_add, htemp, htop]
  omega

theorem window_iff {base n : Nat} {lo hi : Word} (hlo : lo.toNat = base) (hhi : hi.toNat = base + n)
    (h : len = 1 ∨ len = 2 ∨ len = 4) (hpa : pa.toNat + len.toNat < 2 ^ 32) :
    (pa ≥ lo ∧ pa + len ≤ hi) ↔ InDevice base n pa len := by
  have hn := width_toNat h
  unfold InDevice
  rw [GE.ge, BitVec.le_def, BitVec.le_def, BitVec.toNat_add, Nat.mod_eq_of_lt hpa, hlo, hhi]
  constructor
  · rintro ⟨h1, h2⟩ i hi
    omega
  · intro hall
    have hfirst := hall 0 (by omega)
    have hlast := hall (len.toNat - 1) (by omega)
    omega

theorem isDevice_iff (h : len = 1 ∨ len = 2 ∨ len = 4) (hpa : pa.toNat + len.toNat < 2 ^ 32) : isDevice pa len = true ↔
    InDevice 0x180003f8 0x20 pa len ∨ InDevice 0x180001f0 0x8 pa len := by
  unfold isDevice
  rw [Bool.or_eq_true, Bool.and_eq_true, Bool.and_eq_true, decide_eq_true_eq, decide_eq_true_eq, decide_eq_true_eq,
    decide_eq_true_eq]
  exact or_congr (window_iff (by decide) (by decide) h hpa) (window_iff (by decide) (by decide) h hpa)

/-- **A range that wraps round passes the check.** -/
theorem isDevice_wraps (h : len = 1 ∨ len = 2 ∨ len = 4) (hpa : 2 ^ 32 ≤ pa.toNat + len.toNat) :
    isDevice pa len = true := by
  have hn := width_toNat h
  have hlt := pa.isLt
  have hlo : (0x180003f8 : Word).toNat = 0x180003f8 := by decide
  have hhi : (0x180003f8 + 0x20 : Word).toNat = 0x18000418 := by decide
  unfold isDevice
  rw [Bool.or_eq_true, Bool.and_eq_true, decide_eq_true_eq, decide_eq_true_eq]
  refine .inl ⟨?_, ?_⟩
  · rw [GE.ge, BitVec.le_def, hlo]
    omega
  · rw [BitVec.le_def, BitVec.toNat_add, hhi]
    omega

theorem not_allowed_wraps (h : len = 1 ∨ len = 2 ∨ len = 4) (hpa : 2 ^ 32 ≤ pa.toNat + len.toNat) :
    ¬DevAllowed va pa len := by
  have hn := width_toNat h
  rintro ⟨-, -, hdev⟩
  have hfirst : pa.toNat < 0x18000418 := by
    rcases hdev with hw | hw
    · have := (hw 0 (by omega)).2
      omega
    · have := (hw 0 (by omega)).2
      omega
  omega

/-- **What the calls check**, where the physical range does not wrap round. -/
theorem badDevArgs_iff (h : ¬DevWraps va pa len) : badDevArgs va pa len = false ↔ DevAllowed va pa len := by
  unfold badDevArgs
  simp only [Bool.or_eq_false_iff, Bool.not_eq_false', Bool.or_eq_true, decide_eq_true_eq]
  constructor
  · rintro ⟨⟨hlen, hva⟩, hdev⟩
    have hlen := or_assoc.1 hlen
    have huser := (legalRange_iff hlen).1 hva
    have hpa : pa.toNat + len.toNat < 2 ^ 32 := by
      by_contra hc
      exact h ⟨hlen, huser, Nat.not_lt.1 hc⟩
    exact ⟨hlen, huser, (isDevice_iff hlen hpa).1 hdev⟩
  · rintro ⟨hlen, huser, hdev⟩
    have hpa : pa.toNat + len.toNat < 2 ^ 32 := by
      by_contra hc
      exact h ⟨hlen, huser, Nat.not_lt.1 hc⟩
    exact ⟨⟨or_assoc.2 hlen, (legalRange_iff hlen).2 huser⟩, (isDevice_iff hlen hpa).2 hdev⟩

theorem access_of_bad (h : badDevArgs va pa len = true) :
    writeDevAccess va pa len = [] ∧ readDevAccess va pa len = [] := by
  unfold writeDevAccess readDevAccess
  rw [if_pos h, if_pos h]
  exact ⟨rfl, rfl⟩

theorem access_of_good (h : badDevArgs va pa len = false) (hlen : len = 1 ∨ len = 2 ∨ len = 4) :
    writeDevAccess va pa len ≠ [] := by
  unfold writeDevAccess
  rw [h]
  rcases hlen with rfl | rfl | rfl <;> simp

end Checks

/-- **Device accesses are guarded exactly where the physical range does not wrap round**, or the call is refused for its
length or its user range: for every state and all arguments. -/
theorem dev_access_guarded_iff (k : Kernel) (cur : EnvIx) (va pa len : Word) :
    DevGuarded k cur va pa len ↔ ¬DevWraps va pa len := by
  constructor
  · rintro hg ⟨hlen, huser, hpa⟩
    have hgood : badDevArgs va pa len = false := by
      unfold badDevArgs
      rw [(legalRange_iff hlen).2 huser, isDevice_wraps hlen hpa]
      rcases hlen with rfl | rfl | rfl <;> rfl
    exact not_allowed_wraps hlen hpa (hg.accesses (.inl (access_of_good hgood hlen)))
  · intro hno
    have hbad : ¬DevAllowed va pa len → badDevArgs va pa len = true := fun hall => by
      cases hb : badDevArgs va pa len with
      | true => rfl
      | false => exact absurd ((badDevArgs_iff hno).1 hb) hall
    refine ⟨fun hacc => ?_, fun hall => ?_⟩
    · by_contra hall
      obtain ⟨hw, hr⟩ := access_of_bad (hbad hall)
      exact hacc.elim (· hw) (· hr)
    · obtain ⟨hw, hr⟩ := access_of_bad (hbad hall)
      refine ⟨hw, hr, ?_, fun w => ?_⟩
      · unfold sysWriteDev
        rw [if_pos (hbad hall)]
      · unfold sysReadDev
        rw [if_pos (hbad hall)]

/-- The byte at the end of the address space. -/
theorem dev_access_guarded_fails : ¬∀ (k : Kernel) (cur : EnvIx) (va pa len : Word), DevGuarded k cur va pa len := by
  intro h
  obtain ⟨k⟩ : Nonempty Kernel :=
    ⟨⟨⟨0, fun _ => 0, [], fun _ _ => 0, []⟩, fun _ => Env.zero, [], ⟨none, none, fun _ => none, fun _ => none⟩,
    none, 0, 0, fun _ => 0, 0, 0, Trapframe.zero, 0, fun _ => ⟨0, 0, 0, []⟩⟩⟩
  have hallowed := (h k 0 0x800000 0xFFFFFFFF 1).accesses (.inl (by decide))
  exact not_allowed_wraps (.inl rfl) (by decide) hallowed

end Mos
