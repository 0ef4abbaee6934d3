import Mos.InitStack
/-!
# Relaying — a child that passes its arguments on

The counting loop of `init_stack` over the array that another `init_stack` has written.  The array ends with the address
of the last `NUL`, which is no null pointer, so the loop of the child goes on behind its last argument.
-/
namespace Mos
namespace Forking

/-- `for (argc = 0; argv[argc]; argc++)` over the array at `av` stops at `n`. -/
structure CountsTo (t : Machine) (q : Nat) (av : Word) (n : Nat) : Prop where
  goes : ∀ i < n, ∃ ptr, t.lw q (av + 4 * BitVec.ofNat 32 i) = some ptr ∧ ptr ≠ 0
  stops : t.lw q (av + 4 * BitVec.ofNat 32 n) = some 0

/-- The list of strings that `spawn` gets with `argv = av`. -/
structure Vector (t : Machine) (q : Nat) (av : Word) (argv : List CString) : Prop where
  counts : CountsTo t q av argv.length
  strings : ∀ i (hi : i < argv.length), ∃ ptr, t.lw q (av + 4 * BitVec.ofNat 32 i) = some ptr ∧
    ∀ j ≤ argv[i].val.length, t.lbu q (ptr + BitVec.ofNat 32 j) = some (argv[i].val.getD j 0)

/-- **A child that passes its arguments on** passes the same list. -/
def Relayed (t : Machine) (q : Nat) (sp : Word) (argv : List CString) : Prop :=
  ∃ av, t.lw q (sp + 4) = some av ∧ Vector t q av argv

/-! ## The end of the array -/

section End

variable {argv : List CString} {t : Machine} {q : Nat}

theorem last_mem : ∀ {argv : List CString} {ctemp a : Word},
    Store.word (a + 4 * BitVec.ofNat 32 argv.length) (ctemp + BitVec.ofNat 32 (bytes argv) - 1) ∈ setArgs ctemp a argv
  | [], ctemp, a => by
    rw [show ctemp + BitVec.ofNat 32 (bytes []) = ctemp from BitVec.add_zero ctemp,
      show a + 4 * BitVec.ofNat 32 ([] : List CString).length = a from BitVec.add_zero a]
    exact List.mem_singleton_self _
  | s :: ss, ctemp, a => by
    have h : Store.word (a + 4 + 4 * BitVec.ofNat 32 ss.length)
        (ctemp + (strlen s + 1) + BitVec.ofNat 32 (bytes ss) - 1) ∈
        setArgs (ctemp + (strlen s + 1)) (a + 4) ss := last_mem
    rw [strlen_add, BitVec.add_assoc ctemp, ← BitVec.ofNat_add, ← bytes_cons, BitVec.add_assoc a,
      show (4 : Word) + 4 * BitVec.ofNat 32 ss.length = 4 * BitVec.ofNat 32 (ss.length + 1) by
        rw [BitVec.ofNat_add, BitVec.mul_add, BitVec.add_comm]
        rfl, ← strlen_add] at h
    exact List.mem_cons_of_mem _ h

theorem strings_end (argv : List CString) : toChild (stringsAt argv) + BitVec.ofNat 32 (bytes argv) = ustacktop := by
  have hbase : ustacktop - utemp - pageSizeW + (utemp + pageSizeW) = ustacktop := by decide
  unfold toChild stringsAt
  rw [total_eq, BitVec.add_assoc, BitVec.sub_add_cancel]
  exact hbase

/-- **`argv[argc]` is the address of the last byte of the stack.** -/
theorem argv_end (hu : used argv ≤ pageSize) (ht : Shown (initStores argv) t q) :
    t.lw q (toChild (argsAt argv) + 4 * BitVec.ofNat 32 argv.length) = some (ustacktop - 1) := by
  have hmem : Store.word (argsAt argv + 4 * BitVec.ofNat 32 argv.length) (ustacktop - 1) ∈ initStores argv := by
    have h := @last_mem argv (toChild (stringsAt argv)) (argsAt argv)
    rw [strings_end] at h
    exact List.mem_append_right _ (List.mem_append_left _ h)
  rw [← toChild_add]
  exact lw_shown hu ht hmem

theorem shown_not_relayed (hu : used argv ≤ pageSize) (ht : Shown (initStores argv) t q) :
    ¬Relayed t q (toChild (argsAt argv - 8)) argv := by
  rintro ⟨av, hav, hv⟩
  have hnext : toChild (argsAt argv - 8) + 4 = toChild (argsAt argv - 4) := by
    have hsub : argsAt argv - 8 + 4 = argsAt argv - 4 := by bv_omega
    rw [← toChild_add, hsub]
  have hpargv : Store.word (argsAt argv - 4) (toChild (argsAt argv)) ∈ initStores argv :=
    List.mem_append_right _ (List.mem_append_right _ List.mem_cons_self)
  have hav' := lw_shown hu ht hpargv
  rw [hnext, hav'] at hav
  obtain rfl := Option.some.inj hav
  have hnull := hv.counts.stops
  rw [argv_end hu ht] at hnull
  exact absurd (Option.some.inj hnull) (by decide)

end End

/-! ## Sizes that wrap -/

section Wraps

variable {s s' : Machine} {p v : Nat}

namespace Machine

theorem page_illegal {a u : Nat} {m : Option Mapping} (hv : legal v = false) (hu : legal u = true)
    (h : s.page p v = none) :
    (s.setPage a u m).page p v = none := by
  have hne : v ≠ u := fun hc => by rw [hc, hu] at hv; cases hv
  rw [page_setPage, if_neg fun hc => hne hc.2]
  exact h

theorem memAlloc_illegal {a u : Nat} {perm : Word} (hv : legal v = false) (h : s.page p v = none) :
    (s.memAlloc a u perm).page p v = none := by
  unfold memAlloc
  by_cases hu : legal u = true
  · rw [if_pos hu]
    exact page_illegal hv hu h
  · rw [if_neg hu]
    exact h

theorem memMap_illegal {a u b w : Nat} {perm : Word} (hv : legal v = false) (h : s.page p v = none) :
    (s.memMap a u b w perm).page p v = none := by
  unfold memMap
  by_cases hc : (legal u && legal w) = true
  · rw [if_pos hc]
    cases s.page a u with
    | none => exact h
    | some m => exact page_illegal hv (Bool.and_eq_true_iff.1 hc).2 h
  · rw [if_neg hc]
    exact h

theorem memUnmap_illegal {a u : Nat} (hv : legal v = false) (h : s.page p v = none) :
    (s.memUnmap a u).page p v = none := by
  unfold memUnmap
  by_cases hu : legal u = true
  · rw [if_pos hu]
    exact page_illegal hv hu h
  · rw [if_neg hu]
    exact h

theorem cowEntry_illegal {u : Nat} (hv : legal v = false) (h : s.page p v = none) (hs : s.cowEntry p u = some s') :
    s'.page p v = none := by
  unfold cowEntry at hs
  obtain ⟨m, -, hs⟩ := Option.bind_eq_some_iff.1 hs
  split at hs
  · cases hs
    refine memUnmap_illegal hv (memMap_illegal hv ?_)
    have hmem : ∀ s : Machine, (s.memcpy p (vpn ucow) u).page p v = s.page p v := by
      intro s
      unfold memcpy
      split <;> rfl
    rw [hmem]
    exact memAlloc_illegal hv h
  · cases hs

theorem write_illegal {u o : Nat} {w : Word} (hv : legal v = false) (h : s.page p v = none)
    (hs : s.write p u o w = some s') :
    s'.page p v = none := by
  unfold write at hs
  obtain ⟨m, -, hs⟩ := Option.bind_eq_some_iff.1 hs
  split at hs
  · cases hs
    exact h
  · split at hs
    · cases hs
      show ((Function.update s.procs p none) p).bind _ = none
      rw [Function.update_self]
      rfl
    · rename_i s₁ hs₁
      obtain ⟨m₁, -, hs⟩ := Option.bind_eq_some_iff.1 hs
      split at hs
      · cases hs
        have h₁ : s₁.page p v = none := cowEntry_illegal hv h hs₁
        exact h₁
      · cases hs

theorem storeUser_illegal {x : Store} (hv : legal v = false) (h : s.page p v = none) (hs : s.storeUser p x = some s') :
    s'.page p v = none := by
  cases x with
  | byte va b =>
    simp only [storeUser] at hs
    obtain ⟨m, -, hs⟩ := Option.bind_eq_some_iff.1 hs
    exact write_illegal hv h hs
  | word va w =>
    simp only [storeUser] at hs
    by_cases hal : va.toNat % 4 = 0
    · rw [if_pos hal] at hs
      exact write_illegal hv h hs
    · rw [if_neg hal] at hs
      cases hs

/-- **A byte for such a page** cannot be stored. -/
theorem storeAll_illegal {va : Word} {b : BitVec 8} : ∀ {xs : List Store} {s : Machine}, legal (vpn va) = false →
    s.page p (vpn va) = none → .byte va b ∈ xs → s.storeAll p xs = none
  | x :: xs, s, hv, h, hx => by
    unfold storeAll
    cases hs : s.storeUser p x with
    | none => rfl
    | some s₁ =>
      rcases List.mem_cons.1 hx with rfl | hx
      · simp only [storeUser] at hs
        rw [h] at hs
        cases hs
      · exact storeAll_illegal hv (storeUser_illegal hv h hs) hx

end Machine

theorem bytes_mem : ∀ {argv : List CString} {ctemp : Word} {n : Nat}, n < bytes argv →
    ∃ b, Store.byte (ctemp + BitVec.ofNat 32 n) b ∈ copyStrings ctemp argv
  | [], _, n, hn => absurd hn (Nat.not_lt_zero n)
  | s :: ss, ctemp, n, hn => by
    rw [bytes_cons] at hn
    by_cases hle : n ≤ s.val.length
    · exact ⟨_, List.mem_append_left _ (byte_mem hle)⟩
    · obtain ⟨b, hb⟩ := @bytes_mem ss (ctemp + (strlen s + 1)) (n - (s.val.length + 1)) (by omega)
      rw [strlen_add, BitVec.add_assoc, ← BitVec.ofNat_add, Nat.add_sub_cancel' (by omega), ← strlen_add] at hb
      exact ⟨b, List.mem_append_right _ hb⟩

theorem length_le_bytes : ∀ argv : List CString, argv.length ≤ bytes argv
  | [] => Nat.zero_le _
  | s :: ss => by
    have := length_le_bytes ss
    rw [bytes_cons, List.length_cons]
    omega

/-- The last address there is. -/
def lastAddress : Word := 0xFFFFFFFF

/-- **Strings whose size wraps** are stored at the last address too. -/
theorem lastAddress_mem {argv : List CString} (hw : 2 ^ 32 ≤ used argv) :
    ∃ b, Store.byte lastAddress b ∈ initStores argv := by
  have hlen := length_le_bytes argv
  have htemp : (utemp + pageSizeW).toNat = 0x3ff000 := rfl
  have hlast : lastAddress.toNat = 0xFFFFFFFF := rfl
  unfold used at hw
  -- how many bytes there are before it
  let n := (lastAddress - stringsAt argv).toNat
  have hn : n = (2 ^ 32 - 1 - 0x3ff000 + bytes argv) % 2 ^ 32 := by
    have hS : (stringsAt argv).toNat = (2 ^ 32 - bytes argv % 2 ^ 32 + 0x3ff000) % 2 ^ 32 := by
      unfold stringsAt
      rw [BitVec.toNat_sub, htemp, total_eq, BitVec.toNat_ofNat]
    show (lastAddress - stringsAt argv).toNat = _
    rw [BitVec.toNat_sub, hS, hlast]
    omega
  have hlt : n < bytes argv := by omega
  obtain ⟨b, hb⟩ : ∃ b, Store.byte (stringsAt argv + BitVec.ofNat 32 n) b ∈ copyStrings (stringsAt argv) argv :=
    bytes_mem hlt
  have hva : stringsAt argv + BitVec.ofNat 32 n = lastAddress := by
    show stringsAt argv + BitVec.ofNat 32 (lastAddress - stringsAt argv).toNat = _
    rw [BitVec.ofNat_toNat, BitVec.setWidth_eq, BitVec.add_comm, BitVec.sub_add_cancel]
  rw [hva] at hb
  exact ⟨b, List.mem_append_left _ hb⟩

end Wraps

/-! ## The call -/

section Call

variable {calls : Calls} {s t : Machine} {p child : Nat} {argv : List CString} {initSp sp : Word}

/-- **What `init_stack` accepts fits.** -/
theorem used_of_accepted (hk : ∀ v, vpn ulim ≤ v → s.page p v = none)
    (h : initStack calls s p child argv initSp = some (0, sp, t)) : calls.Succeed ∧ used argv ≤ pageSize := by
  have hps : pageSizeW.toNat = pageSize := rfl
  have hpg : pageSize = 4096 := rfl
  have hno : (-eNoMem : Int) ≠ 0 := by decide
  unfold initStack at h
  by_cases hfit : round4 (total argv) + 4 * (argc argv + 3) > pageSizeW
  · rw [if_pos hfit] at h
    exact absurd (congrArg Prod.fst (Option.some.inj h)) hno
  · rw [if_neg hfit] at h
    by_cases hca : calls.alloc < 0
    · rw [if_pos hca] at h
      have hz : calls.alloc = 0 := congrArg Prod.fst (Option.some.inj h)
      omega
    · rw [if_neg hca] at h
      obtain ⟨s₁, hs₁, h⟩ := Option.bind_eq_some_iff.1 h
      refine ⟨⟨Int.not_lt.1 hca, ?_, ?_⟩, ?_⟩
      · by_contra hcm
        dsimp only at h
        rw [if_pos (Int.not_le.1 hcm)] at h
        have hz : calls.map = 0 := congrArg Prod.fst (Option.some.inj h)
        omega
      · by_contra hcu
        dsimp only at h
        by_cases hcm : calls.map < 0
        · rw [if_pos hcm] at h
          have hz : calls.map = 0 := congrArg Prod.fst (Option.some.inj h)
          omega
        · rw [if_neg hcm, if_pos (Int.not_le.1 hcu)] at h
          have hz : calls.unmap = 0 := congrArg Prod.fst (Option.some.inj h)
          omega
      · rw [gt_iff_lt, BitVec.lt_def, fit_toNat, hps, hpg] at hfit
        by_contra hbig
        obtain ⟨b, hb⟩ := @lastAddress_mem argv (by omega)
        have hill : Machine.legal (vpn lastAddress) = false := by decide
        have hnone : (s.memAlloc p (vpn utemp) pteD).page p (vpn lastAddress) = none :=
          Machine.memAlloc_illegal hill (hk _ (by decide))
        rw [Machine.storeAll_illegal hill hnone hb] at hs₁
        cases hs₁

theorem accepted_not_relayed (hp : (s.procs p).isSome) (hq : (s.procs child).isSome)
    (hk : ∀ v, vpn ulim ≤ v → s.page p v = none) (h : initStack calls s p child argv initSp = some (0, sp, t)) :
    ¬Relayed t child sp argv := by
  obtain ⟨hc, hu⟩ := used_of_accepted hk h
  obtain ⟨t', ht', hshown⟩ := initStack_fits initSp hc hp hq hu
  rw [h] at ht'
  obtain ⟨-, hrest⟩ := Prod.mk.inj (Option.some.inj ht')
  obtain ⟨rfl, rfl⟩ := Prod.mk.inj hrest
  exact shown_not_relayed hu hshown

/-- **A child never passes its arguments on as they are**: whatever `init_stack` accepts, the array of the child does
not end behind its last argument. -/
theorem args_not_relayed (hp : (s.procs p).isSome) (hq : (s.procs child).isSome)
    (hk : ∀ v, vpn ulim ≤ v → s.page p v = none) (h : initStack calls s p child argv initSp = some (0, sp, t)) :
    ¬Relayed t child sp argv :=
  accepted_not_relayed hp hq hk h

theorem pair_page (p v : Nat) : pair.page p v = none := by
  show (if p < 2 then some _ else none).bind _ = none
  split <;> rfl

theorem echoHi_accepted : ∃ sp t, initStack granting pair 0 1 echoHi 0 = some (0, sp, t) := by
  obtain ⟨t, ht, -⟩ : ∃ t, initStack granting pair 0 1 echoHi 0 = some (0, toChild (argsAt echoHi - 8), t) ∧
      Shown (initStores echoHi) t 1 :=
        initStack_fits 0 ⟨Int.le_refl 0, Int.le_refl 0, Int.le_refl 0⟩ rfl rfl (by decide)
  exact ⟨_, t, ht⟩

theorem args_not_relayed_echo :
    ∃ sp t, initStack granting pair 0 1 echoHi 0 = some (0, sp, t) ∧ ¬Relayed t 1 sp echoHi := by
  obtain ⟨sp, t, h⟩ := echoHi_accepted
  exact ⟨sp, t, h, args_not_relayed rfl rfl (fun v _ => pair_page 0 v) h⟩

/-- **The array of `echo hi`** goes on. -/
theorem args_relayed_fails :
    ¬∀ sp t, initStack granting pair 0 1 echoHi 0 = some (0, sp, t) → Relayed t 1 sp echoHi := by
  obtain ⟨sp, t, h⟩ := echoHi_accepted
  exact fun hall => accepted_not_relayed rfl rfl (fun v _ => pair_page 0 v) h (hall sp t h)

end Call

end Forking
end Mos
