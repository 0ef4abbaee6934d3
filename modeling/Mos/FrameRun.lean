import Mos.Lib.Run
import Mos.Frames
/-!
# FrameRun — the accounts over every run

Callers of `kern/pmap.c` allocate pages, make directories of them, map and unmap them, and hold and give back
references, in any order.  `Account.legal` is what they must respect: a page is mapped with flags only, and only a page
in use or just allocated; a reference is given back only if it is held.  Under it the accounts are right after every
run, and no assertion of `kern/pmap.c` ever fails.
-/
namespace Mos

/-- The pages, and what their callers know. -/
structure Account where
  pm : Pmap
  ledger : Ledger

inductive FrameOp where
  | alloc
  /-- `pp_ref++` by a caller. -/
  | hold (pp : Nat)
  /-- A page just allocated becomes a directory, with `pp_ref++`. -/
  | newDir (pp : Nat)
  | insert (d pp : Nat) (asid va perm : Word)
  | remove (d : Nat) (asid va : Word)
  /-- A caller gives its reference back; a directory is gone with its last one. -/
  | decref (pp : Nat)
  /-- A directory entry is cleared and the reference of its table given back. -/
  | dropTable (d i : Nat)
  /-- A caller writes to its page. -/
  | write (pp i : Nat) (w : Word)

/-- The ledger after a caller gave a reference back. -/
def Ledger.release (g : Ledger) (pp : Nat) : Ledger :=
  { g with
    dirs := if g.held pp = 1 then g.dirs.erase pp else g.dirs
    held := Function.update g.held pp (g.held pp - 1) }

namespace Account

def step (s : Account) : FrameOp → Option Account
  | .alloc =>
    match pageAlloc s.pm with
    | none => some s
    | some (pp, pm) => some ⟨pm, { s.ledger with limbo := insert pp s.ledger.limbo }⟩
  | .hold pp => some ⟨s.pm.setRef pp (s.pm.ppRef pp + 1),
      ⟨s.ledger.dirs, Function.update s.ledger.held pp (s.ledger.held pp + 1), s.ledger.limbo.erase pp⟩⟩
  | .newDir pp => some ⟨s.pm.setRef pp (s.pm.ppRef pp + 1),
      ⟨insert pp s.ledger.dirs, Function.update s.ledger.held pp 1, s.ledger.limbo.erase pp⟩⟩
  | .insert d pp asid va perm => (pageInsert s.pm d asid pp va perm).map (fun r =>
      ⟨r.2, if r.1 = 0 then s.ledger.settle pp else s.ledger⟩)
  | .remove d asid va => (pageRemove s.pm d asid va).map (fun pm => ⟨pm, s.ledger⟩)
  | .decref pp => (pageDecref s.pm pp).map (fun pm => ⟨pm, s.ledger.release pp⟩)
  | .dropTable d i => (pa2page s.pm (pteAddr (s.pm.mem d i))).bind (fun t =>
      (pageDecref (s.pm.write (d, i) 0) t).map (fun pm => ⟨pm, s.ledger⟩))
  | .write pp i w => some ⟨s.pm.write (pp, i) w, s.ledger⟩

/-- The page was just allocated, or is mapped somewhere. -/
def Mappable (s : Account) (pp : Nat) : Prop :=
  pp ∈ s.ledger.limbo ∨ ∃ x ∈ pageSlots utopEntries s.ledger.dirs, s.pm.frame x = some pp

/-- What the callers respect. -/
def legal (s : Account) : FrameOp → Prop
  | .alloc => True
  | .hold pp => s.Mappable pp ∧ s.pm.ppRef pp < 65535
  | .newDir pp => pp ∈ s.ledger.limbo ∧ ∀ i < utopEntries, valid (s.pm.mem pp i) = false
  | .insert d pp _ va perm => d ∈ s.ledger.dirs ∧ va < utop ∧ perm < 4096 ∧ s.Mappable pp ∧
      (s.pm.frame (slotOf d va) = some pp ∨ s.pm.ppRef pp < 65535)
  | .remove d _ va => d ∈ s.ledger.dirs ∧ va < utop
  | .decref pp => pp < s.pm.npage ∧ s.ledger.held pp ≠ 0 ∧
      (pp ∈ s.ledger.dirs → s.ledger.held pp = 1 → ∀ i < utopEntries, s.pm.table (pp, i) = none)
  | .dropTable d i => d ∈ s.ledger.dirs ∧ i < utopEntries ∧ s.pm.table (d, i) ≠ none ∧
      ∀ j < pageWords, s.pm.pte (d, i, j) = none
  | .write pp _ _ => s.Mappable pp

/-- `page_init`: the frames below `freemem` are held by the kernel. -/
def Started (s : Account) : Prop := ∃ b freemem, s =
  ⟨pageInit b freemem, ⟨∅, fun f => if f < roundPage freemem / pageSize then 1 else 0, ∅⟩⟩

/-- **The accounts are right**: the counters are the references, the free list is the frames without, no valid entry
points to a free frame, and no assertion fails. -/
structure Right (s : Account) : Prop where
  ref : ∀ f < s.pm.npage, (s.pm.ppRef f).toNat = refs utopEntries s.pm s.ledger f
  nodup : s.pm.pageFreeList.Nodup
  free : ∀ f, f ∈ s.pm.pageFreeList ↔ f < s.pm.npage ∧ s.pm.ppRef f = 0 ∧ f ∉ s.ledger.limbo
  table : ∀ f ∈ s.pm.pageFreeList, ∀ x ∈ tableSlots utopEntries s.ledger.dirs, s.pm.table x ≠ some f
  page : ∀ f ∈ s.pm.pageFreeList, ∀ x ∈ pageSlots utopEntries s.ledger.dirs, s.pm.frame x ≠ some f
  noPanic : ∀ op, s.legal op → s.step op ≠ none

/-! ## A legal step -/

theorem ppn_flags {perm : Word} (h : perm < 4096) : ppn perm = 0 := by
  have hlt : perm.toNat < 4096 := h
  unfold ppn pgshift
  rw [BitVec.toNat_ushiftRight, Nat.shiftRight_eq_div_pow]
  omega

theorem usable_of_mappable {s : Account} (h : Acct utopEntries s.pm s.ledger) {pp : Nat} (hm : s.Mappable pp) :
    Acct.Usable utopEntries s.pm s.ledger pp := by
  rcases hm with hl | ⟨x, hx, hf⟩
  · exact h.usable_of_limbo hl
  · exact h.usable_of_frame hx hf

/-- **A legal step succeeds and keeps the accounts.** -/
theorem step_acct {s : Account} {op : FrameOp} (h : Acct utopEntries s.pm s.ledger) (hl : s.legal op) :
    ∃ s', s.step op = some s' ∧ Acct utopEntries s'.pm s'.ledger := by
  cases op with
  | alloc =>
    cases hf : s.pm.pageFreeList with
    | nil => exact ⟨s, by simp only [step, pageAlloc, hf], h⟩
    | cons pp rest =>
      obtain ⟨pm, ha, -, -, -, -, hacct, -⟩ := h.alloc hf
      exact ⟨_, by simp only [step, ha]; rfl, hacct⟩
  | hold pp => exact ⟨_, rfl, h.hold (usable_of_mappable h hl.1) hl.2⟩
  | newDir pp =>
    have hr := (h.limbo pp hl.1).2
    have href : (s.pm.setRef pp (s.pm.ppRef pp + 1)).ppRef = Function.update s.pm.ppRef pp 1 := by
      show Function.update s.pm.ppRef pp (s.pm.ppRef pp + 1) = _
      rw [hr]
      rfl
    have hacct := @Acct.newDir utopEntries s.pm (s.pm.setRef pp (s.pm.ppRef pp + 1)) s.ledger h pp hl.1 hl.2 rfl href
      rfl (fun _ _ => rfl)
    exact ⟨_, rfl, hacct.1⟩
  | insert d pp asid va perm =>
    obtain ⟨hd, hva, hperm, hm, hlt⟩ := hl
    have hp : pp ||| ppn perm = pp := by rw [ppn_flags hperm, Nat.or_zero]
    rcases h.insertPage hd (pdx_lt_utop.2 hva) asid (usable_of_mappable h hm) hlt hp with ⟨-, -, he⟩ | ⟨pm, he, hi⟩
    · refine ⟨_, by simp only [step, he, Option.map_some]; rfl, ?_⟩
      exact h.tlb asid va
    · exact ⟨_, by simp only [step, he, Option.map_some]; rfl, hi.acct⟩
  | remove d asid va =>
    obtain ⟨pm, he, hacct, -⟩ := h.removePage hl.1 (pdx_lt_utop.2 hl.2) asid
    exact ⟨_, by simp only [step, he, Option.map_some]; rfl, hacct⟩
  | decref pp =>
    obtain ⟨hlt, hheld, hdir⟩ := hl
    by_cases hlast : pp ∈ s.ledger.dirs ∧ s.ledger.held pp = 1
    · obtain ⟨pm, he, -, -, hacct⟩ := h.dropDir hlast.1 hlast.2 (hdir hlast.1 hlast.2)
      refine ⟨_, by simp only [step, he, Option.map_some]; rfl, ?_⟩
      simp only [Ledger.release, hlast.2, if_true]
      exact hacct
    · obtain ⟨pm, he, hacct⟩ := h.unhold hlt hheld (fun hd h1 => hlast ⟨hd, h1⟩)
      refine ⟨_, by simp only [step, he, Option.map_some]; rfl, ?_⟩
      have hdirs : (if s.ledger.held pp = 1 then s.ledger.dirs.erase pp else s.ledger.dirs) = s.ledger.dirs := by
        split
        · rename_i h1
          exact Finset.erase_eq_of_notMem (fun hd => hlast ⟨hd, h1⟩)
        · rfl
      simp only [Ledger.release, hdirs]
      exact hacct
  | dropTable d i =>
    obtain ⟨hd, hi, ht, hempty⟩ := hl
    obtain ⟨t, ht⟩ := Option.ne_none_iff_exists'.1 ht
    obtain ⟨pm, he, hacct, -⟩ := h.dropTable hd hi ht hempty
    have hlt := h.tree.table_lt _ (mem_tableSlots.2 ⟨hd, hi⟩) t ht
    have hppn : ppn (pteAddr (s.pm.mem d i)) = t := by
      rw [ppn_pteAddr]
      simp only [Pmap.table] at ht
      split at ht
      · simpa using ht
      · cases ht
    refine ⟨_, by simp only [step, pa2page, hppn, if_pos hlt, Option.bind_some, he, Option.map_some]; rfl, hacct⟩
  | write pp i w =>
    have hu := usable_of_mappable h hl
    refine ⟨_, rfl, h.congr rfl rfl rfl (fun f hf => ?_)⟩
    have hfp : f ≠ pp := fun hc => hf (hc ▸ hu.outside)
    exact write_mem_ne s.pm (e := (pp, i)) hfp

/-! ## Runs -/

theorem acct_started (s : Account) (h : s.Started) : Acct utopEntries s.pm s.ledger := by
  obtain ⟨b, freemem, rfl⟩ := h
  refine Acct.noDirs (npage_pageInit b freemem) (fun f hf => absurd hf (Finset.notMem_empty f)) ?_
    (nodup_pageInit b freemem) ?_
  · intro f _
    show (if f < _ then (1 : BitVec 16) else 0).toNat = if f < _ then 1 else 0
    split <;> rfl
  · intro f
    rw [mem_pageInit]
    simp

theorem acct_of_run {s : Account} (h : Run Started step legal s) : Acct utopEntries s.pm s.ledger := by
  refine Run.invariant (fun s => Acct utopEntries s.pm s.ledger) acct_started ?_ s h
  intro s op s' hacct hl hs
  obtain ⟨s'', hs'', hacct'⟩ := step_acct hacct hl
  obtain rfl : s'' = s' := by simpa using hs''.symm.trans hs
  exact hacct'

/-- **The accounts of the frames are right** after every legal run from `page_init`. -/
theorem frames_accounted (s : Account) (h : Run Started step legal s) : s.Right := by
  have hacct := acct_of_run h
  refine ⟨hacct.ref, hacct.nodup, hacct.free, fun f hf => (hacct.not_free hf).1, fun f hf => (hacct.not_free hf).2, ?_⟩
  intro op hl hnone
  obtain ⟨s', hs', -⟩ := step_acct hacct hl
  rw [hnone] at hs'
  cases hs'

/-- A check that implies `legal`, for pages that are mapped once. -/
def legalB (s : Account) : FrameOp → Bool
  | .alloc => true
  | .newDir pp => decide (pp ∈ s.ledger.limbo) && (List.range utopEntries).all (fun i => !valid (s.pm.mem pp i))
  | .insert d pp _ va perm =>
    decide (d ∈ s.ledger.dirs ∧ va < utop ∧ perm < 4096 ∧ pp ∈ s.ledger.limbo ∧ s.pm.ppRef pp < 65535)
  | .remove d _ va => decide (d ∈ s.ledger.dirs ∧ va < utop)
  | _ => false

theorem legal_of_legalB (s : Account) (op : FrameOp) (h : s.legalB op = true) : s.legal op := by
  cases op with
  | alloc => trivial
  | newDir pp =>
    simp only [legalB, Bool.and_eq_true, decide_eq_true_eq, List.all_eq_true, List.mem_range] at h
    exact ⟨h.1, fun i hi => by simpa using h.2 i hi⟩
  | insert d pp asid va perm =>
    obtain ⟨hd, hva, hperm, hl, hlt⟩ := of_decide_eq_true h
    exact ⟨hd, hva, hperm, .inl hl, .inr hlt⟩
  | remove d asid va =>
    obtain ⟨hd, hva⟩ := of_decide_eq_true h
    exact ⟨hd, hva⟩
  | _ => cases h

/-- A board of sixteen pages, the kernel in the first four. -/
def tiny : Account :=
  ⟨pageInit { ramLowSize := 0x10000, ram := fun _ _ => 0, envsPa := 0 } 0x4000,
    ⟨∅, fun f => if f < roundPage 0x4000 / pageSize then 1 else 0, ∅⟩⟩

/-- A directory with two pages, of which one is unmapped again; the table is the frame between them. -/
theorem frames_accounted_tiny : ∃ s : Account, (s.pm.ppRef 14 = 1 ∧ s.pm.ppRef 13 = 1) ∧ s.Right := by
  obtain ⟨s, hr, hs⟩ := @Run.exists_of_exec Account FrameOp Started step legal legalB legal_of_legalB
    [.alloc, .newDir 15, .alloc, .insert 15 14 1 0x400000 0x100, .alloc, .insert 15 12 1 0x401000 0x100,
      .remove 15 1 0x401000]
    (some tiny) (fun s hs => by cases hs; exact ⟨_, _, rfl⟩)
    (fun s => decide (s.pm.ppRef 14 = 1 ∧ s.pm.ppRef 13 = 1)) (by decide +kernel)
  exact ⟨s, of_decide_eq_true hs, frames_accounted s hr⟩

end Account

end Mos
