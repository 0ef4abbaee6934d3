import Mos.Opening
/-!
# Lost — blocks in use that nobody has

A block that the bitmap has as used is found again from a slot of an object, or lost.  Blocks get lost where an object
goes away with blocks that `file_truncate` does not free, or that belong to what is below it, and where an open file
that has lost its name gets a block.
-/
namespace Mos

open Fallible FilePtr Fs

variable {s s' s'' : Fs} {d e f b i a : Nat} {u : Use}

namespace Fs

/-- A slot of an object has the block. -/
def Referenced (s : Fs) (b : Nat) : Prop := ∃ f u, Object s f ∧ s.vol.holds f u = some b

/-- **No block is lost**: what the bitmap has as used is before the blocks of files, or in a slot of an object. -/
def NoLeak (s : Fs) : Prop := ∀ b < s.sNblocks, s.blockIsFree b = false → b < s.reserved ∨ s.Referenced b

/-- **No block gets lost**: what is used afterwards, and was free or in a slot, is in a slot. -/
structure LosesNone (s s' : Fs) : Prop where
  sNblocks : s'.sNblocks = s.sNblocks
  held : ∀ b, s'.blockIsFree b = false → s.blockIsFree b = true ∨ s.Referenced b → s'.Referenced b

theorem NoLeak.step (h : NoLeak s) (hl : LosesNone s s') : NoLeak s' := by
  intro b hb hused
  cases hfree : s.blockIsFree b with
  | true => exact .inr (hl.held b hused (.inl hfree))
  | false =>
    refine (h b (hl.sNblocks ▸ hb) hfree).imp (fun hlt => ?_) fun hr => hl.held b hused (.inr hr)
    unfold reserved
    rw [hl.sNblocks]
    exact hlt

namespace LosesNone

theorem refl (s : Fs) : LosesNone s s :=
  ⟨rfl, fun b hb hr => hr.resolve_left fun hf => by rw [hf] at hb; cases hb⟩

theorem trans (h : LosesNone s s') (h' : LosesNone s' s'') : LosesNone s s'' := by
  refine ⟨h'.sNblocks.trans h.sNblocks, fun b hb hr => h'.held b hb ?_⟩
  cases hfree : s'.blockIsFree b with
  | true => exact .inl rfl
  | false => exact .inr (h.held b hfree hr)

end LosesNone

/-! ## Objects that stay -/

/-- **Objects stay** where directories keep their entries with names. -/
theorem Object.mono
    (hstep : ∀ x e, Dir s x → e ∈ s.listing x → s.nameOf e ≠ [] → s'.IsDir x ∧ e ∈ s'.listing x ∧ s'.nameOf e ≠ [])
    (h : Object s f) : Object s' f := by
  induction h with
  | root => exact .root
  | entry x e hx hdir he hname ih =>
    obtain ⟨hdir', he', hname'⟩ := hstep x e ⟨hx, hdir⟩ he hname
    exact .entry x e ih hdir' he' hname'

theorem Dir.entry (hd : Dir s d) (he : e ∈ s.listing d) : File s e := by
  obtain ⟨i, hi, b, hb, hin⟩ := mem_listing.1 he
  exact .entry d i b e hd.file hd.isDir hi hb hin

theorem SameFile.agree (h : SameFile f s s') : s.vol.Agree s'.vol f :=
  ⟨h.dir, h.nblocks, h.holds⟩

theorem LosesNone.of_others (hn : s'.sNblocks = s.sNblocks)
    (hfree : ∀ b, s.blockIsFree b = true → s'.blockIsFree b = true) (hobj : ∀ e, Object s e → e = f ∨ Object s' e)
    (hsame : ∀ e, Object s e → e ≠ f → s'.vol.holds e = s.vol.holds e)
    (hself : ∀ u b, Object s f → s.vol.holds f u = some b → s'.blockIsFree b = false →
      Object s' f ∧ s'.vol.holds f u = some b) :
    LosesNone s s' := by
  refine ⟨hn, fun b hb hr => ?_⟩
  rcases hr with hf | ⟨e, u, he, hu⟩
  · rw [hfree b hf] at hb
    cases hb
  · by_cases hef : e = f
    · subst hef
      obtain ⟨he', hu'⟩ := hself u b he hu hb
      exact ⟨e, u, he', hu'⟩
    · exact ⟨e, u, (hobj e he).resolve_left hef, by rw [hsame e he hef]; exact hu⟩

theorem LosesNone.of_same (hn : s'.sNblocks = s.sNblocks) (hfree : ∀ b, s'.blockIsFree b = s.blockIsFree b)
    (hname : ∀ e, File s e → s'.nameOf e = s.nameOf e) (hag : ∀ e, File s e → s.vol.Agree s'.vol e) :
    LosesNone s s' := by
  have hobj : ∀ e, Object s e → Object s' e := fun e he => he.mono fun x e hx he hne =>
    ⟨(hag x hx.file).dir.2 hx.isDir, by rw [listing_congr (hag x hx.file)]; exact he, by
      rw [hname e (hx.entry he)]; exact hne⟩
  refine .of_others (f := sRoot) hn (fun b hb => (hfree b).trans hb) (fun e he => .inr (hobj e he))
    (fun e he _ => (hag e he.file).holds) fun u b he hu _ => ⟨hobj _ he, ?_⟩
  rw [(hag _ he.file).holds]
  exact hu

theorem Kept.losesNone_quiet (h : Kept s) (hq : Quiet s s') : LosesNone s s' :=
  have hs := hq.still h.toOwned
  .of_same hs.sNblocks hs.free (fun _ he => (hq.edit.same h.toOwned he fun _ => False.elim).name)
    fun _ he => hs.agree he

theorem Kept.losesNone_passes {P : Nat → Prop} (h : Kept s) (hp : Passes P s s') (hP : ∀ f, P f → Entry s f) :
    LosesNone s s' :=
  have hs := (h.passes hp hP).2
  .of_same hs.sNblocks hs.free (fun _ he => (h.same_passes hp hP he).name) fun _ he => hs.agree he

/-! ## Blocks that a file gets -/

/-- **The file has what it had, and every block that was free.** -/
structure Fills (f : Nat) (s s' : Fs) : Prop where
  sNblocks : s'.sNblocks = s.sNblocks
  keeps : ∀ u b, s.vol.holds f u = some b → s'.vol.holds f u = some b
  taken : ∀ b, s.blockIsFree b = true → s'.blockIsFree b = false → ∃ u, s'.vol.holds f u = some b

namespace Fills

theorem of_free (hn : s'.sNblocks = s.sNblocks) (hholds : s'.vol.holds f = s.vol.holds f)
    (hfree : ∀ b, s'.blockIsFree b = s.blockIsFree b) :
    Fills f s s' := by
  refine ⟨hn, fun u b hb => by rw [hholds]; exact hb, fun b hb hused => ?_⟩
  rw [hfree, hb] at hused
  cases hused

theorem refl (f : Nat) (s : Fs) : Fills f s s := of_free rfl rfl fun _ => rfl

theorem of_still (h : Still s s') (hf : File s f) : Fills f s s' := of_free h.sNblocks (h.agree hf).holds h.free

theorem of_attached (h : Attached f u b s s') : Fills f s s' := by
  refine ⟨h.sNblocks, fun w c hc => ?_, fun c hc hused => ⟨u, ?_⟩⟩
  · rw [h.holds]
    by_cases hw : w = u
    · rw [hw, h.empty] at hc
      cases hc
    · rw [if_neg hw]
      exact hc
  · rw [h.free, hc, Bool.true_and, Bool.not_eq_false', decide_eq_true_eq] at hused
    rw [h.holds, if_pos rfl, hused]

theorem trans (h : Fills f s s') (h' : Fills f s' s'') : Fills f s s'' := by
  refine ⟨h'.sNblocks.trans h.sNblocks, fun u b hb => h'.keeps u b (h.keeps u b hb), fun b hb hused => ?_⟩
  cases hfree : s'.blockIsFree b with
  | true => exact h'.taken b hfree hused
  | false =>
    obtain ⟨u, hu⟩ := h.taken b hb hfree
    exact ⟨u, h'.keeps u b hu⟩

end Fills

theorem Owned.fills_loads {B : Nat → Prop} (ho : Owned s) (hf : File s f) (hl : Loads B s s')
    (hb : ∀ c, B c → s.blockIsFree c = false) :
    Fills f s s' := .of_still ((Quiet.of_loads hl hb).still ho) hf

end Fs

/-- **A block that is allocated gets into the slot**, or none is taken. -/
theorem allocInto_fills {β : Type} {U : Use → Prop} (ho : Owned s) (hf : File s f) (ha : s.slotWord f u = some a)
    (hm : s.mapped (a / blockWords) = true) (hnone : s.vol.holds f u = none) (hu : U u)
    (hblank : u = .indirect ∨ Grows s f u → s.Clean 1) (k : Nat → Unit → FsM β) :
    (∃ b s', Attached f u b s s' ∧ Extends f U s s' ∧ s'.mem a = BitVec.ofNat 32 b ∧
        (allocBlock >>= fun r => storeWord a (BitVec.ofNat 32 r) >>= k r) s = k b () s') ∨
      ∃ e s', (allocBlock >>= fun r => storeWord a (BitVec.ofNat 32 r) >>= k r) s =
        some (.error e, s') ∧ Fills f s s' := by
  rcases allocBlock_spec ho with ⟨-, hrun⟩ | ⟨b, rest, hfb, ⟨s₁, hrun, ht⟩ | ⟨-, -, s₁, hrun, he, hview, -, hmap⟩⟩
  · exact .inr ⟨_, s, bind_of_error hrun, .refl f s⟩
  · have hb : u = .indirect ∨ Grows s f u → s.Blank b := fun hg => hblank hg b (by rw [hfb]; exact List.mem_cons_self)
    have hatt := ht.attach ho hf ha hm hnone fun hi => hb (.inl hi)
    refine .inl ⟨b, _, hatt, .of_attached hatt ho (fun hg => hb (.inr hg)) hu, ?_, ?_⟩
    · rw [put_mem, Function.update_self]
    · rw [bind_of_ok hrun]
      rfl
  · exact .inr ⟨_, s₁, bind_of_error hrun,
      .of_still (he.still_of (W := fun _ => False) (fun a _ => hview a) ho id (fun _ _ => id) fun _ _ _ _ => id) hf⟩

theorem fileBlockWalk_fills (ho : Owned s) (hf : File s f) (hheld : Fs.Held s f)
    (hclean : nDirect ≤ i → s.indirect f = none → s.Clean 1) {r : Except Int Nat}
    (hrun : fileBlockWalk f i true s = some (r, s')) : Fills f s s' := by
  by_cases h₁ : i < nDirect
  · unfold fileBlockWalk at hrun
    rw [if_pos h₁] at hrun
    cases hrun
    exact .refl f s
  · by_cases h₂ : i < nIndirect
    · have hind44 : s.mapped (fIndirect f / blockWords) = true := hheld 44 (by decide)
      cases hind : s.indirect f with
      | some b =>
        have hslot : s.slotWord f (.block i) = some (diskAddr b + i) := by rw [slot_indirect h₁, if_pos h₂, hind]; rfl
        obtain ⟨r', s₁, hwalk, hl, -⟩ := fileBlockWalk_spec hheld hslot (fun c _ hc => ho.data_indirect hf hc) true
        cases hrun.symm.trans hwalk
        exact ho.fills_loads hf hl fun c hc => (hc.elim (ho.data_block hf) fun hc => ho.data_indirect hf hc.2).used
      | none =>
        have h0 : s.mem (fIndirect f) = 0 := by
          rw [mem_eq_view hind44]
          by_contra hne
          exact Option.some_ne_none _ ((if_neg hne).symm.trans hind)
        unfold fileBlockWalk at hrun
        rw [if_neg h₁, if_pos h₂,
          bind_of_ok (show loadWord (fIndirect f) s = some (.ok (s.mem (fIndirect f)), s) from rfl),
          if_pos h0] at hrun
        rcases allocInto_fills (U := (· = .indirect)) ho hf (u := .indirect) rfl hind44 hind rfl
            (fun _ => hclean (Nat.not_lt.1 h₁) hind)
          (fun _ _ => loadWord (fIndirect f) >>= fun r => readBlock r.toNat >>= fun _ => pure (diskAddr r.toNat + i))
          with ⟨b, s₁, hatt, hext, hmem, hk⟩ | ⟨e, s₁, hk, hfill⟩
        · have hb : s₁.indirect f = some b := (hatt.holds .indirect).trans (if_pos rfl)
          have hf₁ := hext.file f hf
          have hd : Data s₁ b := hext.owned.data_indirect hf₁ hb
          have hto : (BitVec.ofNat 32 b).toNat = b := by
            rw [BitVec.toNat_ofNat, Nat.mod_eq_of_lt (Nat.lt_trans hd.lt (sNblocks_lt s₁))]
          obtain ⟨r', s₂, hread, hl, -⟩ := readBlock_spec hd
          have hfill := (Fills.of_attached hatt).trans (hext.owned.fills_loads hf₁ hl fun c hc => hc ▸ hd.used)
          have hrest : (loadWord (fIndirect f) >>= fun r => readBlock r.toNat >>= fun _ =>
            pure (diskAddr r.toNat + i)) s₁ = some (r, s') :=
            hk.symm.trans hrun
          rw [bind_of_ok (show loadWord (fIndirect f) s₁ = some (.ok (BitVec.ofNat 32 b), s₁) by rw [← hmem]; rfl),
            hto] at hrest
          cases r' with
          | ok c =>
            rw [bind_of_ok hread] at hrest
            cases hrest
            exact hfill
          | error e =>
            rw [bind_of_error hread] at hrest
            cases hrest
            exact hfill
        · cases hrun.symm.trans hk
          exact hfill
    · unfold fileBlockWalk at hrun
      rw [if_neg h₁, if_neg h₂] at hrun
      cases hrun
      exact .refl f s

theorem fileMapBlock_fills (ho : Owned s) (hf : File s f) (hheld : Fs.Held s f)
    (hclean : nDirect ≤ i → s.indirect f = none → s.Clean 1)
    (hgrow : Grows s f (.block i) → s.Clean (1 + s.wants f i)) {r : Except Int Nat}
    (hrun : fileMapBlock f i true s = some (r, s')) :
    Fills f s s' := by
  obtain ⟨r₁, s₁, hwalk, hext, hres⟩ := fileBlockWalk_alloc ho hf hheld hclean
  have hfill := fileBlockWalk_fills ho hf hheld hclean hwalk
  unfold fileMapBlock at hrun
  rcases hres with ⟨a, rfl, hslot, hm, hfb⟩ | ⟨e, rfl, -⟩
  · have hf₁ := hext.file f hf
    have hat : s₁.vol.holds f (.block i) = (if s₁.mem a = 0 then none else some (s₁.mem a).toNat) := by
      have hh := holds_eq s₁ f (.block i)
      rw [hslot, Option.bind_some, ← mem_eq_view hm] at hh
      exact hh
    rw [bind_of_ok hwalk, bind_of_ok (show loadWord a s₁ = some (.ok (s₁.mem a), s₁) from rfl)] at hrun
    by_cases h0 : s₁.mem a = 0
    · have hblank : (Use.block i = .indirect ∨ Grows s₁ f (.block i)) → s₁.Clean 1 := by
        rintro (hc | hg)
        · cases hc
        · refine hext.clean ho hf ?_ (hgrow (hext.grows.1 hg))
          rw [hfb, Nat.add_comm, List.take_add]
          exact List.subset_append_right _ _
      simp only [if_pos h0, if_true] at hrun
      rcases allocInto_fills (U := Use.Of i) hext.owned hf₁ hslot hm (hat.trans (if_pos h0)) (.inr rfl) hblank
        (fun _ _ => loadWord a >>= fun r => pure r.toNat) with ⟨b, s₂, hatt, -, -, hk⟩ | ⟨e, s₂, hk, hfill₂⟩
      · have hrest : (loadWord a >>= fun r => pure r.toNat : FsM Nat) s₂ = some (r, s') := hk.symm.trans hrun
        cases hrest
        exact hfill.trans (.of_attached hatt)
      · cases hrun.symm.trans hk
        exact hfill.trans hfill₂
    · simp only [if_neg h0] at hrun
      cases hrun
      exact hfill
  · rw [bind_of_error hwalk] at hrun
    cases hrun
    exact hfill

/-- **`file_get_block`** attaches what it takes. -/
theorem fileGetBlock_fills (ho : Owned s) (hf : File s f) (hheld : Fs.Held s f)
    (hclean : nDirect ≤ i → s.indirect f = none → s.Clean 1)
    (hgrow : Grows s f (.block i) → s.Clean (1 + s.wants f i)) {r : Except Int Nat}
    (hrun : fileGetBlock f i s = some (r, s')) :
    Fills f s s' := by
  obtain ⟨r₁, s₁, hmap, hext, hres⟩ := fileMapBlock_alloc ho hf hheld hclean hgrow
  have hfill := fileMapBlock_fills ho hf hheld hclean hgrow hmap
  unfold fileGetBlock at hrun
  rcases hres with ⟨b, rfl, hb, -⟩ | ⟨e, rfl, -⟩
  · have hf₁ := hext.file f hf
    have hd : Data s₁ b := hext.owned.data_block hf₁ hb
    obtain ⟨r₂, s₂, hread, hl, -⟩ := readBlock_spec hd
    have hfill₂ := hfill.trans (hext.owned.fills_loads hf₁ hl fun c hc => hc ▸ hd.used)
    rw [bind_of_ok hmap] at hrun
    cases r₂ with
    | ok c =>
      rw [bind_of_ok hread] at hrun
      cases hrun
      exact hfill₂
    | error e =>
      rw [bind_of_error hread] at hrun
      cases hrun
      exact hfill₂
  · rw [bind_of_error hmap] at hrun
    cases hrun
    exact hfill

namespace Fs

/-- **A directory gets its block.** -/
theorem Grown.fills (h : Kept s) (hd : Dir s d) (hheld : Fs.Held s d) (hroom : s.Room d) {r : Except Int Nat}
    (hrun : fileGetBlock d (s.nblocks d) (s.put (fSize d) (s.view (fSize d) + 4096)) = some (r, s')) :
    Fills d s s' := by
  have ho := h.toOwned
  obtain ⟨hsized, hcount, hfiles⟩ := put_grows h hd hheld hroom.index
  generalize hs₁ : s.put (fSize d) (s.view (fSize d) + 4096) = s₁ at hsized hcount hfiles hrun
  have hwants := wants_congr (congrFun hsized.holds .indirect) (s.nblocks d)
  have hclean : s₁.Clean (1 + s.wants d (s.nblocks d)) := by
    refine hroom.clean.edit ho.up hsized.owned.up hsized.edit hsized.sNblocks hsized.free
      (fun c _ hm => hsized.mapped ▸ hm) ?_
    rintro a rfl
    exact (ho.word_not_bitmap hd.file (show 32 < fileWords by decide)).2
  have hone : s₁.Clean 1 := fun c hc => hclean c (List.take_subset_take_left _ (Nat.le_add_right 1 _) hc)
  have hsize : Fills d s s₁ := .of_free hsized.sNblocks hsized.holds hsized.free
  refine hsize.trans (fileGetBlock_fills hsized.owned (hfiles d hd.file).1 (hsized.edit.held hheld) (fun _ _ => hone)
    (fun _ => ?_) hrun)
  rw [hwants]
  exact hclean

end Fs

/-- **`dir_alloc_file`** attaches what it takes to the directory. -/
theorem dirAllocFile_fills (h : Fs.Kept s) (hd : Dir s d) (hheld : Fs.Held s d)
    (hroom : s.freeEntry d = none → s.Room d) {r : Except Int Nat} (hrun : dirAllocFile d s = some (r, s')) :
    Fills d s s' := by
  rcases dirAllocFile_cases h.tree hd hheld
      with ⟨f, s₁, -, hcase, hp, -⟩ | ⟨s₁, hcase, hp, -⟩ | ⟨s₁, hfree, hp, hheld₁, hcase⟩
  · cases hrun.symm.trans hcase
    exact .of_still ((quiet_of_passes hp).still h.toOwned) hd.file
  · cases hrun.symm.trans hcase
    exact .of_still ((quiet_of_passes hp).still h.toOwned) hd.file
  · have hq := quiet_of_passes hp
    have hstill := hq.still h.toOwned
    have hd₁ : Dir s₁ d := h.dir_passes hp not_nobody hd
    have hn : s₁.nblocks d = s.nblocks d := (hstill.agree hd.file).count
    have hview : s₁.view (fSize d) = s.view (fSize d) := hq.edit.view _ id
    have hget := hcase.symm.trans hrun
    rw [← hn, ← hview] at hget
    exact (Fills.of_still hstill hd.file).trans
      (Grown.fills (h.quiet hq) hd₁ hheld₁ ((hroom hfree).quiet h.toOwned hq) hget)

/-! ## Creating -/

namespace Fs

/-- **An entry that was found or made loses no block.** -/
theorem Allotted.losesNone (ha : Allotted d f s s') (hd : Dir s d) (hfill : Fills d s s') : LosesNone s s' := by
  have hlist : ∀ x, Dir s x → s.listing x ⊆ s'.listing x := by
    intro x hx
    by_cases hxd : x = d
    · subst hxd
      rcases ha.entry with ⟨-, hsame, -⟩ | ⟨-, b, -, hgrown, -⟩
      · rw [hsame]
        exact List.Subset.refl _
      · rw [hgrown]
        exact List.subset_append_left _ _
    · rw [listing_congr (ha.others x hx.file hxd)]
      exact List.Subset.refl _
  have hdir : ∀ x, Dir s x → s'.IsDir x := by
    intro x hx
    by_cases hxd : x = d
    · exact hxd ▸ ha.isDir
    · exact (ha.others x hx.file hxd).dir.2 hx.isDir
  have hobj : ∀ e, Object s e → Object s' e := fun e he => he.mono fun x e hx he hne => by
    refine ⟨hdir x hx, hlist x hx he, ?_⟩
    rw [nameOf_congr fun k hk => ha.words e (hx.entry he) k (Nat.lt_trans hk (by decide)) (.inl hk)]
    exact hne
  refine ⟨hfill.sNblocks, fun b hb hr => ?_⟩
  rcases hr with hfree | ⟨e, u, he, hu⟩
  · obtain ⟨u, hu⟩ := hfill.taken b hfree hb
    exact ⟨d, u, hobj d hd.object, hu⟩
  · refine ⟨e, u, hobj e he, ?_⟩
    by_cases hed : e = d
    · exact hed ▸ hfill.keeps u b (hed ▸ hu)
    · rw [(ha.others e he.file hed).holds]
      exact hu

/-- **An entry that gets a name** loses none. -/
theorem losesNone_name {name : List (BitVec 8)} (h : Kept s) (hf : File s f) (hheld : Fs.Held s f)
    (h0 : (0 : BitVec 8) ∉ name) (hlen : name.length < maxNameLen) (hne : name ≠ []) :
    LosesNone s { s with mem := putName s.mem f name } := by
  obtain ⟨hedit, hnamed⟩ := put_name hheld h0 hlen
  obtain ⟨-, hstill⟩ := h.field hf hedit fun a ⟨k, hk, heq⟩ => ⟨k, Nat.lt_trans hk (by decide), heq, .inl hk⟩
  generalize { s with mem := putName s.mem f name } = s' at *
  have hother : ∀ e, File s e → e ≠ f → s'.nameOf e = s.nameOf e := fun e he hef =>
    nameOf_congr fun k hk => hedit.view _ fun ⟨k', hk', heq⟩ =>
      hef (h.toOwned.word_sole he hf (Nat.lt_trans hk (by decide)) (Nat.lt_trans hk' (by decide)) heq)
  have hobj : ∀ e, Object s e → Object s' e := fun e he => he.mono fun x e hx he hname => by
    refine ⟨(hstill.agree hx.file).dir.2 hx.isDir, by rw [listing_congr (hstill.agree hx.file)]; exact he, ?_⟩
    by_cases hef : e = f
    · rw [hef, hnamed]
      exact hne
    · rw [hother e (hx.entry he) hef]
      exact hname
  refine .of_others (f := sRoot) hstill.sNblocks (fun b hb => (hstill.free b).trans hb) (fun e he => .inr (hobj e he))
    (fun e he _ => (hstill.agree he.file).holds) fun u b he hu _ => ⟨hobj _ he, ?_⟩
  rw [(hstill.agree he.file).holds]
  exact hu

end Fs

variable {path : List (BitVec 8)} {omode : Word}

/-- **`file_create`** -/
theorem fileCreate_losesNone (h : Fs.Kept s) (h0 : (0 : BitVec 8) ∉ path) (hc : s.Creatable path) {r : Except Int Nat}
    (hrun : fileCreate path s = some (r, s')) : LosesNone s s' := by
  obtain ⟨w, s₁, hwalk, hp, harr, hw⟩ := walkPath_spec h.tree h0
  have hstays := h.stays_passes hp walk_entry
  have hwalked := h.losesNone_passes hp walk_entry
  unfold fileCreate at hrun
  rw [bind_of_ok hwalk] at hrun
  rcases hw with rfl | ⟨rfl, -⟩
  · rcases path_cases s path with ⟨p, f, hr, hobj⟩ | ⟨d, name, hr, hm, hin⟩ | hr | hr
    · rw [hr] at hrun
      cases hrun
      exact hwalked
    · have hheld : Fs.Held s₁ d := harr.dir d (by rw [hr]) (by rw [hr])
      have hd₁ := h.dir_passes hp walk_entry hm.dir
      have hroom : s₁.freeEntry d = none → s₁.Room d := fun hfree =>
        (hc d name hr ((passes_freeEntry h hp walk_entry hm.dir).symm.trans hfree)).passes h hp walk_entry hm.dir.file
      rw [hr] at hrun
      simp only [show (-eNotFound : Int) ≠ 0 by decide, if_false, ne_eq, not_true_eq_false] at hrun
      rcases dirAllocFile_spec hstays.kept hd₁ hheld hroom with ⟨f, s₂, hal, ha⟩ | ⟨s₂, hal, hp₂, -⟩
      · have hfill := dirAllocFile_fills hstays.kept hd₁ hheld hroom hal
        rw [bind_attempt hal] at hrun
        obtain ⟨i, hi, b, hb, hinside⟩ := mem_listing.1 ha.mem
        have hf₂ : File s₂ f := .entry d i b f (ha.file d hd₁.file) ha.isDir hi hb hinside
        have hname := losesNone_name ha.kept hf₂ ha.held (zero_not_mem h0 hin) hm.length hm.ne_nil
        cases hrun
        exact (hwalked.trans (ha.losesNone hd₁ hfill)).trans hname
      · rw [bind_attempt hal] at hrun
        cases hrun
        exact hwalked.trans (hstays.kept.losesNone_passes hp₂ not_nobody)
    · rw [hr] at hrun
      cases hrun
      exact hwalked
    · rw [hr] at hrun
      cases hrun
      exact hwalked
  · cases hrun
    exact hwalked

/-! ## Cutting -/

namespace Fs

/-- **No block from index `k` on is behind the end** of the file. -/
def Within (s : Fs) (f k : Nat) : Prop := ∀ i, k ≤ i → nblocksOf (s.view (fSize f)) ≤ i → s.blockAt f i = none

/-- **No entry of the directory has a name.** -/
def Childless (s : Fs) (f : Nat) : Prop := s.IsDir f → ∀ e ∈ s.listing f, s.nameOf e = []

theorem Within.congr {k : Nat} (h : s.Within f k) (hsize : s'.view (fSize f) = s.view (fSize f))
    (hholds : s'.vol.holds f = s.vol.holds f) :
    s'.Within f k := by
  intro i hi hold
  rw [hsize] at hold
  exact (congrFun hholds (.block i)).trans (h i hi hold)

theorem Within.freed {n : Nat} (h : n ≤ nDirect → s.Within f nDirect) (hw : CutGone n (nblocksOf (s.view (fSize f))) u)
    (hb : s.vol.holds f u = some b) : CutFree n (nblocksOf (s.view (fSize f))) u := by
  rcases hw with hcut | ⟨h10, rfl | ⟨-, i, hi, rfl⟩⟩
  · exact .inl hcut
  · exact .inr ⟨h10, rfl⟩
  · by_cases hold : i < nblocksOf (s.view (fSize f))
    · exact .inl ⟨i, Nat.le_trans h10 hi, hold, rfl⟩
    · have hnone : s.vol.holds f (.block i) = none := h h10 i hi (Nat.not_lt.1 hold)
      rw [hnone] at hb
      cases hb

theorem Edit.same_cut (he : Edit (fun a => s.InBitmap a ∨ s.InSlots f a ∨ a = fSize f) s s') (ho : Owned s)
    (hf : File s f) (hfe : File s e) (hef : e ≠ f) : SameFile e s s' := by
  refine he.same ho hfe ?_
  rintro a (hw | hw | hw)
  · exact .inl hw
  · exact .inr (.inr (.inl ⟨f, hf, hef.symm, .inl hw⟩))
  · exact .inr (.inr (.inl ⟨f, hf, hef.symm, .inr ⟨32, by decide, hw⟩⟩))

end Fs

/-- **Another size loses no block**, where what is behind the end goes with no indirect block, and nothing is in the
directory. -/
theorem Resized.losesNone {n : Word} (hr : Resized f n s s') (h : Fs.Kept s) (hf : File s f)
    (hw : n < s.view (fSize f) → nblocksOf n ≤ nDirect → s.Within f nDirect) (hc : s.Childless f) : LosesNone s s' := by
  have ho := h.toOwned
  have hsame : ∀ e, File s e → e ≠ f → SameFile e s s' := fun e he hef => hr.edit.same_cut ho hf he hef
  have hname : s'.nameOf f = s.nameOf f := by
    refine nameOf_congr fun k hk => hr.edit.view _ ?_
    have hk' : k < fileWords := Nat.lt_trans hk (by decide)
    rintro (hbit | hslot | hsize)
    · exact (ho.word_not_bitmap hf hk').1 hbit
    · exact ho.word_not_slot hf hf hk' (.inr (.inl (by omega))) hslot
    · exact absurd (Nat.add_left_cancel hsize) (Nat.ne_of_lt hk)
  have hobj : ∀ e, Object s e → Object s' e := fun e he => he.mono fun x e hx he hne => by
    have hxf : x ≠ f := by
      rintro rfl
      exact hne (hc hx.isDir e he)
    have hag := (hsame x hx.file hxf).agree
    refine ⟨hag.dir.2 hx.isDir, by rw [listing_congr hag]; exact he, ?_⟩
    by_cases hef : e = f
    · rw [hef, hname, ← hef]
      exact hne
    · rw [(hsame e (hx.entry he) hef).name]
      exact hne
  refine .of_others hr.sNblocks (fun b hb => (hr.free b).2 (.inl hb)) (fun e he => .inr (hobj e he))
    (fun e he hef => (hsame e he.file hef).holds) fun u b he hu hused => ⟨hobj f he, ?_⟩
  by_cases hg : s.Lets f n CutGone u
  · rw [(hr.free b).2 (.inr ⟨u, ⟨hg.1, Within.freed (hw hg.1) hg.2 hu⟩, hu⟩)] at hused
    cases hused
  · rw [hr.keeps u hg]
    exact hu

/-- **`file_set_size`** -/
theorem fileSetSize_losesNone {n : Word} (h : Fs.Kept s) (hf : File s f) (hheld : Fs.Held s f)
    (htrim : n < s.view (fSize f) → s.Trims f n)
    (hw : n < s.view (fSize f) → nblocksOf n ≤ nDirect → s.Within f nDirect) (hc : s.Childless f)
    {r : Except Int Unit} (hrun : fileSetSize f n s = some (r, s')) : LosesNone s s' := by
  obtain ⟨s₁, hset, hr⟩ := fileSetSize_resizes h.toSound hf hheld (h.linked hf) htrim
  cases hrun.symm.trans hset
  exact hr.losesNone h hf hw hc

/-- **`file_remove`** loses no block of a file without blocks behind its end, or of a directory with nothing in it. -/
theorem fileRemove_losesNone (h : Fs.Kept s) (h0 : (0 : BitVec 8) ∉ path)
    (hcuts : ∀ p f, s.resolve none sRoot (components path) = ⟨0, p, some f, []⟩ →
      (s.Cuts f 0 ∧ false ∉ s.pages) ∧ s.Within f 0 ∧ s.Childless f) {r : Except Int Unit}
    (hrun : fileRemove path s = some (r, s')) : LosesNone s s' := by
  obtain ⟨r', s₁, s₄, hrem, hp, hres⟩ := fileRemove_cases h h0 fun p f hr => (hcuts p f hr).1
  cases hrun.symm.trans hrem
  have hstays := h.stays_passes hp walk_entry
  have hwalked := h.losesNone_passes hp walk_entry
  rcases hres with rfl | ⟨p, f, s₂, s₃, hr, hobj, hclear⟩
  · exact hwalked
  · obtain ⟨-, hwithin, hchild⟩ := hcuts p f hr
    have hf := hobj.file
    have ho₁ := hstays.kept.toOwned
    have hf₁ := hstays.file f hf
    have hsame₁ : ∀ e, File s e → SameFile e s s₁ := fun e he => h.same_passes hp walk_entry he
    have hwithin₁ : s₁.Within f 0 := (hwithin.congr (hsame₁ f hf).size (hsame₁ f hf).holds)
    have hchild₁ : s₁.Childless f := by
      intro hdir e he
      have hd := (hsame₁ f hf).dir.1 hdir
      rw [listing_congr (hsame₁ f hf).agree] at he
      rw [(hsame₁ e (Dir.entry ⟨hobj, hd⟩ he)).name]
      exact hchild hd e he
    have hsheds := hclear.sheds
    have hfs₂ := hsheds.file_self ho₁ hf₁
    obtain ⟨hn₂, hfree₂⟩ := put_free (s := s₂) 0 (hsheds.owned.touches_ne_super hfs₂ (touches_size f s₂))
      (hsheds.owned.touches_ne hfs₂ (touches_size f s₂)).1
    have hstill := hclear.still
    refine (hwalked.trans ?_).trans (hclear.kept.losesNone_quiet hclear.quiet)
    have hfree : ∀ b, s₃.blockIsFree b = s₂.blockIsFree b := fun b => (hstill.free b).trans (hfree₂ b)
    have hsame : ∀ e, File s₁ e → e ≠ f → SameFile e s₁ s₃ := fun e he hef => hclear.same ho₁ hf₁ he hef
    -- all objects stay but the one that is removed: it has none in it
    have hobj : ∀ e, Object s₁ e → e = f ∨ Object s₃ e := by
      intro e he
      induction he with
      | root => exact .inr .root
      | entry x e hx hdir he hname ih =>
        have hxf : x ≠ f := by
          rintro rfl
          exact hname (hchild₁ hdir e he)
        have hag := (hsame x hx.file hxf).agree
        by_cases hef : e = f
        · exact .inl hef
        · refine .inr (.entry x e (ih.resolve_left hxf) (hag.dir.2 hdir) (by rw [listing_congr hag]; exact he) ?_)
          rw [(hsame e (Dir.entry ⟨hx, hdir⟩ he) hef).name]
          exact hname
    refine .of_others (hstill.sNblocks.trans (hn₂.trans hsheds.sNblocks)) (fun b hb => ?_) hobj
      (fun e he hef => (hsame e he.file hef).holds) fun u b _ hu hused => ?_
    · rw [hfree]
      exact (hsheds.free b).2 (.inl hb)
    · have hcutfree : CutFree 0 (nblocksOf (s₁.view (fSize f))) u :=
        Within.freed (fun _ i hi hold => hwithin₁ i (Nat.zero_le i) hold) (by
          cases u with
          | indirect => exact .inr ⟨by decide, .inl rfl⟩
          | block i =>
            by_cases hold : i < nblocksOf (s₁.view (fSize f))
            · exact .inl ⟨i, Nat.zero_le i, hold, rfl⟩
            · have hnone : s₁.vol.holds f (.block i) = none := hwithin₁ i (Nat.zero_le i) (Nat.not_lt.1 hold)
              rw [hnone] at hu
              cases hu) hu
      rw [hfree, (hsheds.free b).2 (.inr ⟨u, hcutfree, hu⟩)] at hused
      cases hused

/-! ## The other functions -/

/-- **`file_get_block`**, for a block that is there, or for an object. -/
theorem fileGetBlock_losesNone (h : Fs.Kept s) (hf : File s f) (hheld : Fs.Held s f)
    (hdir : s.IsDir f → i < s.nblocks f) (hclean : nDirect ≤ i → s.indirect f = none → s.Clean 1)
    (hobj : Object s f ∨ (s.blockAt f i).isSome) {r : Except Int Nat} (hrun : fileGetBlock f i s = some (r, s')) :
    LosesNone s s' := by
  have ho := h.toOwned
  cases hb : s.blockAt f i with
  | some b =>
    obtain ⟨r', s₁, hget, hl, -⟩ := fileGetBlock_spec hheld hb (ho.data_block hf hb) h.up fun c _ hc =>
        ho.data_indirect hf hc
    cases hrun.symm.trans hget
    refine h.losesNone_quiet (.of_loads hl fun c hc => ?_)
    rcases hc with hc | ⟨-, hc⟩
    · exact (ho.data_block hf hc).used
    · exact (ho.data_indirect hf hc).used
  | none =>
    have hobj := hobj.resolve_right (by rw [hb]; exact Bool.false_ne_true)
    have hreg : ¬s.IsDir f := fun hd => by
      have hsome := (h.blockAt_iff hf hd).1 (hdir hd)
      rw [hb] at hsome
      cases hsome
    obtain ⟨r', s₁, hget, hext, -⟩ := fileGetBlock_alloc ho hf hheld hclean fun hg => absurd hg.1 hreg
    have hfill := fileGetBlock_fills ho hf hheld hclean (fun hg => absurd hg.1 hreg) hget
    cases hrun.symm.trans hget
    have hname : ∀ e, File s e → s'.nameOf e = s.nameOf e := fun e he => by
      refine nameOf_congr fun k hk => hext.edit.view _ ?_
      have hk' : k < fileWords := Nat.lt_trans hk (by decide)
      obtain ⟨hbit, hused⟩ := ho.word_not_bitmap he hk'
      rintro (hw | ⟨hw, -⟩ | hw)
      · exact hbit hw
      · rw [hused] at hw
        cases hw
      · exact ho.word_not_slot he hf hk' (.inr (.inl (by omega))) hw
    have hobjs : ∀ e, Object s e → Object s' e := fun e he => he.mono fun x e hx he hne => by
      have hag := hext.others x hx.file fun hxf => hreg (hxf ▸ hx.isDir)
      exact ⟨hag.dir.2 hx.isDir, by rw [listing_congr hag]; exact he, by rw [hname e (hx.entry he)]; exact hne⟩
    refine ⟨hfill.sNblocks, fun c hc hr => ?_⟩
    rcases hr with hfree | ⟨e, u, he, hu⟩
    · obtain ⟨u, hu⟩ := hfill.taken c hfree hc
      exact ⟨f, u, hobjs f hobj, hu⟩
    · refine ⟨e, u, hobjs e he, ?_⟩
      by_cases hef : e = f
      · exact hef ▸ hfill.keeps u c (hef ▸ hu)
      · rw [(hext.others e he.file hef).holds]
        exact hu

/-- **An empty file becomes a directory.** -/
theorem putDir_losesNone (h : Fs.Kept s) (hf : File s f) (hheld : Fs.Held s f) (hbare : s.IsDir f ∨ s.Bare f) :
    LosesNone s (s.put (fType f) ftypeDir) := by
  by_cases hd : s.IsDir f
  · exact h.losesNone_quiet (putDir_quiet hheld hd)
  · have hbare := hbare.resolve_left hd
    have hedit : Fs.Edit (· = fType f) s (s.put (fType f) ftypeDir) := put_edit ftypeDir
    obtain ⟨hn, hfree⟩ :=
      put_free (s := s) ftypeDir (h.toOwned.touches_ne_super hf (.inl ⟨33, by decide, by decide, rfl⟩))
      (h.toOwned.touches_ne hf (.inl ⟨33, by decide, by decide, rfl⟩)).1
    have hsame : ∀ e, File s e → e ≠ f → SameFile e s (s.put (fType f) ftypeDir) :=
      fun e he hef => same_put h he hf hef (by decide)
    have hname : ∀ e, File s e → (s.put (fType f) ftypeDir).nameOf e = s.nameOf e := fun e he => by
      by_cases hef : e = f
      · rw [hef]
        exact nameOf_congr fun k hk => hedit.view _ fun hc => absurd (Nat.add_left_cancel hc) (by omega)
      · exact (hsame e he hef).name
    have hobj : ∀ e, Object s e → Object (s.put (fType f) ftypeDir) e := fun e he => he.mono fun x e hx he hne => by
      have hag := (hsame x hx.file fun hxf => hd (hxf ▸ hx.isDir)).agree
      exact ⟨hag.dir.2 hx.isDir, by rw [listing_congr hag]; exact he, by rw [hname e (hx.entry he)]; exact hne⟩
    refine .of_others hn (fun b hb => (hfree b).trans hb) (fun e he => .inr (hobj e he))
      (fun e he hef => (hsame e he.file hef).holds)
      fun u b _ hu _ => ?_
    rw [hbare.holds] at hu
    cases hu

/-- **A client writes a block** of a file that is no directory. -/
theorem write_losesNone {a : Nat} {w : Word} (h : Fs.Kept s) (hf : File s f) (hreg : ¬s.IsDir f)
    (hb : s.blockAt f i = some (a / blockWords)) :
    LosesNone s (s.put a w) := by
  obtain ⟨-, hstill⟩ := h.write hf hreg hb rfl (put_edit w)
  obtain ⟨-, -, hword, -⟩ := h.toOwned.data_word hf hreg hb rfl
  refine .of_same hstill.sNblocks hstill.free (fun e he => ?_) fun e he => hstill.agree he
  exact nameOf_congr fun k hk => (put_edit w).view _ fun hc => hword e he k (Nat.lt_trans hk (by decide)) hc.symm

theorem Fs.NoLeak.holds_none (h : s.NoLeak) (ho : Owned s) (he : File s e) (hno : ¬Object s e) (u : Use) :
    s.vol.holds e u = none := by
  cases hu : s.vol.holds e u with
  | none => rfl
  | some b =>
    have hd : Data s b := ho.vol.used e u b he hu
    rcases h b hd.lt hd.used with hlt | ⟨f, w, hobj, hw⟩
    · exact absurd hd.le (Nat.not_le.2 hlt)
    · obtain ⟨rfl, -⟩ := ho.vol.sole e f u w b he hobj.file hu hw
      exact absurd hobj hno

/-! ## Opening -/

/-- What an open with `O_TRUNC` cuts off has nothing in its indirect block behind its end. -/
def Fs.TruncKeeps (s : Fs) (path : List (BitVec 8)) (omode : Word) : Prop :=
  omode &&& oTrunc ≠ 0 → ∀ p f, s.resolve none sRoot (components path) = ⟨0, p, some f, []⟩ → s.Within f nDirect

theorem Fs.TruncKeeps.passes {P : Nat → Prop} (ht : s.TruncKeeps path omode) (h : Fs.Kept s) (hp : Passes P s s')
    (hP : ∀ f, P f → Entry s f) :
    s'.TruncKeeps path omode := by
  intro hm p f hr
  rw [passes_resolve h hp hP components_ne_nil none] at hr
  have htarget : s.Target path f := .inl ⟨p, hr⟩
  have hf := htarget.file
  have hsame := h.same_passes hp hP hf
  exact (ht hm p f hr).congr hsame.size hsame.holds

theorem Fs.TruncKeeps.made {name : List (BitVec 8)} (h : Fs.Kept s) (hnl : s.NoLeak) (hm : Made d f name s s')
    (hmiss : Missing s d name) (hr : s.resolve none sRoot (components path) = ⟨-eNotFound, some d, none, name⟩) :
    s'.TruncKeeps path omode := by
  intro _ p x hx
  cases (hm.resolve hmiss hr).symm.trans hx
  have hnone : s'.indirect f = none := by
    rcases hm.fields with ⟨hfree, hsame⟩ | ⟨-, hzero⟩
    · have htarget : s.Target path f := .inr ⟨d, name, hr, hfree⟩
      have hf := htarget.file
      have hno : s.vol.holds f .indirect = none :=
        hnl.holds_none h.toOwned hf (fun hobj => hobj.not_free h.toOwned hmiss.dir hfree) .indirect
      exact (indirect_congr (hsame 44 (by decide) (by decide))).trans hno
    · exact if_pos (hzero 44 (by decide) (by decide))
  exact fun i hi _ => holds_indirect_none hnone (.inr ⟨rfl, i, hi, rfl⟩)

namespace Serv

variable {srv srv' : Server} {refs : Nat → Nat}

theorem createIf_noLeak (h : Fs.Kept srv.fs) (h0 : (0 : BitVec 8) ∉ path) (hs : srv.fs.OpenSafe path omode) {b : Bool}
    (hb : b = true → omode &&& oMkdir ≠ 0 ∨ omode &&& oCreat ≠ 0) (hnl : srv.fs.NoLeak)
    (ht : srv.fs.TruncKeeps path omode) {r : Except Int Unit} (hrun : createIf b path srv = some (r, srv')) :
    srv'.fs.NoLeak ∧ (r = .ok () → srv'.fs.TruncKeeps path omode) := by
  cases b with
  | false =>
    cases hrun
    exact ⟨hnl, fun _ => ht⟩
  | true =>
    have hcreatable := hs.creatable (hb rfl)
    obtain ⟨r₁, s₁, hcr, hres⟩ := fileCreate_spec h h0 hcreatable
    have hnl₁ := hnl.step (fileCreate_losesNone h h0 hcreatable hcr)
    unfold createIf at hrun
    simp only [if_true] at hrun
    rw [bind_attempt (onFs_run hcr)] at hrun
    rcases hres with ⟨d, f, name, rfl, hr, hmiss, hmade⟩ | ⟨e, rfl, hpass⟩
    · cases hrun
      exact ⟨hnl₁, fun _ => .made h hnl hmade hmiss hr⟩
    · dsimp only at hrun
      split at hrun
      · cases hrun
        exact ⟨hnl₁, fun _ => ht.passes h hpass fun _ hf => hf⟩
      · cases hrun
        exact ⟨hnl₁, fun hc => by cases hc⟩

/-- **`serve_open`** -/
theorem serveOpen_noLeak {reply : Reply} (h : Fs.Kept srv.fs) (h0 : (0 : BitVec 8) ∉ path)
    (hs : srv.fs.OpenSafe path omode) (hnl : srv.fs.NoLeak) (ht : srv.fs.TruncKeeps path omode)
    (hrun : serveOpen refs path omode srv = some (.ok reply, srv')) :
    srv'.fs.NoLeak := by
  unfold serveOpen at hrun
  obtain ⟨r, s₁, halloc, hp₁, -, -⟩ := openAlloc_spec refs srv
  have hst₁ := h.stays_passes hp₁ not_nobody
  have hs₁ := hs.passes h hp₁ not_nobody
  have hnl₁ := hnl.step (h.losesNone_passes hp₁ not_nobody)
  have ht₁ := ht.passes h hp₁ not_nobody
  cases r with
  | error e =>
    cases hrun.symm.trans (answer_error (bind_of_error halloc))
    exact hnl₁
  | ok i =>
    have hb : (omode &&& oMkdir != 0) = true → omode &&& oMkdir ≠ 0 ∨ omode &&& oCreat ≠ 0 :=
      fun hb => .inl (by simpa using hb)
    obtain ⟨r, s₂, hmk, ⟨-, hst₂, -, -⟩, hs₂⟩ := createIf_spec hst₁.kept h0 hs₁ hb
    obtain ⟨hnl₂, ht₂⟩ := createIf_noLeak hst₁.kept h0 hs₁ hb hnl₁ ht₁ hmk
    cases r with
    | error e =>
      cases hrun.symm.trans (answer_error ((bind_of_ok halloc).trans (bind_of_error hmk)))
      exact hnl₂
    | ok u =>
      have hb : (omode &&& oCreat != 0) = true → omode &&& oMkdir ≠ 0 ∨ omode &&& oCreat ≠ 0 :=
        fun hb => .inr (by simpa using hb)
      obtain ⟨r, s₃, hcr, ⟨-, hst₃, -, -⟩, hs₃⟩ := createIf_spec hst₂.kept h0 (hs₂ rfl) hb
      obtain ⟨hnl₃, ht₃⟩ := createIf_noLeak hst₂.kept h0 (hs₂ rfl) hb hnl₂ (ht₂ rfl) hcr
      cases r with
      | error e =>
        cases hrun.symm.trans (answer_error ((bind_of_ok halloc).trans ((bind_of_ok hmk).trans (bind_of_error hcr))))
        exact hnl₃
      | ok u =>
        obtain ⟨r, t, hopen, hp, hres⟩ := fileOpen_spec hst₃.kept h0
        have hstt := hst₃.kept.stays_passes hp fun _ hf => hf
        have hso := (hs₃ rfl).passes hst₃.kept hp fun _ hf => hf
        have hnlt := hnl₃.step (hst₃.kept.losesNone_passes hp fun _ hf => hf)
        have htt := (ht₃ rfl).passes hst₃.kept hp fun _ hf => hf
        rcases hres with ⟨p, f, rfl, hr, -, hheld⟩ | ⟨e, rfl⟩
        · have hrt : t.resolve none sRoot (components path) = ⟨0, p, some f, []⟩ :=
            (passes_resolve hst₃.kept hp (fun _ hf => hf) components_ne_nil none).trans hr
          have htarget : t.Target path f := .inl ⟨p, hrt⟩
          have hf : File t f := htarget.file
          obtain ⟨t₂, hdir, hst₄, htr, hsame⟩ := setDir_spec hstt.kept hf hheld hso htarget
          obtain ⟨t₃, hcut, -, -⟩ := cutOff_spec hst₄.kept (hst₄.file f hf) (hst₄.held hheld) htr
          have hnl₄ : t₂.NoLeak := by
            by_cases hm : omode &&& oMkdir ≠ 0
            · rw [if_pos hm] at hdir
              cases hdir
              exact hnlt.step (putDir_losesNone hstt.kept hf hheld (hso.mkdir hm f htarget))
            · rw [if_neg hm] at hdir
              cases hdir
              exact hnlt
          have hnl₅ : t₃.NoLeak := by
            by_cases hm : omode &&& oTrunc ≠ 0
            · have hwithin : t₂.Within f nDirect := by
                have hw := htt hm p f hrt
                by_cases hmk : omode &&& oMkdir ≠ 0
                · rw [if_pos hmk] at hdir
                  cases hdir
                  exact hw.congr ((put_edit ftypeDir).view _ fun hc => absurd (Nat.add_left_cancel hc) (by decide))
                    ((put_edit ftypeDir).same_holds hstt.kept.toOwned hf (by decide))
                · rw [if_neg hmk] at hdir
                  cases hdir
                  exact hw
              rw [if_pos hm] at hcut
              refine hnl₄.step (fileSetSize_losesNone hst₄.kept (hst₄.file f hf) (hst₄.held hheld) (fun hlt => ?_)
                (fun _ _ => hwithin)
                (fun hd => ?_) hcut)
              · rcases htr hm with hb | ⟨-, hcuts, hpages⟩
                · rw [hb.size] at hlt
                  exact absurd hlt (by decide)
                · exact hcuts.trims hpages
              · have hb := (htr hm).resolve_right fun hc => hc.1 hd
                intro e he
                obtain ⟨j, hj, -⟩ := mem_listing.1 he
                rw [hb.nblocks] at hj
                exact absurd hj (Nat.not_lt_zero j)
            · rw [if_neg hm] at hcut
              cases hcut
              exact hnl₄
          obtain ⟨srv'', hrest, hfs, -⟩ := @opened_spec t₂ { s₃ with fs := t } omode f i t₃ hdir hcut
          cases hrun.symm.trans (answer_ok ((bind_of_ok halloc).trans ((bind_of_ok hmk).trans ((bind_of_ok hcr).trans
            ((bind_of_ok (onFs_run hopen)).trans hrest)))))
          rw [hfs]
          exact hnl₅
        · cases hrun.symm.trans (answer_error ((bind_of_ok halloc).trans ((bind_of_ok hmk).trans ((bind_of_ok hcr).trans
            (bind_of_error (onFs_run hopen))))))
          exact hnlt

end Serv

/-! ## Runs -/

namespace Desk

variable {t t' : Desk}

/-- **The request loses no block**: an object gets it, what is removed has no block behind its end and no entry with a
name, and what is cut down loses no indirect block with one behind its end. -/
def Thrifty (t : Desk) : DeskAct → Prop
  | .ask (.openFile path omode) _ => t.server.fs.TruncKeeps path omode
  | .ask (.map fileid offset) _ => t.Opens fileid → Object t.server.fs (t.file fileid) ∨
      (t.server.fs.blockAt (t.file fileid) (offset.toNat / blockSize)).isSome
  | .ask (.setSize fileid size) _ => t.Opens fileid →
      (size < t.server.fs.view (fSize (t.file fileid)) → nblocksOf size ≤ nDirect →
        t.server.fs.Within (t.file fileid) nDirect) ∧
        t.server.fs.Childless (t.file fileid)
  | .ask (.remove path) _ => ∀ p f, t.server.fs.resolve none sRoot (components path) = ⟨0, p, some f, []⟩ →
      t.server.fs.Within f 0 ∧ t.server.fs.Childless f
  | _ => True

/-- **A request that is thrifty loses no block.** -/
theorem Inv.ask_noLeak (h : Inv t) {rq : Fsreq} {refs : Nat → Nat} (hs : t.AskSafe rq)
    (hth : t.Thrifty (.ask rq refs)) (hnl : t.server.fs.NoLeak) {reply : Reply} {srv : Server}
    (hrun : serveTable t.refs rq t.server = some (.ok reply, srv)) :
    srv.fs.NoLeak := by
  have hkept := h.kept
  have hfile : ∀ {fileid : Word}, rq.fileid = some fileid → (t.Opens fileid → File t.server.fs (t.file fileid) →
      Fs.Held t.server.fs (t.file fileid) → srv.fs.NoLeak) → srv.fs.NoLeak := by
    intro fileid hrq hyes
    by_cases hopen : t.Opens fileid
    · obtain ⟨hf, hheld⟩ := h.files _ hopen.1 hopen.2
      exact hyes hopen hf hheld
    · cases hrun.symm.trans (refused hrq hopen)
      exact hnl
  cases rq with
  | openFile path omode => exact Serv.serveOpen_noLeak hkept hs.1 hs.2 hnl hth hrun
  | map fileid offset =>
    refine hfile rfl fun hopen hf hheld => ?_
    obtain ⟨hdir, hclean⟩ := hs hopen
    obtain ⟨r, u, hget, -⟩ := fileGetBlock_stays hkept hf hheld hdir hclean
    obtain ⟨reply', hserve, -⟩ := Serv.serveMap_run hopen hget
    cases hrun.symm.trans hserve
    exact hnl.step (fileGetBlock_losesNone hkept hf hheld hdir hclean (hth hopen) hget)
  | setSize fileid size =>
    refine hfile rfl fun hopen hf hheld => ?_
    obtain ⟨htrim, hdir⟩ := hs hopen
    obtain ⟨u, hset, -, -⟩ := fileSetSize_cuts hkept hf hheld htrim fun hd => (hdir hd).1
    cases hrun.symm.trans (Serv.onOpen_ok (x := fun f => fileSetSize f size) hopen hset)
    exact hnl.step (fileSetSize_losesNone hkept hf hheld htrim (hth hopen).1 (hth hopen).2 hset)
  | close fileid =>
    refine hfile rfl fun hopen hf hheld => ?_
    obtain ⟨u, hclose, hq⟩ := fileClose_quiet hkept hf hheld
    cases hrun.symm.trans (Serv.onOpen_ok (x := fileClose) hopen hclose)
    exact hnl.step (hkept.losesNone_quiet hq)
  | dirty fileid offset =>
    refine hfile rfl fun hopen hf hheld => ?_
    obtain ⟨r, u, hdirty, hq⟩ := fileDirty_quiet hkept.toOwned hf hheld offset
    cases r with
    | ok x =>
      cases hrun.symm.trans (Serv.onOpen_ok (x := fun f => fileDirty f offset) hopen hdirty)
      exact hnl.step (hkept.losesNone_quiet hq)
    | error e =>
      cases hrun.symm.trans (Serv.onOpen_error (x := fun f => fileDirty f offset) hopen hdirty)
      exact hnl.step (hkept.losesNone_quiet hq)
  | remove path =>
    have hcuts : ∀ p f, t.server.fs.resolve none sRoot (components path) = ⟨0, p, some f, []⟩ → t.server.fs.Cuts f 0 ∧
        false ∉ t.server.fs.pages :=
      fun p f hr => ⟨(hs.2 p f hr).1, (hs.2 p f hr).2.1⟩
    obtain ⟨r, u, hrem, -⟩ := fileRemove_removes hkept hs.1 hcuts
    have hnl' := hnl.step (fileRemove_losesNone hkept hs.1 (fun p f hr => ⟨hcuts p f hr, hth p f hr⟩) hrem)
    cases r with
    | ok x =>
      cases hrun.symm.trans (Serv.answer_ok (bind_of_ok (Serv.onFs_run hrem)))
      exact hnl'
    | error e =>
      cases hrun.symm.trans (Serv.answer_error (bind_of_error (Serv.onFs_run hrem)))
      exact hnl'
  | sync =>
    obtain ⟨u, hsync, hq⟩ := fsSync_quiet hkept.toOwned
    have heq : serveTable t.refs .sync t.server = some (.ok ⟨0, .none⟩, { t.server with fs := u }) :=
      bind_of_ok (Serv.onFs_run hsync)
    cases hrun.symm.trans heq
    exact hnl.step (hkept.losesNone_quiet hq)

theorem Inv.step_noLeak (h : Inv t) {a : DeskAct} (hs : t.Safe a) (hth : t.Thrifty a) (hnl : t.server.fs.NoLeak)
    (ht : t.step a = some t') :
    t'.server.fs.NoLeak := by
  unfold Desk.step at ht
  cases a with
  | ask rq refs =>
    obtain ⟨⟨r, srv⟩, hrun, hd⟩ := Option.bind_eq_some_iff.1 ht
    cases r with
    | error e => cases hd
    | ok reply =>
      dsimp only at hd
      split at hd
      · cases hd
        exact h.ask_noLeak hs hth hnl hrun
      · cases hd
  | write a w =>
    dsimp only at ht
    split at ht
    · cases ht
      obtain ⟨f, i, hf, hreg, hb⟩ := hs
      exact hnl.step (write_losesNone h.kept hf hreg hb)
    · cases ht

/-- No block is lost at first. -/
def InitNoLeak (t : Desk) : Prop := t.Init ∧ t.server.fs.NoLeak

/-- **No block is lost** in any state of a run, from one where none is, whose steps are safe and thrifty. -/
theorem no_leak (h : Run InitNoLeak step (fun t a => t.Safe a ∧ t.Thrifty a) t) : t.server.fs.NoLeak := by
  have hboth : Inv t ∧ t.server.fs.NoLeak :=
    Run.invariant (fun t => Inv t ∧ t.server.fs.NoLeak)
      (fun t ht => ⟨inv_run (.start t ht.1), ht.2⟩)
      (fun t a t' hi ha ht => ⟨hi.1.step ha.1 ht, hi.1.step_noLeak ha.1 ha.2 hi.2 ht⟩) t h
  exact hboth.2

theorem atBoot_noLeak : (atBoot []).server.fs.NoLeak := by
  have hn : (atBoot []).server.fs.sNblocks = 8 := by decide
  have hall : ∀ b < 8, (atBoot []).server.fs.blockIsFree b = false → b < (atBoot []).server.fs.reserved := by decide
  exact fun b hb hused => .inl (hall b (hn ▸ hb) hused)

/-- A file is created in the root. -/
theorem no_leak_opened : ∃ t, (atBoot []).step opensFirst = some t ∧ t.server.fs.NoLeak := by
  have hone : ((atBoot []).step opensFirst).isSome = true := by decide +kernel
  obtain ⟨t, ht⟩ := Option.isSome_iff_exists.1 hone
  have hsteps : (atBoot []).Safe opensFirst ∧ (atBoot []).Thrifty opensFirst :=
    ⟨opensFirst_safe, fun hm => absurd rfl hm⟩
  exact ⟨t, ht, no_leak (.next (atBoot []) opensFirst t (.start _ ⟨atBoot_init [], atBoot_noLeak⟩) hsteps ht)⟩

/-- In a volume where the root has no entry with a name, the root is all there is. -/
theorem object_eq_root {s : Fs} {f : Nat} (hnames : ∀ e ∈ s.listing sRoot, s.nameOf e = []) (h : Object s f) :
    f = sRoot := by
  induction h with
  | root => rfl
  | entry x e _ _ he hname ih =>
    subst ih
    exact absurd (hnames e he) hname

/-- A client makes the directory `d` and the file `d/f`, has a block for the file, and removes `d`. -/
def removesFull : List DeskAct :=
  let refs := Function.update (Function.update (fun _ => 0) 0 2) 1 2
  [.ask (.openFile [0x64] oMkdir) (Function.update (fun _ => 0) 0 2), .ask (.openFile [0x64, 0x2f, 0x66] oCreat) refs,
    .ask (.map 1 0) refs, .ask (.remove [0x64]) refs]

/-- **The block of the file is lost.** -/
theorem no_leak_fails : ¬∀ t, Reach InitNoLeak step t → t.server.fs.NoLeak := by
  obtain ⟨t, hrun, ht⟩ :=
    @Run.exists_of_exec Desk DeskAct InitNoLeak step (fun _ _ => True) (fun _ _ => true) (fun _ _ _ => trivial)
    removesFull (some (atBoot [])) (fun _ h => Option.some.inj h ▸ ⟨atBoot_init [], atBoot_noLeak⟩)
    (fun t => decide (5 < t.server.fs.sNblocks) && decide (t.server.fs.reserved ≤ 5) && !t.server.fs.blockIsFree 5 &&
      (t.server.fs.listing sRoot).all (fun e => decide (t.server.fs.nameOf e = [])) &&
      decide (t.server.fs.indirect sRoot = none) &&
      (List.range nDirect).all fun i => decide (t.server.fs.blockAt sRoot i ≠ some 5)) (by decide +kernel)
  simp only [Bool.and_eq_true, decide_eq_true_eq, Bool.not_eq_true', List.all_eq_true, List.mem_range] at ht
  obtain ⟨⟨⟨⟨⟨hlt, hres⟩, hused⟩, hnames⟩, hind⟩, hblocks⟩ := ht
  intro hall
  rcases hall t hrun 5 hlt hused with hlow | ⟨f, u, hobj, hu⟩
  · exact absurd hres (Nat.not_le.2 hlow)
  · obtain rfl := object_eq_root hnames hobj
    cases u with
    | indirect =>
      have hu : t.server.fs.indirect sRoot = some 5 := hu
      rw [hind] at hu
      cases hu
    | block i =>
      by_cases hi : i < nDirect
      · exact hblocks i hi hu
      · rw [holds_indirect_none hind (.inr ⟨rfl, i, Nat.not_lt.1 hi, rfl⟩)] at hu
        cases hu

end Desk

end Mos
