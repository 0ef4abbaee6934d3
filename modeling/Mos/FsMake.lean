import Mos.FsCreate
/-!
# FsMake — what `file_create` makes

A path that can be created resolves to a directory without its last component.  `file_create` gives that name to an
entry of the directory; whatever the other fields of the entry were, they still are.
-/
namespace Mos

open Fallible FilePtr Fs

variable {s s' s'' : Fs} {d e f : Nat}

/-! ## Paths -/

namespace Fs

/-- **The last component is missing** in the directory `d`. -/
structure Missing (s : Fs) (d : Nat) (name : List (BitVec 8)) : Prop where
  dir : Dir s d
  lookup : s.lookup d name = none
  length : name.length < maxNameLen
  ne_nil : name ≠ []

/-- **How a path resolves.** -/
theorem resolve_cases {names : List (List (BitVec 8))} (hne : ∀ n ∈ names, n ≠ []) : ∀ {dir : Option Nat} {file : Nat},
    Object s file → (∃ p f, s.resolve dir file names = ⟨0, p, some f, []⟩ ∧ Object s f) ∨
      (∃ d name, s.resolve dir file names = ⟨-eNotFound, some d, none, name⟩ ∧ Missing s d name ∧ name ∈ names) ∨
      s.resolve dir file names = ⟨-eNotFound, none, none, []⟩ ∨ s.resolve dir file names =
        ⟨-eBadPath, none, none, []⟩ := by
  induction names with
  | nil => exact fun hf => .inl ⟨_, _, rfl, hf⟩
  | cons name names ih =>
    intro dir file hf
    unfold resolve
    by_cases hlen : maxNameLen ≤ name.length
    · rw [if_pos hlen]
      exact .inr (.inr (.inr rfl))
    · rw [if_neg hlen]
      by_cases hdir : s.view (fType file) ≠ ftypeDir
      · rw [if_pos hdir]
        exact .inr (.inr (.inl rfl))
      · rw [if_neg hdir]
        have hdir : s.IsDir file := not_not.1 hdir
        cases hl : s.lookup file name with
        | none =>
          dsimp only
          by_cases hlast : names = []
          · rw [if_pos hlast]
            exact .inr (.inl ⟨file, name, rfl, ⟨⟨hf, hdir⟩, hl, Nat.lt_of_not_le hlen, hne name List.mem_cons_self⟩,
              List.mem_cons_self⟩)
          · rw [if_neg hlast]
            exact .inr (.inr (.inl rfl))
        | some x =>
          dsimp only
          have hx : x ∈ s.listing file := List.mem_of_find?_eq_some hl
          have hname : s.nameOf x = name := by simpa using List.find?_some hl
          have hobj : Object s x := .entry file x hf hdir hx (hname ▸ hne name List.mem_cons_self)
          rcases @ih (fun n hn => hne n (List.mem_cons_of_mem _ hn)) (some file) _ hobj
              with hfound | ⟨d, nm, hr, hm, hin⟩ | hno
          · exact .inl hfound
          · exact .inr (.inl ⟨d, nm, hr, hm, List.mem_cons_of_mem _ hin⟩)
          · exact .inr (.inr hno)

theorem path_cases (s : Fs) (path : List (BitVec 8)) :
    (∃ p f, s.resolve none sRoot (components path) = ⟨0, p, some f, []⟩ ∧ Object s f) ∨
      (∃ d name, s.resolve none sRoot (components path) = ⟨-eNotFound, some d, none, name⟩ ∧ Missing s d name ∧
        name ∈ components path) ∨
      s.resolve none sRoot (components path) = ⟨-eNotFound, none, none, []⟩ ∨
      s.resolve none sRoot (components path) = ⟨-eBadPath, none, none, []⟩ :=
  resolve_cases components_ne_nil .root

theorem path_found {path : List (BitVec 8)} {p : Option Nat}
    (h : s.resolve none sRoot (components path) = ⟨0, p, some f, []⟩) : Object s f := by
  rcases path_cases s path with ⟨p', x, hr, hobj⟩ | ⟨d, name, hr, -⟩ | hr | hr
  · cases hr.symm.trans h
    exact hobj
  all_goals cases hr.symm.trans h

theorem path_missing {path name : List (BitVec 8)}
    (h : s.resolve none sRoot (components path) = ⟨-eNotFound, some d, none, name⟩) :
    Missing s d name := by
  rcases path_cases s path with ⟨p, x, hr, -⟩ | ⟨d', name', hr, hm, -⟩ | hr | hr
  · cases hr.symm.trans h
  · cases hr.symm.trans h
    exact hm
  all_goals cases hr.symm.trans h

theorem components_subset (k : Nat) : ∀ path, path.length ≤ k → ∀ n ∈ components path, n ⊆ path := by
  induction k with
  | zero =>
    intro path hlen n hn
    obtain rfl := List.length_eq_zero_iff.1 (Nat.le_zero.1 hlen)
    exact absurd hn List.not_mem_nil
  | succ k ih =>
    intro path hlen n hn
    have hsub := (skipSlash_sublist path).subset
    rw [← components_skipSlash] at hn
    by_cases hne : skipSlash path = []
    · rw [hne] at hn
      exact absurd hn List.not_mem_nil
    · obtain ⟨hc, hfirst⟩ := components_cons hne dropWhile_slash_head
      rw [hc] at hn
      rcases List.mem_cons.1 hn with rfl | hn
      · exact fun c hcn => hsub ((List.takeWhile_sublist _).subset hcn)
      · have hshort := rest_length hfirst
        have hle := (skipSlash_sublist path).length_le
        have hrest := ih _ (by omega) n hn
        exact fun c hcn => hsub ((List.dropWhile_sublist _).subset ((skipSlash_sublist _).subset (hrest hcn)))

theorem zero_not_mem {path name : List (BitVec 8)} (h0 : (0 : BitVec 8) ∉ path) (hn : name ∈ components path) :
    (0 : BitVec 8) ∉ name :=
  fun hc => h0 (components_subset path.length path (Nat.le_refl _) name hn hc)

/-- **Paths resolve alike** where the directories are the same and find the same. -/
theorem resolve_congr {names : List (List (BitVec 8))} (hne : ∀ n ∈ names, n ≠ [])
    (hdir : ∀ x, Object s x → (s'.IsDir x ↔ s.IsDir x))
    (hlook : ∀ x n, Dir s x → n ≠ [] → s'.lookup x n = s.lookup x n) :
    ∀ {dir : Option Nat} {file : Nat}, Object s file → s'.resolve dir file names = s.resolve dir file names := by
  induction names with
  | nil => exact fun _ => rfl
  | cons n names ih =>
    intro dir file hf
    unfold resolve
    by_cases hlen : maxNameLen ≤ n.length
    · rw [if_pos hlen, if_pos hlen]
    · rw [if_neg hlen, if_neg hlen]
      by_cases hd : s.IsDir file
      · have hd' := (hdir file hf).2 hd
        have hn := hne n List.mem_cons_self
        rw [if_neg (show ¬s'.view (fType file) ≠ ftypeDir from not_not.2 hd'),
          if_neg (show ¬s.view (fType file) ≠ ftypeDir from not_not.2 hd), hlook file n ⟨hf, hd⟩ hn]
        cases hl : s.lookup file n with
        | none => rfl
        | some y =>
          have hname : s.nameOf y = n := by simpa using List.find?_some hl
          exact ih (fun m hm => hne m (List.mem_cons_of_mem _ hm))
            (.entry file y hf hd (List.mem_of_find?_eq_some hl) (hname ▸ hn))
      · rw [if_pos (show s'.view (fType file) ≠ ftypeDir from mt (hdir file hf).1 hd),
          if_pos (show s.view (fType file) ≠ ftypeDir from hd)]

/-- **A missing component is found** once its directory has it, and finds the others as before. -/
theorem resolve_created {names : List (List (BitVec 8))} {name : List (BitVec 8)} (hne : ∀ n ∈ names, n ≠ [])
    (hm : Missing s d name) (hdir : ∀ x, Dir s x → s'.IsDir x) (hnew : s'.lookup d name = some f)
    (hlook : ∀ x n, Dir s x → n ≠ [] → ¬(x = d ∧ n = name) → s'.lookup x n = s.lookup x n) :
    ∀ {dir : Option Nat} {file : Nat}, Object s file → s.resolve dir file names = ⟨-eNotFound, some d, none, name⟩ →
      s'.resolve dir file names = ⟨0, some d, some f, []⟩ := by
  induction names with
  | nil =>
    intro dir file hf hr
    cases congrArg Walked.lastelem hr
    cases congrArg Walked.pfile hr
  | cons n names ih =>
    intro dir file hf hr
    unfold resolve at hr ⊢
    by_cases hlen : maxNameLen ≤ n.length
    · rw [if_pos hlen] at hr
      cases congrArg Walked.pdir hr
    · rw [if_neg hlen] at hr ⊢
      by_cases hd : s.IsDir file
      · rw [if_neg (show ¬s.view (fType file) ≠ ftypeDir from not_not.2 hd)] at hr
        rw [if_neg (show ¬s'.view (fType file) ≠ ftypeDir from not_not.2 (hdir file ⟨hf, hd⟩))]
        have hn := hne n List.mem_cons_self
        cases hl : s.lookup file n with
        | none =>
          rw [hl] at hr
          dsimp only at hr
          by_cases hlast : names = []
          · rw [if_pos hlast] at hr
            obtain rfl : file = d := Option.some.inj (congrArg Walked.pdir hr)
            obtain rfl : n = name := congrArg Walked.lastelem hr
            subst hlast
            rw [hnew]
            rfl
          · rw [if_neg hlast] at hr
            cases congrArg Walked.pdir hr
        | some y =>
          rw [hl] at hr
          have hname : s.nameOf y = n := by simpa using List.find?_some hl
          rw [hlook file n ⟨hf, hd⟩ hn, hl]
          · exact ih (fun m hm => hne m (List.mem_cons_of_mem _ hm))
              (.entry file y hf hd (List.mem_of_find?_eq_some hl) (hname ▸ hn)) hr
          · rintro ⟨rfl, rfl⟩
            rw [hm.lookup] at hl
            cases hl
      · rw [if_pos (show s.view (fType file) ≠ ftypeDir from hd)] at hr
        cases congrArg Walked.pdir hr

/-! ## What a walk leaves -/

/-- The words that a walk may change. -/
def Links (s : Fs) (a : Nat) : Prop := ∃ e, File s e ∧ a = fDir e

section passes

variable {P : Nat → Prop} (h : Kept s) (hp : Passes P s s') (hP : ∀ f, P f → Entry s f)
include h hp hP

/-- The words of a file that is passed through are as they were, but for its `f_dir`. -/
theorem passes_word (he : File s e) {k : Nat} (hk : k < fileWords) (h45 : k ≠ 45) :
    s'.view (e + k) = s.view (e + k) := by
  refine hp.view _ fun f hf heq => ?_
  obtain ⟨-, -, -, -, -, -, -, hff⟩ := (hP f hf).file
  have hef := h.toOwned.word_sole he hff hk (show 45 < fileWords by decide) heq
  unfold fDir at heq
  omega

theorem Kept.same_passes (he : File s e) : SameFile e s s' := by
  refine (Edit.of_passes hp).same h.toOwned he fun a ⟨f, hf, heq⟩ => ?_
  obtain ⟨-, -, -, -, -, -, -, hff⟩ := (hP f hf).file
  by_cases hfe : f = e
  · subst hfe
    exact .inr (.inr (.inr ⟨45, by decide, Nat.le_refl 45, heq⟩))
  · exact .inr (.inr (.inl ⟨f, hff, hfe, .inr ⟨45, by decide, heq⟩⟩))

theorem passes_listing (hd : File s d) : s'.listing d = s.listing d := listing_congr ((h.passes hp hP).2.agree hd)

theorem passes_lookup (hd : Dir s d) (name : List (BitVec 8)) : s'.lookup d name = s.lookup d name := by
  unfold lookup
  rw [passes_listing h hp hP hd.file]
  refine List.find?_congr fun f hf => ?_
  rw [hp.nameOf h.tree hP (.inr ⟨d, hd, hf⟩)]

theorem passes_freeEntry (hd : Dir s d) : s'.freeEntry d = s.freeEntry d := by
  unfold freeEntry
  rw [passes_listing h hp hP hd.file]
  refine List.find?_congr fun f hf => ?_
  rw [hp.name h.tree hP (.inr ⟨d, hd, hf⟩) (by decide)]

theorem passes_resolve {names : List (List (BitVec 8))} (hne : ∀ n ∈ names, n ≠ []) (dir : Option Nat) :
    s'.resolve dir sRoot names = s.resolve dir sRoot names :=
  resolve_congr hne (fun _ hx => ((h.passes hp hP).2.agree hx.file).dir)
    (fun _ n hx _ => passes_lookup h hp hP hx n) .root

theorem Room.passes (hd : File s d) (hr : s.Room d) : s'.Room d := by
  have hstill := (h.passes hp hP).2
  have hn : s'.nblocks d = s.nblocks d := (hstill.agree hd).count
  have hind : s'.indirect d = s.indirect d :=
    indirect_congr (passes_word h hp hP hd (show 44 < fileWords by decide) (by decide))
  have hw := wants_congr hind (s.nblocks d)
  have hfb := freeBlocks_congr h.up.super hstill.owned.up.super hstill.sNblocks hstill.free
  refine ⟨by rw [hn]; exact hr.index, by rw [hn, hw, hfb]; exact hr.blocks, ?_, fun hc => hr.pages (hp.pages.mem hc)⟩
  rw [hn, hw]
  refine hr.clean.edit h.up hstill.owned.up (Edit.of_passes hp) hstill.sNblocks hstill.free (fun c hc hm => ?_) ?_
  · refine (hp.read c hm).resolve_right fun hused => ?_
    rw [hc] at hused
    cases hused
  · rintro a ⟨f, hf, rfl⟩
    obtain ⟨-, -, -, -, -, -, -, hff⟩ := (hP f hf).file
    exact (h.toOwned.word_not_bitmap hff (show 45 < fileWords by decide)).2

theorem passes_saves : Saves s.Links s s' := by
  refine .of_edit ((Edit.of_passes hp).mono fun a ⟨f, hf, heq⟩ => ?_) fun a ⟨f, hf, heq⟩ => ?_
  · obtain ⟨-, -, -, -, -, -, -, hff⟩ := (hP f hf).file
    exact ⟨f, hff, heq⟩
  · exact heq ▸ h.toOwned.file_above hf 45

theorem passes_adds (hd : Dir s d) {a : Nat} : s'.Adds d a ↔ s.Adds d a := by
  have hstill := (h.passes hp hP).2
  have hag := hstill.agree hd.file
  unfold Adds
  rw [passes_freeEntry h hp hP hd, show s'.nblocks d = s.nblocks d from hag.count, Gets.congr hstill.free hag.holds]

end passes

/-- **The words that a directory may change** when it gets an entry with a name. -/
def Names (s : Fs) (d a : Nat) : Prop := s.Adds d a ∨ ∃ f, s.freeEntry d = some f ∧ ∃ k < 32, a = f + k

/-! ## Creating -/

/-- **The entry `f` of the directory `d` has got the name.** -/
structure Made (d f : Nat) (name : List (BitVec 8)) (s s' : Fs) : Prop where
  kept : Kept s'
  held : Held s' f
  self : File s' f
  lookup : s'.lookup d name = some f
  lookups : ∀ x n, File s x → s.IsDir x → n ≠ [] → ¬(x = d ∧ n = name) → s'.lookup x n = s.lookup x n
  isDir : ∀ x, Dir s x → s'.IsDir x
  /-- A free entry keeps its other fields. -/
  fields : s.freeEntry d = some f ∧ (∀ k, 32 ≤ k → k < 45 → s'.view (f + k) = s.view (f + k)) ∨
    s.freeEntry d = none ∧ ∀ k, 32 ≤ k → k < 45 → s'.view (f + k) = 0
  file : ∀ e, File s e → File s' e
  maps : ∀ b, s.mapped b = true → s'.mapped b = true
  pages : s'.pages <:+ s.pages
  same : ∀ e, File s e → e ≠ d → e ≠ f → SameFile e s s'
  dir : s'.nameOf d = s.nameOf d ∧ s'.view (fType d) = s.view (fType d)
  retains : Retains d s s'
  new : s.freeEntry d = some f ∨ ¬File s f
  saves : Saves (fun a => s.Names d a ∨ s.Links a) s s'
  /-- What a free entry holds stays, and another is in words that may change. -/
  holds : s.freeEntry d = some f → s'.vol.holds f = s.vol.holds f
  added : s.freeEntry d = none → ∀ k < fileWords, s.Adds d (f + k)

theorem getByte_zero (j : Nat) : getByte 0 j = 0 := by
  unfold getByte
  simp

theorem freeEntry_name (h : s.freeEntry d = some f) : s.nameOf f = [] := nameOf_nil (by simpa using List.find?_some h)

theorem inside_sole {c : Nat} (hb : Inside b f) (hc : Inside c f) : b = c := by
  obtain ⟨j, hj, rfl⟩ := mem_entries.1 hb
  obtain ⟨j', hj', heq⟩ := mem_entries.1 hc
  have h₁ := entry_word (b := b) hj (show 0 < fileWords by decide)
  have h₂ := entry_word (b := c) hj' (show 0 < fileWords by decide)
  rw [Nat.add_zero] at h₁ h₂
  rw [← h₁, heq, h₂]

theorem Allotted.named {name : List (BitVec 8)} (ha : Allotted d f s s') (h : Kept s) (hm : Missing s d name)
    (h0 : (0 : BitVec 8) ∉ name) : Made d f name s { s' with mem := putName s'.mem f name } := by
  obtain ⟨hedit, hnamed⟩ := put_name ha.held h0 hm.length
  have hd := hm.dir
  have hd' := ha.file d hd.file
  obtain ⟨i, hi, b, hb, hin⟩ := mem_listing.1 ha.mem
  have hf' : File s' f := .entry d i b f hd' ha.isDir hi hb hin
  obtain ⟨hk, hstill⟩ := ha.kept.field hf' hedit fun a ⟨k, hk, heq⟩ => ⟨k, Nat.lt_trans hk (by decide), heq, .inl hk⟩
  generalize { s' with mem := putName s'.mem f name } = s₂ at *
  have hother : ∀ e, File s' e → e ≠ f → s₂.nameOf e = s'.nameOf e := fun e he hef =>
    nameOf_congr fun k hk => hedit.view _ fun ⟨k', hk', heq⟩ =>
      hef (ha.kept.toOwned.word_sole he hf' (Nat.lt_trans hk (by decide)) (Nat.lt_trans hk' (by decide)) heq)
  have hold : ∀ e, File s e → e ≠ f → s₂.nameOf e = s.nameOf e := fun e he hef =>
    (hother e (ha.file e he) hef).trans
    (nameOf_congr fun k hk => ha.words e he k (Nat.lt_trans hk (by decide)) (.inl hk))
  have hlist : s₂.listing d = s'.listing d := listing_congr (hstill.agree hd')
  have hmem : f ∈ s₂.listing d := hlist ▸ ha.mem
  have hentry : ∀ x e, File s x → s.IsDir x → e ∈ s.listing x → File s e := fun x e hx hdir he => by
    obtain ⟨i, hi, b, hb, hin⟩ := mem_listing.1 he
    exact .entry x i b e hx hdir hi hb hin
  -- what the directory lists but `f` has the name that it had, or none
  have hnames : ∀ e ∈ s₂.listing d, e ≠ f → (e ∈ s.listing d ∧ s₂.nameOf e = s.nameOf e) ∨ s₂.nameOf e = [] := by
    intro e he hef
    rw [hlist] at he
    obtain ⟨i, hi, c, hc, hine⟩ := mem_listing.1 he
    have hfe : File s' e := .entry d i c e hd' ha.isDir hi hc hine
    rcases ha.entry with ⟨-, hsame, -⟩ | ⟨-, c, -, hgrown, -, hblank⟩
    · rw [hsame] at he
      exact .inl ⟨he, hold e (hentry d e hd.file hd.isDir he) hef⟩
    · rw [hgrown] at he
      rcases List.mem_append.1 he with he | he
      · exact .inl ⟨he, hold e (hentry d e hd.file hd.isDir he) hef⟩
      · obtain ⟨j, hj, rfl⟩ := mem_entries.1 he
        refine .inr ((hother _ hfe hef).trans (nameOf_nil ?_))
        have hz := hblank _ (Entry.lt_block hj (show 0 < fileWords by decide))
        unfold fName byteAt
        rw [Nat.add_zero, Nat.mul_div_cancel_left _ (by decide),
          ← Nat.add_zero (diskAddr c + fileWords * j), Nat.add_assoc, hz]
        exact getByte_zero _
  have hlookup : s₂.lookup d name = some f := by
    cases hl : s₂.lookup d name with
    | none => exact absurd (List.find?_eq_none.1 hl f hmem) (by simpa using hnamed)
    | some x =>
      have hx := List.mem_of_find?_eq_some hl
      have hxname : s₂.nameOf x = name := by simpa using List.find?_some hl
      refine congrArg some (by_contra fun hxf => ?_)
      rcases hnames x hx hxf with ⟨hx, hsame⟩ | hnil
      · exact List.find?_eq_none.1 hm.lookup x hx (by simpa using hsame.symm.trans hxname)
      · exact hm.ne_nil (hxname.symm.trans hnil)
  have hdf : d ≠ f := by
    rintro rfl
    exact ha.kept.toOwned.not_below hd' (.entry i b d ha.isDir hi hb hin)
  have hbeside : ∀ e, File s' e → e ≠ f → SameFile e s' s₂ := fun e he hef =>
    hedit.same ha.kept.toOwned he fun a ⟨k, hk, heq⟩ =>
      .inr (.inr (.inl ⟨f, hf', hef.symm, .inr ⟨k, Nat.lt_trans hk (by decide), heq⟩⟩))
  -- an entry that was not there is in a block that was free
  have hfresh : s.freeEntry d = none → ∀ k < fileWords, s.Adds d (f + k) := by
    intro hnone k hk
    rcases ha.entry with ⟨hfree, -⟩ | ⟨-, c, hcf, -, hfc, -⟩
    · cases hfree.symm.trans hnone
    · obtain ⟨j, hj, rfl⟩ := mem_entries.1 hfc
      refine ⟨hnone, .inr (.inl ?_)⟩
      rw [entry_word hj hk]
      exact hcf
  refine ⟨hk, fun k hk => hedit.mapped _ (ha.held k hk), (hstill.file f).2 hf', hlookup, fun x n hx hdir hn hne => ?_,
    fun x hx => ?_, ?_,
    fun e he => (hstill.file e).2 (ha.file e he), fun c hc => hedit.mapped c (ha.maps c hc),
    hedit.pages.trans ha.pages, fun e he hed hef => ?_,
      ⟨hold d hd.file hdf, (hedit.view _ ?_).trans (ha.words d hd.file 33 (by decide) (.inr (.inl rfl)))⟩,
    ha.retains.same (hbeside d hd' hdf), ?_, (ha.saves.mono fun a hadd => .inl (.inl hadd)).trans
      ((Saves.of_edit hedit ?_).mono ?_), fun hfree => ?_, fun hnone k hk => ?_⟩
  rotate_right 7
  · exact (ha.same e he hed).trans (hbeside e (ha.file e he) hef)
  · rintro ⟨k, hk, heq⟩
    exact hdf (ha.kept.toOwned.word_sole hd' hf' (show 33 < fileWords by decide) (Nat.lt_trans hk (by decide)) heq)
  · rcases ha.entry with ⟨hfree, -⟩ | ⟨-, c, hcf, -, hfc, -⟩
    · exact .inl hfree
    · refine .inr fun hf => ?_
      obtain ⟨j, hj, rfl⟩ := mem_entries.1 hfc
      have hused := (h.toOwned.word_not_bitmap hf (show 0 < fileWords by decide)).2
      rw [entry_word hj (show 0 < fileWords by decide), hcf] at hused
      cases hused
  · rintro a ⟨k, -, rfl⟩
    exact ha.kept.toOwned.file_above hf' k
  · rintro a ⟨k, hk, rfl⟩
    rcases ha.entry with ⟨hfree, -⟩ | ⟨hnone, -⟩
    · exact .inl (.inr ⟨f, hfree, k, hk, rfl⟩)
    · exact .inl (.inl (hfresh hnone k (Nat.lt_trans hk (by decide))))
  · obtain ⟨i, hi, b, hb, hin⟩ := mem_listing.1 (List.mem_of_find?_eq_some hfree)
    have hf : File s f := .entry d i b f hd.file hd.isDir hi hb hin
    exact (hstill.agree hf').holds.trans (ha.same f hf (Ne.symm hdf)).holds
  · exact hfresh hnone k hk
  · by_cases hxd : x = d
    · subst hxd
      have hnn : name ≠ n := fun hc => hne ⟨rfl, hc.symm⟩
      have hne₂ : (s₂.nameOf f == n) = false := by simpa [hnamed] using hnn
      unfold Fs.lookup
      rw [hlist]
      rcases ha.entry with ⟨hfree, hsame, -⟩ | ⟨-, c, hcf, hgrown, hfc, -⟩
      · rw [hsame]
        refine List.find?_congr fun e he => ?_
        by_cases hef : e = f
        · subst hef
          rw [hne₂, freeEntry_name hfree]
          simpa using hn.symm
        · rw [hold e (hentry x e hx hdir he) hef]
      · have hfirst : ∀ e ∈ s.listing x, e ≠ f := by
          rintro e he rfl
          obtain ⟨i, -, c', hc', hin'⟩ := mem_listing.1 he
          rw [inside_sole hfc hin', (h.toOwned.data_block hx hc').used] at hcf
          cases hcf
        have hnone : (entries (diskAddr c)).find? (fun e => s₂.nameOf e == n) = none := by
          refine List.find?_eq_none.2 fun e he => ?_
          by_cases hef : e = f
          · subst hef
            rw [hne₂]
            exact Bool.false_ne_true
          · rcases hnames e (by rw [hlist, hgrown]; exact List.mem_append_right _ he) hef with ⟨hes, -⟩ | hnil
            · obtain ⟨i, -, c', hc', hin'⟩ := mem_listing.1 hes
              rw [inside_sole he hin', (h.toOwned.data_block hx hc').used] at hcf
              cases hcf
            · rw [hnil]
              simpa using hn.symm
        rw [hgrown, List.find?_append, hnone, Option.or_none]
        refine List.find?_congr fun e he => ?_
        rw [hold e (hentry x e hx hdir he) (hfirst e he)]
    · have hag := (ha.others x hx hxd).trans (hstill.agree (ha.file x hx))
      unfold Fs.lookup
      rw [listing_congr hag]
      refine List.find?_congr fun e he => ?_
      rw [hold e (hentry x e hx hdir he)]
      rintro rfl
      obtain ⟨i', -, b', hb', hin'⟩ := mem_listing.1 (listing_congr (ha.others x hx hxd) ▸ he)
      exact hxd (ha.kept.toOwned.home_sole (ha.file x hx) hd' hb' hb hin' hin).1
  · by_cases hxd : x = d
    · subst hxd
      exact (hstill.agree hd').dir.2 ha.isDir
    · exact (hstill.agree (ha.file x hx.file)).dir.2 ((ha.others x hx.file hxd).dir.2 hx.isDir)
  · have hview : ∀ k, 32 ≤ k → k < 45 → s₂.view (f + k) = s'.view (f + k) :=
      fun k h32 _ => hedit.view _ fun ⟨k', hk', heq⟩ => by omega
    rcases ha.entry with ⟨hfree, -, -, hsame⟩ | ⟨hfree, c, -, -, hfc, hblank⟩
    · exact .inl ⟨hfree, fun k h32 h45 => (hview k h32 h45).trans (hsame k (Nat.lt_trans h45 (by decide)))⟩
    · obtain ⟨j, hj, rfl⟩ := mem_entries.1 hfc
      refine .inr ⟨hfree, fun k h32 h45 => (hview k h32 h45).trans ?_⟩
      rw [Nat.add_assoc]
      exact hblank _ (Entry.lt_block hj (Nat.lt_trans h45 (by decide)))

/-! ## What stays -/

/-- **The volume is kept, with all its files**, and no page leaves the cache. -/
structure Stays (s s' : Fs) : Prop where
  kept : Kept s'
  file : ∀ e, File s e → File s' e
  maps : ∀ b, s.mapped b = true → s'.mapped b = true

theorem Stays.refl (h : Kept s) : Stays s s := ⟨h, fun _ => id, fun _ => id⟩

theorem Stays.trans (h : Stays s s') (h' : Stays s' s'') : Stays s s'' :=
  ⟨h'.kept, fun e he => h'.file e (h.file e he), fun b hb => h'.maps b (h.maps b hb)⟩

theorem Stays.held (h : Stays s s') (hf : Held s f) : Held s' f := fun k hk => h.maps _ (hf k hk)

theorem Kept.stays_still (hk : Kept s') (h : Still s s') (hm : ∀ b, s.mapped b = true → s'.mapped b = true) :
    Stays s s' :=
  ⟨hk, fun e => (h.file e).2, hm⟩

theorem Kept.stays_passes {P : Nat → Prop} (h : Kept s) (hp : Passes P s s') (hP : ∀ f, P f → Entry s f) : Stays s s' :=
  (h.passes hp hP).1.stays_still (h.passes hp hP).2 hp.mapped

theorem Kept.stays_quiet (h : Kept s) (hq : Quiet s s') : Stays s s' :=
  (h.quiet hq).stays_still (hq.still h.toOwned) hq.edit.mapped

theorem Made.stays {name : List (BitVec 8)} (h : Made d f name s s') : Stays s s' := ⟨h.kept, h.file, h.maps⟩

theorem Made.after {P : Nat → Prop} {name : List (BitVec 8)} (hm : Made d f name s' s'') (h : Kept s)
    (hp : Passes P s s') (hP : ∀ f, P f → Entry s f) (hd : Dir s d) : Made d f name s s'' := by
  have hstays := (h.stays_passes hp hP).trans hm.stays
  refine ⟨hm.kept, hm.held, hm.self, hm.lookup, fun x n hx hdir hn hne => ?_,
    fun x hx => hm.isDir x (h.dir_passes hp hP hx), ?_,
    hstays.file, hstays.maps, hm.pages.trans hp.pages, fun e he hed hef =>
      (h.same_passes hp hP he).trans (hm.same e ((h.stays_passes hp hP).file e he) hed hef), ?_,
      (h.same_passes hp hP hd.file).retains hm.retains, ?_,
    ((passes_saves h hp hP).mono fun a => .inr).trans (hm.saves.mono fun a ha => ?_), fun hfree => ?_,
    fun hnone k hk => ?_⟩
  rotate_right 5
  · have hsame := h.same_passes hp hP hd.file
    exact ⟨hm.dir.1.trans hsame.name, hm.dir.2.trans hsame.type⟩
  · rw [← passes_freeEntry h hp hP hd]
    exact hm.new.imp_right fun hno hf => hno ((h.stays_passes hp hP).file f hf)
  · refine ha.imp (fun ha => ?_) fun ⟨e, he, heq⟩ => ⟨e, ((h.passes hp hP).2.file e).1 he, heq⟩
    unfold Names at ha ⊢
    rw [passes_adds h hp hP hd, passes_freeEntry h hp hP hd] at ha
    exact ha
  · have hf : File s f := by
      obtain ⟨i, hi, b, hb, hin⟩ := mem_listing.1 (List.mem_of_find?_eq_some hfree)
      exact .entry d i b f hd.file hd.isDir hi hb hin
    exact (hm.holds ((passes_freeEntry h hp hP hd).trans hfree)).trans (h.same_passes hp hP hf).holds
  · exact (passes_adds h hp hP hd).1 (hm.added ((passes_freeEntry h hp hP hd).trans hnone) k hk)
  · have hsame := h.same_passes hp hP hx
    refine (hm.lookups x n ((h.stays_passes hp hP).file x hx) (hsame.dir.2 hdir) hn hne).trans
      (hsame.lookup fun e he => ?_)
    obtain ⟨i, hi, b, hb, hin⟩ := mem_listing.1 he
    exact (h.same_passes hp hP (.entry x i b e hx hdir hi hb hin)).name
  · rw [← passes_freeEntry h hp hP hd]
    refine hm.fields.imp_left fun ⟨hfree, hsame⟩ => ⟨hfree, fun k h32 h45 => ?_⟩
    have hentry : File s f := by
      have hmem := List.mem_of_find?_eq_some ((passes_freeEntry h hp hP hd).symm.trans hfree)
      obtain ⟨i, hi, b, hb, hin⟩ := mem_listing.1 hmem
      exact .entry d i b f hd.file hd.isDir hi hb hin
    rw [hsame k h32 h45]
    exact passes_word h hp hP hentry (Nat.lt_trans h45 (by decide)) (Nat.ne_of_lt h45)

/-- **Where the last component of the path is missing**, in a directory without a free entry, there is room for one. -/
def Creatable (s : Fs) (path : List (BitVec 8)) : Prop := ∀ d name,
  s.resolve none sRoot (components path) = ⟨-eNotFound, some d, none, name⟩ → s.freeEntry d = none → s.Room d

theorem walk_entry {path : List (BitVec 8)} : ∀ f, f ∈ s.passed sRoot (components path) → Entry s f :=
  fun _ hf => passed_entry .root components_ne_nil hf

end Fs

theorem Fs.Passes.then_reads {P : Nat → Prop} (h : Passes P s s') (h' : Passes nobody s' s'')
    (hfree : ∀ b, s'.blockIsFree b = s.blockIsFree b) :
    Passes P s s'' := by
  have hview : ∀ a, s''.view a = s'.view a := fun a => h'.view a not_nobody
  refine ⟨fun a ha => (hview a).trans (h.view a ha), fun f hf => ?_,
    fun b hb => h'.mapped b (h.mapped b hb), fun b hb => ?_,
    fun b hb => (h'.dirty b (h.mapped b hb)).trans (h.dirty b hb), h'.disk.trans h.disk, h'.super.trans h.super,
    h'.bitmap.trans h.bitmap, h'.pages.trans h.pages⟩
  · rw [hview]
    exact (h.link f hf).imp_right fun ⟨d, hd, hl, hheld, hlink⟩ =>
      ⟨d, hd, hl, fun k hk => h'.mapped _ (hheld k hk), hlink⟩
  · rcases h'.read b hb with hb | hb
    · exact h.read b hb
    · exact .inr ((hfree b).symm.trans hb)

/-- **`file_create`**, where there is room. -/
theorem fileCreate_spec {path : List (BitVec 8)} (h : Kept s) (h0 : (0 : BitVec 8) ∉ path) (hc : s.Creatable path) :
    ∃ r s', fileCreate path s = some (r, s') ∧
      ((∃ d f name, r = .ok f ∧ s.resolve none sRoot (components path) =
        ⟨-eNotFound, some d, none, name⟩ ∧ Missing s d name ∧
          Made d f name s s') ∨
        ∃ e, r = .error e ∧ Passes (Entry s) s s') := by
  obtain ⟨w, s₁, hwalk, hp, harr, hw⟩ := walkPath_spec h.tree h0
  have hstays := h.stays_passes hp walk_entry
  have hwalked : Passes (Entry s) s s₁ := hp.mono fun f hf => walk_entry f hf
  unfold fileCreate
  rw [bind_of_ok hwalk]
  rcases hw with rfl | ⟨rfl, -⟩
  · rcases path_cases s path with ⟨p, f, hr, hobj⟩ | ⟨d, name, hr, hm, hin⟩ | hr | hr
    · rw [hr]
      exact ⟨_, s₁, rfl, .inr ⟨_, rfl, hwalked⟩⟩
    · have hheld : Held s₁ d := harr.dir d (by rw [hr]) (by rw [hr])
      have hd₁ := h.dir_passes hp walk_entry hm.dir
      have hm₁ : Missing s₁ d name :=
        ⟨hd₁, (passes_lookup h hp walk_entry hm.dir name).trans hm.lookup, hm.length, hm.ne_nil⟩
      have hroom : s₁.freeEntry d = none → s₁.Room d := fun hfree =>
        (hc d name hr ((passes_freeEntry h hp walk_entry hm.dir).symm.trans hfree)).passes h hp walk_entry hm.dir.file
      rw [hr]
      rcases dirAllocFile_spec hstays.kept hd₁ hheld hroom with ⟨f, s₂, hrun, hal⟩ | ⟨s₂, hrun, hp₂, -⟩
      · have hmade := (hal.named hstays.kept hm₁ (zero_not_mem h0 hin)).after h hp walk_entry hm.dir
        refine ⟨_, _, ?_, .inl ⟨d, f, name, rfl, rfl, hm, hmade⟩⟩
        simp only [show (-eNotFound : Int) ≠ 0 by decide, if_false, ne_eq, not_true_eq_false]
        rw [bind_attempt hrun]
        rfl
      · refine ⟨.error (-eNotFound), s₂, ?_, .inr ⟨_, rfl, hwalked.then_reads hp₂ (h.passes hp walk_entry).2.free⟩⟩
        simp only [show (-eNotFound : Int) ≠ 0 by decide, if_false, ne_eq, not_true_eq_false]
        rw [bind_attempt hrun]
        rfl
    · rw [hr]
      exact ⟨_, s₁, rfl, .inr ⟨_, rfl, hwalked⟩⟩
    · rw [hr]
      exact ⟨_, s₁, rfl, .inr ⟨_, rfl, hwalked⟩⟩
  · exact ⟨_, s₁, rfl, .inr ⟨_, rfl, hwalked⟩⟩

/-- **`file_open`** leaves the volume, and has the page of what it found. -/
theorem fileOpen_spec {path : List (BitVec 8)} (h : Kept s) (h0 : (0 : BitVec 8) ∉ path) :
    ∃ r s', fileOpen path s = some (r, s') ∧ Passes (Entry s) s s' ∧
      ((∃ p f, r = .ok f ∧ s.resolve none sRoot (components path) = ⟨0, p, some f, []⟩ ∧ Object s f ∧ Held s' f) ∨
        ∃ e, r = .error e) := by
  obtain ⟨w, s₁, hwalk, hp, harr, hw⟩ := walkPath_spec h.tree h0
  have hp' : Passes (Entry s) s s₁ := hp.mono fun f hf => walk_entry f hf
  unfold fileOpen
  rw [bind_of_ok hwalk]
  rcases hw with rfl | ⟨rfl, -⟩
  · rcases path_cases s path with ⟨p, f, hr, hobj⟩ | ⟨d, name, hr, -⟩ | hr | hr
    · have hheld : Held s₁ f := (harr.file f (by rw [hr])).held
      rw [hr]
      exact ⟨_, s₁, rfl, hp', .inl ⟨p, f, rfl, rfl, hobj, hheld⟩⟩
    · rw [hr]
      exact ⟨_, s₁, rfl, hp', .inr ⟨_, rfl⟩⟩
    · rw [hr]
      exact ⟨_, s₁, rfl, hp', .inr ⟨_, rfl⟩⟩
    · rw [hr]
      exact ⟨_, s₁, rfl, hp', .inr ⟨_, rfl⟩⟩
  · exact ⟨_, s₁, rfl, hp', .inr ⟨_, rfl⟩⟩

end Mos
