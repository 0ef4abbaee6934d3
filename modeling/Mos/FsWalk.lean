import Mathlib.Data.List.Find
import Mathlib.Data.List.GetD
import Mathlib.Data.List.TakeWhile
import Mos.FsTree
/-!
# FsWalk — `walk_path` resolves a path

`dir_lookup` goes over the blocks of a directory and sets the `f_dir` of the entry that it finds; `walk_path` goes over
the components.  On a tree both come back with what `lookup` and `resolve` say, unless a block of a directory has to be
read and there is no page for it.
-/
namespace Mos

open Fallible FilePtr Fs

/-! ## Names -/

theorem dropWhile_cons_not {α : Type} {p : α → Bool} {a : α} {l rest : List α} (h : l.dropWhile p = a :: rest) :
    p a = false := by
  have hn := List.head_dropWhile_not p (by rw [h]; exact List.cons_ne_nil a rest)
  simp only [h, List.head_cons] at hn
  exact hn

theorem takeWhile_eq_iff {name l : List (BitVec 8)} (h0 : (0 : BitVec 8) ∉ name) (hlen : name.length < l.length) :
    l.takeWhile (· != 0) = name ↔ name ++ [0] <+: l := by
  constructor
  · intro h
    have happ : name ++ l.dropWhile (· != 0) = l := by
      rw [← h]
      exact List.takeWhile_append_dropWhile
    cases hd : l.dropWhile (· != 0) with
    | nil =>
      rw [hd, List.append_nil] at happ
      rw [happ] at hlen
      exact absurd hlen (Nat.lt_irrefl _)
    | cons a rest =>
      have ha : a = 0 := by simpa using dropWhile_cons_not hd
      rw [hd, ha] at happ
      exact ⟨rest, by rw [← happ, List.append_assoc, List.singleton_append]⟩
  · rintro ⟨rest, rfl⟩
    rw [List.append_assoc, List.singleton_append, List.takeWhile_append_of_pos,
      List.takeWhile_cons_of_neg, List.append_nil]
    · simp
    · intro a ha
      have hne : a ≠ 0 := fun h => h0 (h ▸ ha)
      simpa using hne

/-- **`strcmp` compares the names.** -/
theorem nameIs_iff {m : Nat → Word} {f : Nat} {name : List (BitVec 8)} (h0 : (0 : BitVec 8) ∉ name)
    (hlen : name.length < maxNameLen) :
    nameIs m f name = true ↔ ((List.range maxNameLen).map (fName m f)).takeWhile (· != 0) = name := by
  rw [takeWhile_eq_iff h0 (by rw [List.length_map, List.length_range]; exact hlen), List.prefix_iff_getElem]
  unfold nameIs
  simp only [List.all_eq_true, List.mem_range, beq_iff_eq, List.length_append, List.length_singleton, List.length_map,
    List.length_range, List.getElem_map, List.getElem_range]
  constructor
  · intro h
    refine ⟨hlen, fun i hi => ?_⟩
    rw [h i hi, List.getD_eq_getElem _ _ (by rw [List.length_append]; exact hi)]
  · rintro ⟨-, h⟩ i hi
    rw [← h i hi, List.getD_eq_getElem _ _ (by rw [List.length_append]; exact hi)]

theorem nameIs_congr {m m' : Nat → Word} {f : Nat} {name : List (BitVec 8)} (hlen : name.length < maxNameLen)
    (h : ∀ k < fileWords, m (f + k) = m' (f + k)) : nameIs m f name = nameIs m' f name := by
  unfold nameIs
  rw [Bool.eq_iff_iff]
  simp only [List.all_eq_true, List.mem_range]
  refine forall₂_congr fun i hi => ?_
  have hw : (4 * f + i) / 4 = f + i / 4 := by omega
  have hk : i / 4 < fileWords := by
    unfold fileWords
    unfold maxNameLen at hlen
    omega
  unfold fName byteAt
  rw [hw, h _ hk]

/-! ## Components -/

theorem dropWhile_slash_head {path : List (BitVec 8)} : (skipSlash path).head? ≠ some slash := by
  unfold skipSlash
  cases h : path.dropWhile (· == slash) with
  | nil => exact fun hc => nomatch hc
  | cons a rest =>
    intro hc
    cases hc
    simpa using dropWhile_cons_not h

theorem components_slash (path : List (BitVec 8)) : components (slash :: path) = components path := by
  unfold components
  rw [List.splitOn_cons_eq_if_modifyHead, if_pos (beq_self_eq_true slash)]
  rfl

/-- **Slashes before a path do not matter.** -/
theorem components_skipSlash (path : List (BitVec 8)) : components (skipSlash path) = components path := by
  induction path with
  | nil => rfl
  | cons a path ih =>
    unfold skipSlash at ih ⊢
    by_cases ha : a = slash
    · subst ha
      rw [components_slash]
      exact ih
    · rw [List.dropWhile_cons_of_neg (by simpa using ha)]

/-- **The first component of a path**, and the others. -/
theorem components_cons {path : List (BitVec 8)} (hne : path ≠ []) (hhead : path.head? ≠ some slash) :
    components path =
      path.takeWhile (· != slash) :: components (skipSlash (path.dropWhile (· != slash))) ∧
    path.takeWhile (· != slash) ≠ [] := by
  rw [components_skipSlash]
  have hfirst : path.takeWhile (· != slash) ≠ [] := by
    cases path with
    | nil => exact absurd rfl hne
    | cons a rest =>
      have ha : a ≠ slash := fun h => hhead (congrArg some h)
      rw [List.takeWhile_cons_of_pos (by simpa using ha)]
      exact List.cons_ne_nil _ _
  refine ⟨?_, hfirst⟩
  have hmem : slash ∉ path.takeWhile (· != slash) := by
    intro h
    simpa using List.mem_takeWhile_imp h
  have hpath : path.takeWhile (· != slash) ++ path.dropWhile (· != slash) = path := List.takeWhile_append_dropWhile
  generalize path.takeWhile (· != slash) = name at hfirst hmem hpath ⊢
  cases hd : path.dropWhile (· != slash) with
  | nil =>
    rw [hd, List.append_nil] at hpath
    subst hpath
    unfold components
    rw [List.splitOn_eq_singleton hmem, List.splitOn_nil, List.filter_cons_of_pos (by simpa using hfirst)]
    rfl
  | cons a rest =>
    have ha : a = slash := by simpa using dropWhile_cons_not hd
    subst ha
    rw [hd] at hpath
    subst hpath
    rw [components_slash]
    unfold components
    rw [List.splitOn_append_cons_self_of_not_mem hmem, List.filter_cons_of_pos (by simpa using hfirst)]

theorem components_eq_nil {path : List (BitVec 8)} (hhead : path.head? ≠ some slash) :
    components path = [] ↔ path = [] := by
  constructor
  · intro h
    by_contra hne
    rw [(components_cons hne hhead).1] at h
    exact absurd h (List.cons_ne_nil _ _)
  · rintro rfl
    rfl

/-! ## One directory -/

variable {s s' : Fs} {P : Nat → Prop} {d : Nat}

namespace Fs

/-- The blocks that are read for a directory. -/
def BlockOfDir (s : Fs) (d b : Nat) : Prop := ∃ i < s.nblocks d, s.BlockOf d i b

theorem Tree.blockOfDir (ht : Tree s) (hd : Dir s d) {b : Nat} (hb : s.BlockOfDir d b) : Data s b := by
  obtain ⟨i, hi, hb | ⟨h10, hb⟩⟩ := hb
  · obtain ⟨c, hc, hdata⟩ := ht.block d hd i hi
    cases hb.symm.trans hc
    exact hdata
  · exact ht.indirect d hd (Nat.lt_of_le_of_lt h10 hi) b hb

namespace Passes

theorem store (h : Passes P s s') {f : Nat} (hd : Dir s d) (hfd : f ∈ s.listing d) (hheld : Held s' d)
    (hm : s'.mapped (fDir f / blockWords) = true) :
    Passes (fun e => P e ∨ e = f) s { s' with mem := Function.update s'.mem (fDir f) (addrOf d) } := by
  have hview : ∀ a, a ≠ fDir f →
      Fs.view { s' with mem := Function.update s'.mem (fDir f) (addrOf d) } a = s'.view a := by
    intro a hne
    simp only [Fs.view, Function.update_of_ne hne]
  refine ⟨fun a ha => ?_, fun e he => ?_, h.mapped, h.read, h.dirty, h.disk, h.super, h.bitmap, h.pages⟩
  · rw [hview a (ha f (.inr rfl))]
    exact h.view a fun e he => ha e (.inl he)
  · by_cases hef : e = f
    · subst hef
      refine .inr ⟨d, hd, hfd, hheld, ?_⟩
      simp only [Fs.view, hm, Function.update_self, if_true]
    · have hne : fDir e ≠ fDir f := fun hc => hef (Nat.add_right_cancel hc)
      rw [hview _ hne]
      exact h.link e (he.resolve_right hef)

theorem getBlock (h : Passes P s s') (ht : Tree s) (hP : ∀ f, P f → Entry s f) (hd : Dir s d) (hheld : Held s' d)
    {i b : Nat} (hi : i < s.nblocks d) (hb : s.blockAt d i = some b) :
    Loading (s.BlockOfDir d) s' (fileGetBlock d i) fun a s'' => a = diskAddr b ∧ s''.mapped b = true := by
  have hind := h.indirect ht hP hd.object.entry_or_root
  have hat := h.blockAt ht hP hd hi
  obtain ⟨hn, hup, hfree⟩ := h.up ht hP
  obtain ⟨b', hb', hdata⟩ := ht.block d hd i hi
  cases hb.symm.trans hb'
  have hget := fileGetBlock_spec hheld (hat.trans hb) (hdata.congr hn hfree) hup fun c hc hsome =>
    (ht.indirect d hd (Nat.lt_of_le_of_lt hc hi) c (hind ▸ hsome)).congr hn hfree
  refine hget.mono (fun c hc => ⟨i, hi, ?_⟩) fun _ _ _ h => h
  unfold BlockOf at hc ⊢
  rw [hind, hat] at hc
  exact hc

end Passes

end Fs

/-- The entries of a block that has its page have the names they have in the tree. -/
theorem find_nameIs (h : Passes P s s') (ht : Tree s) (hP : ∀ f, P f → Entry s f) {b : Nat} (hm : s'.mapped b = true)
    (hentry : ∀ f ∈ entries (diskAddr b), Entry s f) {name : List (BitVec 8)} (h0 : (0 : BitVec 8) ∉ name)
    (hlen : name.length < maxNameLen) :
    (entries (diskAddr b)).find? (fun f => nameIs s'.mem f name) = (entries (diskAddr b)).find? fun f =>
    s.nameOf f == name := by
  refine List.find?_congr fun f hf => ?_
  have hword : ∀ k < fileWords, s'.mem (f + k) = s'.view (f + k) := by
    obtain ⟨j, hj, rfl⟩ := mem_entries.1 hf
    intro k hk
    refine mem_eq_view ?_
    rw [Nat.add_assoc, diskAddr_div b (Entry.lt_block hj hk)]
    exact hm
  rw [nameIs_congr hlen hword, ← h.nameOf ht hP (.inr (hentry f hf)), Bool.eq_iff_iff, nameIs_iff h0 hlen, beq_iff_eq]
  rfl

/-- **A file that was found**: its page is there, and its `f_dir` is the directory it was found in. -/
structure Fs.Landed (s s' : Fs) (f : Nat) : Prop where
  held : Held s' f
  link : f = sRoot ∨ ∃ d, Dir s d ∧ f ∈ s.listing d ∧ Held s' d ∧ s'.view (fDir f) = addrOf d

/-- **`dir_lookup`**, from one of the blocks on. -/
theorem dirLookupFrom_spec (ht : Tree s) (hd : Dir s d) (hP : ∀ f, P f → Entry s f) {name : List (BitVec 8)}
    (h0 : (0 : BitVec 8) ∉ name) (hlen : name.length < maxNameLen) (is : List Nat) (his : ∀ i ∈ is, i < s.nblocks d) :
    ∀ s', Passes P s s' → Held s' d → ∃ r s'', dirLookupFrom d name is s' = some (r, s'') ∧ Held s'' d ∧
      ((∃ f, (is.flatMap (s.entriesAt d)).find? (fun f => s.nameOf f == name) = some f ∧ r = .ok f ∧ Landed s s'' f ∧
          Passes (fun e => P e ∨ e = f) s s'') ∨
        ((is.flatMap (s.entriesAt d)).find? (fun f => s.nameOf f == name) = none ∧
          r = .error (-eNotFound) ∧ Passes P s s'') ∨
        (OutOfPages (s.BlockOfDir d) s r ∧ Passes P s s'')) := by
  induction is with
  | nil =>
    intro s' hp hheld
    exact ⟨_, s', rfl, hheld, .inr (.inl ⟨rfl, rfl, hp⟩)⟩
  | cons i is ih =>
    intro s' hp hheld
    have hi := his i List.mem_cons_self
    obtain ⟨b, hb, hdata⟩ := ht.block d hd i hi
    have hat : s.entriesAt d i = entries (diskAddr b) := by
      unfold entriesAt
      rw [hb]
      rfl
    have hentry : ∀ f ∈ entries (diskAddr b), Entry s f := fun f hf => ⟨d, hd, mem_listing.2 ⟨i, hi, b, hb, hf⟩⟩
    obtain ⟨r, s₁, hget, hl, ⟨a, rfl, rfl, hm⟩ | hout⟩ := hp.getBlock ht hP hd hheld hi hb
    · have hused : ∀ c, s.BlockOfDir d c → s.blockIsFree c = false := fun c hc => (ht.blockOfDir hd hc).used
      have hp₁ := hp.loads hl hused
      have hfind := find_nameIs hp₁ ht hP hm hentry h0 hlen
      unfold dirLookupFrom
      rw [bind_of_ok hget, bind_of_ok (show Fallible.read id s₁ = some (.ok s₁, s₁) from rfl), List.flatMap_cons, hat,
        List.find?_append, ← hfind]
      cases hf : (entries (diskAddr b)).find? (fun f => nameIs s₁.mem f name) with
      | some f =>
        have hmem := List.mem_of_find?_eq_some hf
        have hheld' : Held s₁ f := by
          obtain ⟨j, hj, rfl⟩ := mem_entries.1 hmem
          intro k hk
          rw [Nat.add_assoc, diskAddr_div b (Entry.lt_block hj hk)]
          exact hm
        have hlist : f ∈ s.listing d := mem_listing.2 ⟨i, hi, b, hb, hmem⟩
        have hstore := hp₁.store hd hlist (hheld.loads hl) (hheld' 45 (by decide))
        have hm : s₁.mapped (fDir f / blockWords) = true := hheld' 45 (by decide)
        have hdir : Fs.view { s₁ with mem := Function.update s₁.mem (fDir f) (addrOf d) } (fDir f) = addrOf d := by
          simp only [Fs.view, hm, Function.update_self, if_true]
        have hhelddir : Held s₁ d := hheld.loads hl
        exact ⟨.ok f, _, rfl, hhelddir, .inl ⟨f, rfl, rfl, ⟨hheld', .inr ⟨d, hd, hlist, hhelddir, hdir⟩⟩, hstore⟩⟩
      | none =>
        rw [Option.none_or]
        exact ih (fun j hj => his j (List.mem_cons_of_mem i hj)) s₁ hp₁ (hheld.loads hl)
    · obtain rfl := hout.1
      have hp₁ := hp.loads hl fun c hc => (ht.blockOfDir hd hc).used
      refine ⟨_, s₁, ?_, hheld.loads hl, .inr (.inr ⟨(hout.back hp.mapped hp.pages).cast, hp₁⟩)⟩
      unfold dirLookupFrom
      rw [bind_of_error hget]

/-- **`dir_lookup`** finds the entry with the name. -/
theorem dirLookup_spec (ht : Tree s) (hd : Dir s d) (hP : ∀ f, P f → Entry s f) {name : List (BitVec 8)}
    (h0 : (0 : BitVec 8) ∉ name) (hlen : name.length < maxNameLen) (hp : Passes P s s') (hheld : Held s' d) :
    ∃ r s'', dirLookup d name s' = some (r, s'') ∧ Held s'' d ∧
      ((∃ f, s.lookup d name = some f ∧ r = .ok f ∧ Landed s s'' f ∧ Passes (fun e => P e ∨ e = f) s s'') ∨
        (s.lookup d name = none ∧ r = .error (-eNotFound) ∧ Passes P s s'') ∨
        (OutOfPages (s.BlockOfDir d) s r ∧ Passes P s s'')) := by
  have hsize : s'.mem (fSize d) = s'.view (fSize d) := mem_eq_view (hheld 32 (by decide))
  have hn : (s'.view (fSize d)).toNat / blockSize = s.nblocks d := hp.nblocks ht hP hd.object.entry_or_root
  unfold dirLookup lookup listing
  rw [bind_of_ok (show loadWord (fSize d) s' = some (.ok (s'.mem (fSize d)), s') from rfl), hsize, hn]
  exact dirLookupFrom_spec ht hd hP h0 hlen _ (fun i hi => List.mem_range.1 hi) s' hp hheld

/-! ## The components, one after another -/

/-- **There is no page** for a block of one of the directories. -/
def Starved (s : Fs) (dirs : List Nat) (w : Walked) : Prop :=
  w = ⟨-eNoMem, none, none, []⟩ ∧ false ∈ s.pages ∧ ∃ d ∈ dirs, ∃ b, s.BlockOfDir d b ∧ s.mapped b = false

theorem Starved.cons {dirs : List Nat} {w : Walked} (h : Starved s dirs w) (d : Nat) : Starved s (d :: dirs) w := by
  obtain ⟨hw, hp, e, he, hb⟩ := h
  exact ⟨hw, hp, e, List.mem_cons_of_mem d he, hb⟩

theorem skipSlash_sublist (path : List (BitVec 8)) : skipSlash path <:+ path := List.dropWhile_suffix _

theorem rest_length {path : List (BitVec 8)} (hfirst : path.takeWhile (· != slash) ≠ []) :
    (skipSlash (path.dropWhile (· != slash))).length < path.length := by
  have hle := (skipSlash_sublist (path.dropWhile (· != slash))).length_le
  have hpos := List.length_pos_iff.2 hfirst
  have happ := congrArg List.length (List.takeWhile_append_dropWhile (p := (· != slash)) (l := path))
  rw [List.length_append] at happ
  omega

/-- What a walk has found is there. -/
structure Fs.Arrived (s s' : Fs) (w : Walked) : Prop where
  file : ∀ f, w.pfile = some f → Landed s s' f
  dir : ∀ d, w.pfile = none → w.pdir = some d → Held s' d

/-- **The loop of `walk_path`** resolves what is left of the path. -/
theorem walkFrom_spec (ht : Tree s) (n : Nat) : ∀ (P : Nat → Prop) (s' : Fs) (dir : Option Nat) (file : Nat)
    (path : List (BitVec 8)), path.length ≤ n → (0 : BitVec 8) ∉ path → path.head? ≠ some slash → Object s file →
    Landed s s' file → (∀ f, P f → Entry s f) → Passes P s s' →
    ∃ w s'', walkFrom n dir file path s' = some (.ok w, s'') ∧
      Passes (fun e => P e ∨ e ∈ s.passed file (components path)) s s'' ∧ Arrived s s'' w ∧
      (w = s.resolve dir file (components path) ∨ Starved s (file :: s.passed file (components path)) w) := by
  have hfound : ∀ {s' : Fs} {dir : Option Nat} {file : Nat}, Landed s s' file → Arrived s s' ⟨0, dir, some file, []⟩ :=
    fun hland => ⟨fun f hf => Option.some.inj hf ▸ hland, fun d hnone => absurd hnone (Option.some_ne_none _)⟩
  have hnowhere : ∀ {s' : Fs} (r : Int), Arrived s s' ⟨r, none, none, []⟩ := fun r =>
    ⟨fun f hf => absurd hf.symm (Option.some_ne_none f), fun d _ hd => absurd hd.symm (Option.some_ne_none d)⟩
  induction n with
  | zero =>
    intro P s' dir file path hn _ _ _ hland _ hp
    obtain rfl := List.length_eq_zero_iff.1 (Nat.le_zero.1 hn)
    exact ⟨_, s', rfl, hp.mono fun _ => .inl, hfound hland, .inl rfl⟩
  | succ n ih =>
    intro P s' dir file path hn h0 hhead hobj hland hP hp
    have hheld := hland.held
    unfold walkFrom
    by_cases hpath : path = []
    · subst hpath
      exact ⟨_, s', rfl, hp.mono fun _ => .inl, hfound hland, .inl rfl⟩
    · rw [if_neg hpath]
      obtain ⟨hcomp, hfirst⟩ := components_cons hpath hhead
      have hshort := rest_length hfirst
      have hhead' := @dropWhile_slash_head (path.dropWhile (· != slash))
      have h0name : (0 : BitVec 8) ∉ path.takeWhile (· != slash) := fun h => h0 ((List.takeWhile_prefix _).mem h)
      have h0rest : (0 : BitVec 8) ∉ skipSlash (path.dropWhile (· != slash)) := fun h =>
        h0 ((List.dropWhile_suffix _).mem ((skipSlash_sublist _).mem h))
      rw [hcomp]
      unfold resolve passed
      generalize path.takeWhile (· != slash) = name at *
      generalize skipSlash (path.dropWhile (· != slash)) = rest at *
      by_cases hlen : maxNameLen ≤ name.length
      · simp only [if_pos hlen]
        exact ⟨_, s', rfl, hp.mono fun _ => .inl, hnowhere _, .inl rfl⟩
      · simp only [if_neg hlen]
        have htype : s'.mem (fType file) = s.view (fType file) :=
          (mem_eq_view (hheld 33 (by decide))).trans (hp.type ht hP hobj.entry_or_root)
        rw [bind_of_ok (show loadWord (fType file) s' = some (.ok (s'.mem (fType file)), s') from rfl), htype]
        by_cases hdir : s.view (fType file) = ftypeDir
        · have hd : Dir s file := ⟨hobj, hdir⟩
          simp only [ne_eq, hdir, not_true_eq_false, if_false]
          obtain ⟨r, s₁, hlook, hhelddir, ⟨f, hf, rfl, hland', hp'⟩ | ⟨hf, rfl, hp'⟩ | ⟨hout, hp'⟩⟩ :=
            dirLookup_spec ht hd hP h0name (Nat.not_le.1 hlen) hp hheld
          · have hmem := List.mem_of_find?_eq_some hf
            have hname : s.nameOf f ≠ [] := by
              have := List.find?_some hf
              rw [beq_iff_eq] at this
              rw [this]
              exact hfirst
            rw [bind_attempt hlook]
            simp only [hf]
            have hP' : ∀ e, (P e ∨ e = f) → Entry s e := fun e he => he.elim (hP e) fun h => h ▸ ⟨file, hd, hmem⟩
            obtain ⟨w, s₂, hw, hp₂, harr, hres⟩ := ih _ s₁ (some file) f rest (by omega) h0rest hhead'
              (.entry file f hobj hdir hmem hname) hland' hP' hp'
            refine ⟨w, s₂, hw, hp₂.mono fun e he => ?_, harr, hres.imp_right fun h => h.cons file⟩
            rw [List.mem_cons]
            exact or_assoc.1 he
          · rw [bind_attempt hlook]
            simp only [hf]
            by_cases hrest : rest = []
            · refine ⟨_, s₁, by rw [if_pos ⟨trivial, hrest⟩]; rfl, hp'.mono fun _ => .inl,
                ⟨fun f hf => absurd hf.symm (Option.some_ne_none f), fun d _ (hd : some file = some d) =>
                  Option.some.inj hd ▸ hhelddir⟩, .inl ?_⟩
              rw [if_pos ((components_eq_nil hhead').2 hrest)]
            · refine ⟨_, s₁, by rw [if_neg fun h => hrest h.2]; rfl, hp'.mono fun _ => .inl, hnowhere _, .inl ?_⟩
              rw [if_neg fun h => hrest ((components_eq_nil hhead').1 h)]
          · obtain ⟨rfl, hpages, hblock⟩ := hout
            rw [bind_attempt hlook]
            refine ⟨_, s₁, ?_, hp'.mono fun _ => .inl, hnowhere _, .inr ⟨rfl, hpages, file, List.mem_cons_self, hblock⟩⟩
            have hne : ¬(-eNoMem = -eNotFound ∧ rest = []) := fun h => absurd h.1 (by decide)
            simp only [if_neg hne]
            rfl
        · simp only [ne_eq, hdir, not_false_eq_true, if_true]
          exact ⟨_, s', rfl, hp.mono fun _ => .inl, hnowhere _, .inl rfl⟩

/-- **`walk_path`**, with what it leaves in the cache. -/
theorem walkPath_spec (ht : Tree s) {path : List (BitVec 8)} (h0 : (0 : BitVec 8) ∉ path) :
    ∃ w s', walkPath path s = some (.ok w, s') ∧ Passes (· ∈ s.passed sRoot (components path)) s s' ∧ Arrived s s' w ∧
      (w = s.resolve none sRoot (components path) ∨ Starved s (sRoot :: s.passed sRoot (components path)) w) := by
  have hroot : Held s sRoot := by
    intro k hk
    have h1 : (sRoot + k) / blockWords = 1 := by
      unfold sRoot blockWords
      unfold fileWords at hk
      omega
    rw [h1]
    exact ht.up.super_mapped
  have h0' : (0 : BitVec 8) ∉ skipSlash path := fun h => h0 ((skipSlash_sublist path).mem h)
  obtain ⟨w, s', hw, hp, harr, hres⟩ := walkFrom_spec ht path.length (fun _ => False) s none sRoot (skipSlash path)
    (skipSlash_sublist path).length_le h0' dropWhile_slash_head .root ⟨hroot, .inl rfl⟩ (fun _ h => h.elim) (.refl s _)
  rw [components_skipSlash] at hp hres
  exact ⟨w, s', hw, hp.mono fun e he => he.resolve_left id, harr, hres⟩

/-- **`walk_path` resolves the path**: the components are looked up one after another from the root, and nothing changes
but the `f_dir` of the entries passed through. -/
theorem walkPath_resolves (ht : Tree s) {path : List (BitVec 8)} (h0 : (0 : BitVec 8) ∉ path) :
    ∃ w s', walkPath path s = some (.ok w, s') ∧ Passes (· ∈ s.passed sRoot (components path)) s s' ∧
      (w = s.resolve none sRoot (components path) ∨ Starved s (sRoot :: s.passed sRoot (components path)) w) := by
  obtain ⟨w, s', hw, hp, -, hres⟩ := walkPath_spec ht h0
  exact ⟨w, s', hw, hp, hres⟩

/-! ### A tree with one file -/

/-- The root has one block, which has the regular file `a` and is not in the cache. -/
def oneFile (pages : List Bool) : Fs where
  mem a := if a = 1025 then 8 else if a = 1058 then 4096 else if a = 1059 then ftypeDir else if a = 1060 then 4 else 0
  mapped b := b == 1 || b == 2
  dirty _ := false
  disk a := if a = 4096 then 0x61 else 0
  super := true
  bitmap := true
  pages

section oneFile

variable (pages : List Bool)

theorem oneFile_blockAt : (oneFile pages).blockAt sRoot 0 = some 4 := by
  show (oneFile []).blockAt sRoot 0 = some 4
  decide

theorem oneFile_nblocks : (oneFile pages).nblocks sRoot = 1 := by
  show (oneFile []).nblocks sRoot = 1
  decide

theorem oneFile_sNblocks : (oneFile pages).sNblocks = 8 := by
  show (oneFile []).sNblocks = 8
  decide

theorem oneFile_entry {f : Nat} (h : f ∈ (oneFile pages).listing sRoot) :
    ∃ j < file2blk, f = diskAddr 4 + fileWords * j := by
  obtain ⟨i, hi, b, hb, hf⟩ := mem_listing.1 h
  rw [oneFile_nblocks] at hi
  obtain rfl : i = 0 := by omega
  cases (oneFile_blockAt pages).symm.trans hb
  exact mem_entries.1 hf

theorem oneFile_type {j : Nat} (hj : j < file2blk) :
    (oneFile pages).view (fType (diskAddr 4 + fileWords * j)) = ftypeReg := by
  have hw : fType (diskAddr 4 + fileWords * j) = diskAddr 4 + (fileWords * j + 33) := rfl
  have hk := Entry.lt_block hj (show 33 < fileWords by decide)
  have hne : diskAddr 4 + (fileWords * j + 33) ≠ 4096 := by
    unfold diskAddr blockWords
    omega
  rw [hw]
  unfold Fs.view
  rw [diskAddr_div 4 hk]
  exact if_neg hne

theorem oneFile_dir {d : Nat} (hd : Dir (oneFile pages) d) : d = sRoot := by
  obtain ⟨hobj, hdir⟩ := hd
  induction hobj with
  | root => rfl
  | entry d f _ hd hf _ ih =>
    obtain rfl := ih hd
    obtain ⟨j, hj, rfl⟩ := oneFile_entry pages hf
    exact absurd (hdir.symm.trans (oneFile_type pages hj)) (by decide)

theorem oneFile_up : Up (oneFile pages) := by
  refine ⟨rfl, rfl, fun b h1 hb => ?_⟩
  unfold reserved at hb
  rw [oneFile_sNblocks] at hb
  have hb : b < 3 := hb
  obtain rfl | rfl : b = 1 ∨ b = 2 := by omega
  · rfl
  · rfl

theorem oneFile_tree : Tree (oneFile pages) := by
  refine ⟨oneFile_up pages, fun d hd i hi => ?_, fun d hd hn => ?_, fun d e hd _ hn => ?_⟩
  · obtain rfl := oneFile_dir pages hd
    rw [oneFile_nblocks] at hi
    obtain rfl : i = 0 := by omega
    have hfree : (oneFile pages).blockIsFree 4 = false := by
      show (oneFile []).blockIsFree 4 = false
      decide
    refine ⟨4, oneFile_blockAt pages, ?_, ?_, hfree⟩
    · unfold reserved
      rw [oneFile_sNblocks]
      decide
    · rw [oneFile_sNblocks]
      decide
  · obtain rfl := oneFile_dir pages hd
    rw [oneFile_nblocks] at hn
    exact absurd hn (by decide)
  · obtain rfl := oneFile_dir pages hd
    rw [oneFile_nblocks] at hn
    exact absurd hn (by decide)

end oneFile

/-- `//a` is the file of the root. -/
theorem walkPath_oneFile : ∃ w s', walkPath [slash, slash, 0x61] (oneFile []) = some (.ok w, s') ∧
    w.r = 0 ∧ w.pdir = some sRoot ∧ w.pfile = some (diskAddr 4) ∧ ∀ a, a ≠ fDir (diskAddr 4) →
    s'.view a = (oneFile []).view a := by
  have hres : (oneFile []).resolve none sRoot (components [slash, slash, 0x61]) =
      ⟨0, some sRoot, some (diskAddr 4), []⟩ := by
    decide +kernel
  have hpassed : (oneFile []).passed sRoot (components [slash, slash, 0x61]) = [diskAddr 4] := by
    decide +kernel
  obtain ⟨w, s', hw, hp, rfl | hout⟩ := @walkPath_resolves _ (oneFile_tree []) [slash, slash, 0x61] (by decide)
  · refine ⟨_, s', hw, ?_⟩
    rw [hres]
    refine ⟨rfl, rfl, rfl, fun a ha => hp.view a fun f hf => ?_⟩
    rw [hpassed, List.mem_singleton] at hf
    subst hf
    exact ha
  · exact absurd hout.2.1 List.not_mem_nil

/-- **The block of the root has to be read, and there is no page.** -/
theorem walkPath_starves : ¬∀ (s : Fs) (path : List (BitVec 8)), Tree s → (0 : BitVec 8) ∉ path →
    ∃ w s', walkPath path s = some (.ok w, s') ∧ w = s.resolve none sRoot (components path) := by
  intro h
  obtain ⟨w, s', hw, hres⟩ := h (oneFile [false]) [0x61] (oneFile_tree _) (by decide)
  have hr : (walkPath [0x61] (oneFile [false])).map (fun r => r.1.toOption.map (·.r)) =
      some (some (-eNoMem)) := by decide +kernel
  have hres' : ((oneFile [false]).resolve none sRoot (components [0x61])).r = 0 := by decide +kernel
  rw [hw, hres] at hr
  exact absurd (hres'.symm.trans (Option.some.inj (Option.some.inj hr))) (by decide)

end Mos
