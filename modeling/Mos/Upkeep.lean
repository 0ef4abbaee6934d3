import Mos.Contents
/-!
# Upkeep — what the server does for an open file

What a request for an open file does that takes no block away leaves the paths where they led and the file with the
blocks that it has; and what it has at its positions, where it has no block zero, is what it had.
-/
namespace Mos

open Fallible FilePtr Fs

variable {s s' s'' : Fs} {d e f b i p a : Nat} {path : List (BitVec 8)} {byte : Nat → BitVec 8}

namespace Fs

/-- **A file is kept**, with its blocks, and the directories and the names and types in them are as they were. -/
structure Upkeep (f : Nat) (s s' : Fs) : Prop where
  stays : Stays s s'
  spends : Spends s s'
  name : ∀ e, File s e → s'.nameOf e = s.nameOf e
  type : ∀ e, File s e → s'.view (fType e) = s.view (fType e)
  listing : ∀ d, Dir s d → s'.listing d = s.listing d
  keeps : ∀ i b, s.blockAt f i = some b → s'.blockAt f i = some b

/-- **A file is served**: the path leads to it, it is no directory, it has these bytes, and its entry is in the
cache. -/
structure Served (s : Fs) (path : List (BitVec 8)) (f : Nat) (byte : Nat → BitVec 8) : Prop where
  kept : Kept s
  blank : AllBlank s
  found : ∃ p, s.resolve none sRoot (components path) = ⟨0, p, some f, []⟩
  regular : ¬s.IsDir f
  held : Held s f
  bytes : ∀ p, s.byteAtPos f p = byte p

theorem Served.file (h : Served s path f byte) : File s f := by
  obtain ⟨p, hr⟩ := h.found
  exact (path_found hr).file

theorem Served.shows {x : Contents} (h : Served s path f x.byte) (hsize : (s.view (fSize f)).toNat = x.size) :
    ShowsFile s path x :=
  ⟨h.kept, h.blank, .inl ⟨f, h.found, h.regular, hsize, h.bytes⟩⟩

namespace Upkeep

/-- **Paths lead where they led.** -/
theorem resolve (h : Upkeep f s s') (path : List (BitVec 8)) :
    s'.resolve none sRoot (components path) = s.resolve none sRoot (components path) := by
  refine resolve_congr components_ne_nil (fun x hx => iff_of_eq (congrArg (· = ftypeDir) (h.type x hx.file)))
    (fun x n hx hn => ?_) .root
  unfold Fs.lookup
  rw [h.listing x hx]
  refine List.find?_congr fun e he => ?_
  obtain ⟨i, hi, b, hb, hin⟩ := mem_listing.1 he
  rw [h.name e (.entry x i b e hx.file hx.isDir hi hb hin)]

theorem served {byte' : Nat → BitVec 8} (h : Upkeep f s s') (hs : Served s path f byte)
    (hb : ∀ p, s'.byteAtPos f p = byte' p) :
    Served s' path f byte' :=
  ⟨h.stays.kept, hs.blank.spends h.spends, hs.found.imp fun _ hp => (h.resolve path).trans hp,
    fun hd => hs.regular ((h.type f hs.file).symm.trans hd), h.stays.held hs.held, hb⟩

end Upkeep

/-! ## Requests for the file -/

/-- The words of the entries before their slots, and what the directories hold, are as they were. -/
theorem Upkeep.of_words (hst : Stays s s') (hsp : Spends s s')
    (hwords : ∀ e, File s e → ∀ k < 34, k ≠ 32 → s'.view (e + k) = s.view (e + k))
    (hdirs : ∀ d, Dir s d → s.vol.Agree s'.vol d) (hkeeps : ∀ i b, s.blockAt f i = some b → s'.blockAt f i = some b) :
    Upkeep f s s' :=
  ⟨hst, hsp, fun e he => nameOf_congr fun k hk => hwords e he k (Nat.lt_trans hk (by decide)) (Nat.ne_of_lt hk),
    fun e he => hwords e he 33 (by decide) (by decide), fun d hd => listing_congr (hdirs d hd), hkeeps⟩

theorem Dir.ne_regular (hd : Dir s d) (hreg : ¬s.IsDir f) : d ≠ f := fun hc => hreg (hc ▸ hd.isDir)

theorem Quiet.upkeep (hq : Quiet s s') (h : Kept s) (hf : File s f) : Upkeep f s s' :=
  .of_words (h.stays_quiet hq) (hq.spends h.toOwned) (fun _ _ _ _ _ => hq.edit.view _ id)
    (fun _ hd => (hq.still h.toOwned).agree hd.file)
    fun i _ hb => (congrFun ((hq.still h.toOwned).agree hf).holds (.block i)).trans hb

theorem Quiet.served (hq : Quiet s s') (h : Served s path f byte) : Served s' path f byte :=
  (hq.upkeep h.kept h.file).served h fun p => ((hq.content h.kept.toOwned h.file).bytes h.regular p).trans (h.bytes p)

theorem Extends.upkeep {U : Use → Prop} (h : Extends f U s s') (hk : Kept s) (hf : File s f) (hreg : ¬s.IsDir f) :
    Upkeep f s s' := by
  have ho := hk.toOwned
  refine .of_words ⟨hk.extends hf hreg h, h.file, h.edit.mapped⟩ (h.spends ho hf) (fun e he k hk34 _ => ?_)
    (fun d hd => h.others d hd.file (hd.ne_regular hreg)) fun i b hb => h.keeps (.block i) b hb
  have hk' : k < fileWords := Nat.lt_trans hk34 (by decide)
  obtain ⟨hbit, hused⟩ := ho.word_not_bitmap he hk'
  refine h.edit.view _ ?_
  rintro (hc | ⟨hc, -⟩ | hc)
  · exact hbit hc
  · rw [hused] at hc
    cases hc
  · exact ho.word_not_slot he hf hk' (.inr (.inl hk34)) hc

end Fs

theorem Resized.upkeep {n : Word} (h : Resized f n s s') (hk : Fs.Kept s) (hf : File s f) (hreg : ¬s.IsDir f)
    (hle : ¬n < s.view (fSize f)) :
    Upkeep f s s' := by
  have ho := hk.toOwned
  have hcut := hk.resized hf (fun hd => absurd hd hreg) h
  have hno : ∀ w, ¬s.Lets f n CutGone w := fun _ hc => hle hc.1
  have hfree : ∀ c, s'.blockIsFree c = true → s.blockIsFree c = true := fun c hc =>
    ((h.free c).1 hc).resolve_right fun ⟨_, hc, _⟩ => hle hc.1
  refine .of_words ⟨hk.cut hf hcut, fun e he => (h.file e he).resolve_right
    fun hb => hreg (below_start hb).1, h.edit.mapped⟩
    (.of_edit h.edit hfree ?_)
    (fun e he k hk34 hne => hcut.view ho hf he (Nat.lt_trans hk34 (by decide)) (.inr (.inl ⟨hk34, hne⟩)))
    (fun d hd => h.edit.cut_others ho hf hd.file (hd.ne_regular hreg)) fun i b hb =>
    (h.keeps (.block i) (hno _)).trans hb
  have hused : ∀ c, s.blockIsFree c = false → s'.blockIsFree c = false := fun c hc => by
    refine Bool.eq_false_iff.2 fun hc' => ?_
    rw [hfree c hc'] at hc
    cases hc
  rintro a (ha | ha | rfl)
  · exact hused _ (ho.bitmap_used ha)
  · exact hused _ (ho.inSlots_used hf ha)
  · exact hused _ (ho.word_used hf (show 32 < fileWords by decide))

namespace Fs

/-- **`file_get_block`** -/
theorem Served.getBlock (h : Served s path f byte) (i : Nat) : ∃ r t, fileGetBlock f i s = some (r, t) ∧ Upkeep f s t ∧
    Served t path f byte ∧ t.view (fSize f) = s.view (fSize f) ∧
    ∀ a, r = .ok a → ∃ b, a = diskAddr b ∧ t.blockAt f i = some b ∧ t.mapped b = true := by
  have ho := h.kept.toOwned
  cases hat : s.blockAt f i with
  | some c =>
    obtain ⟨r, t, hget, hl, hres⟩ := fileGetBlock_spec h.held hat (ho.data_block h.file hat) h.kept.up fun c _ hc =>
        ho.data_indirect h.file hc
    have hq : Quiet s t := .of_loads hl fun c hc => by
      rcases hc with hc | ⟨-, hc⟩
      · exact (ho.data_block h.file hc).used
      · exact (ho.data_indirect h.file hc).used
    have hup : Upkeep f s t := hq.upkeep h.kept h.file
    refine ⟨r, t, hget, hup, hq.served h, hq.edit.view _ id, ?_⟩
    rintro a rfl
    rcases hres with ⟨b, hb, rfl, hm⟩ | hout
    · cases hb
      exact ⟨c, rfl, hup.keeps i c hat, hm⟩
    · cases hout.1
  | none =>
    obtain ⟨r, t, hget, hext, hres⟩ :=
      fileGetBlock_alloc (i := i) ho h.file h.held (fun _ _ => h.blank.clean h.kept.up 1)
      fun hg => absurd hg.1 h.regular
    have hup : Upkeep f s t := hext.upkeep h.kept h.file h.regular
    refine ⟨r, t, hget, hup, hup.served h fun p => ?_, hext.size, ?_⟩
    · rw [← h.bytes p]
      cases hold : s.blockAt f (p / blockSize) with
      | some c =>
        exact byteAtPos_congr ((hup.keeps _ c hold).trans hold.symm) fun b hb => hext.data ho h.file h.file h.regular hb
      | none =>
        have hwas : s.byteAtPos f p = 0 := by
          unfold byteAtPos byteOf
          rw [hold]
          rfl
        rw [hwas]
        unfold byteAtPos byteOf
        cases hnew : t.blockAt f (p / blockSize) with
        | none => rfl
        | some b =>
          rcases hext.fresh (.block _) b hnew with hc | ⟨⟨-, hu⟩ | hu, -⟩
          · cases hold.symm.trans hc
          · cases hu
          · cases hu
            rcases hres with ⟨c, -, hc, -, hblock⟩ | ⟨x, -, -, hsame⟩
            · cases hnew.symm.trans hc
              obtain ⟨hfirst, hpage⟩ := hblock hat
              have hzero := (hpage _ (byte_lt p)).trans
                  (h.blank.clean h.kept.up _ b (mem_take_of_head hfirst) _ (byte_lt p))
              rw [Option.map_some, hzero, Option.getD_some]
              exact getByte_zero _
            · cases (hsame.trans hat).symm.trans hnew
    · rintro a rfl
      rcases hres with ⟨b, hb, hat', hm, -⟩ | ⟨e, he, -⟩
      · cases hb
        exact ⟨b, rfl, hat', hm⟩
      · cases he

/-- **`file_set_size`**, where the file gets no smaller. -/
theorem Served.setSize {n : Word} (h : Served s path f byte) (hle : ¬n < s.view (fSize f)) :
    ∃ t, fileSetSize f n s = some (.ok (), t) ∧ Upkeep f s t ∧ Served t path f byte ∧ t.view (fSize f) = n := by
  have ho := h.kept.toOwned
  obtain ⟨t, hrun, hres⟩ :=
    fileSetSize_resizes h.kept.toSound h.file h.held (h.kept.linked h.file) (fun hlt => absurd hlt hle)
  have hup := hres.upkeep h.kept h.file h.regular hle
  refine ⟨t, hrun, hup, hup.served h fun p => ?_, hres.size⟩
  rw [← h.bytes p]
  refine byteAtPos_congr (hres.keeps (.block _) fun hc => hle hc.1) fun b hb k hk => ?_
  obtain ⟨hbit, -, hwords, hslots⟩ := ho.data_word h.file h.regular hb (diskAddr_div b hk)
  refine hres.edit.view _ ?_
  rintro (hc | hc | hc)
  · exact hbit hc
  · exact hslots f h.file hc
  · exact hwords f h.file 32 (by decide) hc

/-- **A client writes** a word of a block of the file. -/
theorem Served.put {k : Nat} {w : Word} (h : Served s path f byte) (hat : s.blockAt f i = some b)
    (hm : s.mapped b = true) (hk : k < blockWords) :
    Upkeep f s (s.put (diskAddr b + k) w) ∧ (s.put (diskAddr b + k) w).view (fSize f) = s.view (fSize f) ∧
      ∀ p, (s.put (diskAddr b + k) w).byteAtPos f p =
        if p / blockSize = i ∧ p % blockSize / 4 = k then getByte w (p % 4) else s.byteAtPos f p := by
  have ho := h.kept.toOwned
  have hdiv := diskAddr_div b hk
  obtain ⟨hbit, hused, hwords, hslots⟩ := ho.data_word h.file h.regular hat hdiv
  obtain ⟨hkept, hstill⟩ := h.kept.write h.file h.regular hat hdiv (put_edit w)
  have hholds := (hstill.agree h.file).holds
  have hword : ∀ e, File s e → ∀ j < fileWords, (s.put (diskAddr b + k) w).view (e + j) =
      s.view (e + j) := fun e he j hj =>
    (put_edit w).view _ fun hc => hwords e he j hj hc.symm
  refine ⟨.of_words (hkept.stays_still hstill fun _ => id) (.of_still hstill (put_edit w) fun a ha => ha ▸ hused)
    (fun e he j hj _ => hword e he j (Nat.lt_trans hj (by decide))) (fun d hd => hstill.agree hd.file)
    fun j c hc => (congrFun hholds (.block j)).trans hc, hword f h.file 32 (by decide), fun p => ?_⟩
  unfold byteAtPos byteOf
  rw [show (s.put (diskAddr b + k) w).blockAt f (p / blockSize) = s.blockAt f (p / blockSize)
    from congrFun hholds (.block _)]
  cases hold : s.blockAt f (p / blockSize) with
  | none =>
    rw [if_neg fun hc => by
      rw [hc.1, hat] at hold
      cases hold]
    rfl
  | some c =>
    rw [Option.map_some, Option.map_some, Option.getD_some, put_view (hdiv.symm ▸ hm), Option.getD_some]
    by_cases hpos : p / blockSize = i ∧ p % blockSize / 4 = k
    · rw [if_pos hpos]
      rw [hpos.1, hat] at hold
      cases hold
      rw [if_pos (by rw [hpos.2])]
    · rw [if_neg hpos, if_neg fun hc => hpos ?_]
      -- a block is at one index of the file
      have hcb : c = b := by rw [← diskAddr_div c (byte_lt p), hc, hdiv]
      subst hcb
      exact ⟨Use.block.inj (ho.vol.sole f f (.block _) (.block i) c h.file h.file hold hat).2, Nat.add_left_cancel hc⟩

end Fs

end Mos
