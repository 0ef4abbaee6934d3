import Mos.Creating
/-!
# Opening — what an open leaves of the files that are there

The bits of the mode are looked at one after another, and nothing asks what kind of file the path leads to: `O_MKDIR`
makes a directory of a regular file.  An open that is meant for what it finds leaves every file its name and its type,
and all of it but for the file that it cuts off; the directory that it creates a file in keeps its blocks and its
names.
-/
namespace Mos

open Fallible FilePtr Fs

namespace Fs

/-- **The open is meant for what it finds**: `O_MKDIR` for a directory. -/
def Meant (s : Fs) (path : List (BitVec 8)) (omode : Word) : Prop :=
  omode &&& oMkdir ≠ 0 → ∀ p f, s.resolve none sRoot (components path) = ⟨0, p, some f, []⟩ → s.IsDir f

theorem Object.not_free {s : Fs} {d f : Nat} (h : Object s f) (ho : Owned s) (hd : Dir s d) :
    s.freeEntry d ≠ some f := by
  intro hfree
  cases h with
  | root =>
    obtain ⟨i, -, b, hb, hin⟩ := mem_listing.1 (List.mem_of_find?_eq_some hfree)
    obtain ⟨j, hj, heq⟩ := mem_entries.1 hin
    have h1 := root_word (show 0 < fileWords by decide)
    rw [heq, entry_word hj (show 0 < fileWords by decide)] at h1
    have := (ho.data_block hd.file hb).le
    have := reserved_ge s
    omega
  | entry d f _ _ _ hname => exact hname (freeEntry_name hfree)

theorem Object.spared {s : Fs} {path : List (BitVec 8)} {omode : Word} {f : Nat} (h : Object s f) (ho : Owned s)
    (hm : s.Meant path omode) : s.Spared path omode f := by
  refine ⟨h.file, fun d ⟨_, name, hr⟩ => ?_, fun p hr => ?_⟩
  · exact h.not_free ho (path_missing hr).dir
  · by_cases hmk : omode &&& oMkdir = 0
    · exact .inl hmk
    · exact .inr (hm hmk p f hr)

end Fs

namespace Desk

variable {t : Desk} {path : List (BitVec 8)} {omode : Word} {reply : Reply} {srv : Server}

/-- **In every safe run an open leaves the files that are there**, where it is meant for what it finds. -/
theorem open_leaves (h : Run Init step Safe t) (hs : t.AskSafe (.openFile path omode))
    (hm : t.server.fs.Meant path omode)
    (hrun : serveTable t.refs (.openFile path omode) t.server = some (.ok reply, srv)) :
    ∀ f, Object t.server.fs f → Left path omode f t.server.fs srv.fs := by
  have hk := (inv_run h).kept
  obtain ⟨reply', srv', hrun', hopened⟩ := Serv.serveOpen_spec t.refs hk hs.1 hs.2
  cases hrun.symm.trans hrun'
  exact fun f hf => hopened.spared f (hf.spared hk.toOwned hm)

/-- The file `a` gets five bytes. -/
def sizesFirst : DeskAct := .ask (.setSize 0 5) (Function.update (fun _ => 0) 0 2)

/-- The file `b` is created beside `a`. -/
theorem open_leaves_second :
    ∃ (t : Desk) (reply : Reply) (srv : Server) (f : Nat), f ≠ sRoot ∧ Object t.server.fs f ∧
    t.server.fs.view (fSize f) = 5 ∧
    serveTable t.refs (.openFile [0x62] oCreat) t.server = some (.ok reply, srv) ∧
    ∀ f, Object t.server.fs f → Left [0x62] oCreat f t.server.fs srv.fs := by
  have hok : ((atBoot []).step opensFirst).any (fun d => decide (d.server.fs.view (fSize (d.file 0)) = 0) &&
      decide (d.server.fs.view (fType (d.file 0)) ≠ ftypeDir) && (d.step sizesFirst).any fun t =>
        decide (t.server.fs.resolve none sRoot (components [0x62]) = ⟨-eNotFound, some sRoot, none, [0x62]⟩) &&
        (t.server.fs.freeEntry sRoot).isSome &&
        decide (t.server.fs.resolve none sRoot (components [0x61]) = ⟨0, some sRoot, some (diskAddr 3), []⟩) &&
        decide (t.server.fs.view (fSize (diskAddr 3)) = 5) &&
        (serveTable t.refs (.openFile [0x62] oCreat) t.server).any fun r =>
        r.1.toOption.isSome) = true := by decide +kernel
  obtain ⟨d, hd, hok⟩ := (Option.any_eq_true _ _).1 hok
  rw [Bool.and_eq_true, Bool.and_eq_true, decide_eq_true_eq, decide_eq_true_eq] at hok
  obtain ⟨⟨hempty, hreg⟩, hok⟩ := hok
  obtain ⟨t, ht, hok⟩ := (Option.any_eq_true _ _).1 hok
  simp only [Bool.and_eq_true, decide_eq_true_eq] at hok
  obtain ⟨⟨⟨⟨hmiss, hfree⟩, hfound⟩, hsize⟩, hok⟩ := hok
  obtain ⟨⟨r, srv⟩, hrun, hr⟩ := (Option.any_eq_true _ _).1 hok
  have hsizes : d.Safe sizesFirst :=
    fun _ => ⟨fun hlt => absurd (hempty ▸ hlt) (by decide), fun hdir => absurd hdir hreg⟩
  have hreach : Run Init step Safe t :=
    .next d sizesFirst t (.next (atBoot []) opensFirst d (.start _ (atBoot_init [])) opensFirst_safe hd) hsizes ht
  have hsafe : t.AskSafe (.openFile [0x62] oCreat) := by
    refine ⟨by decide, ⟨fun _ d name hr hnone => ?_, fun hm => absurd rfl hm, fun ht => absurd rfl ht⟩⟩
    cases hmiss.symm.trans hr
    rw [hnone] at hfree
    cases hfree
  cases r with
  | error e => cases hr
  | ok reply =>
    exact ⟨t, reply, srv, diskAddr 3, by decide, path_found hfound, hsize, hrun,
      open_leaves hreach hsafe (fun hm => absurd rfl hm) hrun⟩

/-- **`O_MKDIR` makes a directory of the file** `a`. -/
theorem open_leaves_fails : ¬∀ t, Reach Init step t → ∀ path omode reply srv, (0 : BitVec 8) ∉ path →
    serveTable t.refs (.openFile path omode) t.server = some (.ok reply, srv) →
      ∀ f, Object t.server.fs f → Left path omode f t.server.fs srv.fs := by
  obtain ⟨t, hrun, ht⟩ :=
    @Run.exists_of_exec Desk DeskAct Init step (fun _ _ => True) (fun _ _ => true) (fun _ _ _ => trivial)
    [opensFirst] (some (atBoot [])) (fun _ h => Option.some.inj h ▸ atBoot_init [])
    (fun t => decide (t.server.fs.resolve none sRoot (components [0x61]) = ⟨0, some sRoot, some (diskAddr 3), []⟩) &&
      (serveTable t.refs (.openFile [0x61] oMkdir) t.server).any fun r => r.1.toOption.isSome &&
        decide (r.2.fs.view (fType (diskAddr 3)) ≠ t.server.fs.view (fType (diskAddr 3)))) (by decide +kernel)
  rw [Bool.and_eq_true, decide_eq_true_eq] at ht
  obtain ⟨⟨r, srv⟩, hserve, hr⟩ := (Option.any_eq_true _ _).1 ht.2
  rw [Bool.and_eq_true, decide_eq_true_eq] at hr
  intro hall
  cases r with
  | error e => cases hr.1
  | ok reply => exact hr.2 (hall t hrun [0x61] oMkdir reply srv (by decide) hserve (diskAddr 3) (path_found ht.1)).type

end Desk

end Mos
