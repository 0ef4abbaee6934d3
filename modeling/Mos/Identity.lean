import Mos.Opening
/-!
# Identity — which file an open file is

`opentab` has the address of a directory entry.  What the entry holds may be removed while it is open, and another
file be made in its place: from then on the requests of the one who opened the first file work on the second.  With a
clock, and the time at which the file in each entry was made, the two are told apart.
-/
namespace Mos

open Fallible FilePtr Fs

variable {srv srv' : Server} {refs : Nat → Nat} {path : List (BitVec 8)} {omode : Word} {reply : Reply}

/-! ## Requests that open nothing -/

namespace Serv

theorem onFs_keeps {α : Type} {x : FsM α} {r : Except Int α} (h : onFs x srv = some (r, srv')) :
    srv'.oFile = srv.oFile := by
  unfold onFs at h
  obtain ⟨⟨r', t⟩, -, heq⟩ := Option.map_eq_some_iff.1 h
  cases heq
  rfl

/-- Nobody is given an open file. -/
structure OpensNone (srv srv' : Server) (reply : Reply) : Prop where
  oFile : srv'.oFile = srv.oFile
  page : ∀ i, reply.page ≠ .openFile i

theorem onOpen_opensNone {fileid : Word} {op : Nat → FsM ReplyPage}
    (hop : ∀ f s page t, op f s = some (.ok page, t) → ∀ i, page ≠ .openFile i)
    (h : onOpen refs fileid op srv = some (.ok reply, srv')) : OpensNone srv srv' reply := by
  by_cases hopen : fileid.toNat < maxOpen ∧ 1 < refs fileid.toNat
  · cases hrun : op (srv.oFile fileid.toNat) srv.fs with
    | none =>
      rw [onOpen_stuck hopen hrun] at h
      cases h
    | some x =>
      obtain ⟨r, t⟩ := x
      have heq := onOpen_run hopen hrun
      rw [h] at heq
      cases heq
      refine ⟨rfl, ?_⟩
      cases r with
      | ok page => exact hop _ _ page t hrun
      | error e => exact fun i hc => by cases hc
  · have hlook : openLookup refs fileid srv = some (.error (-eInval), srv) :=
      (openLookup_eq refs fileid srv).trans (if_neg hopen)
    have hrun : onOpen refs fileid op srv = some (.ok ⟨-eInval, .none⟩, srv) := answer_error (bind_of_error hlook)
    rw [h] at hrun
    cases hrun
    exact ⟨rfl, fun i hc => by cases hc⟩

theorem noPage {x : FsM Unit} {page : ReplyPage} {s t : Fs}
    (h : (x >>= fun _ => pure ReplyPage.none) s = some (.ok page, t)) (i : Nat) :
    page ≠ .openFile i := by
  rcases bind_eq_some h with ⟨e, -, hc⟩ | ⟨u, s₁, -, hk⟩
  · cases hc
  · cases hk
    exact fun hc => by cases hc

theorem blockPage {x : FsM Nat} {k : Nat → Nat} {page : ReplyPage} {s t : Fs}
    (h : (x >>= fun blk => pure (ReplyPage.block (k blk))) s = some (.ok page, t)) (i : Nat) : page ≠ .openFile i := by
  rcases bind_eq_some h with ⟨e, -, hc⟩ | ⟨blk, s₁, -, hk⟩
  · cases hc
  · cases hk
    exact fun hc => by cases hc

/-- **A request that is no open** gives nobody an open file. -/
theorem serve_opensNone {rq : Fsreq} (hno : ∀ path omode, rq ≠ .openFile path omode)
    (h : serveTable refs rq srv = some (.ok reply, srv')) : OpensNone srv srv' reply := by
  have hdone : ∀ {x : FsM Unit}, (onFs x >>= fun _ => pure (⟨0, .none⟩ : Reply)) srv = some (.ok reply, srv') →
      OpensNone srv srv' reply := by
    intro x hx
    rcases bind_eq_some hx with ⟨e, -, hc⟩ | ⟨u, s₁, hrun, hk⟩
    · cases hc
    · cases hk
      exact ⟨onFs_keeps hrun, fun i hc => by cases hc⟩
  have hunit : ∀ {fileid : Word} {x : Nat → FsM Unit},
      onOpen refs fileid (fun f => x f >>= fun _ => pure .none) srv = some (.ok reply, srv') →
        OpensNone srv srv' reply :=
    fun h => onOpen_opensNone (fun _ _ _ _ hrun => noPage hrun) h
  cases rq with
  | openFile path omode => exact absurd rfl (hno path omode)
  | map fileid offset =>
    unfold serveTable at h
    dsimp only at h
    unfold serveMap at h
    exact onOpen_opensNone (fun _ _ _ _ hrun => blockPage hrun) h
  | setSize fileid size => exact hunit (x := fun f => fileSetSize f size) h
  | close fileid => exact hunit (x := fileClose) h
  | dirty fileid offset => exact hunit (x := fun f => fileDirty f offset) h
  | remove path =>
    cases hrun : (onFs (fileRemove path) >>= fun _ => pure (⟨0, .none⟩ : Reply)) srv with
    | none =>
      have hstuck : serveTable refs (.remove path) srv = none := by
        show answer _ srv = none
        unfold answer
        rw [bind_run]
        unfold attempt
        rw [hrun]
        rfl
      rw [h] at hstuck
      cases hstuck
    | some x =>
      obtain ⟨r, t⟩ := x
      cases r with
      | ok reply' =>
        have heq : serveTable refs (.remove path) srv = some (.ok reply', t) := answer_ok hrun
        rw [h] at heq
        cases heq
        exact hdone hrun
      | error e =>
        have heq : serveTable refs (.remove path) srv = some (.ok ⟨e, .none⟩, t) := answer_error hrun
        rw [h] at heq
        cases heq
        rcases bind_eq_some hrun with ⟨e', hx, -⟩ | ⟨u, s₁, -, hk⟩
        · exact ⟨onFs_keeps hx, fun i hc => by cases hc⟩
        · cases hk
  | sync => exact hdone h

end Serv

/-! ## Files that are made -/

/-- `file_create` has given a name to an entry. -/
def Fs.made (s s' : Fs) (e : Nat) : Bool := decide (e ≠ sRoot) && decide (s.nameOf e = []) && decide (s'.nameOf e ≠ [])

/-- **An open makes no file in an entry** that is not the free one of its directory. -/
theorem Serv.Opened.not_made {e : Nat} (h : Opened refs path omode srv srv' reply) (he : File srv.fs e)
    (hslot : ∀ d, srv.fs.IsParent path omode d → srv.fs.freeEntry d ≠ some e) : Fs.made srv.fs srv'.fs e = false := by
  have hsame : srv'.fs.nameOf e = srv.fs.nameOf e → Fs.made srv.fs srv'.fs e = false := by
    intro hname
    unfold Fs.made
    rw [hname]
    simp
  by_cases ht : ∀ p, srv.fs.resolve none sRoot (components path) = ⟨0, p, some e, []⟩ →
    omode &&& oMkdir = 0 ∨ srv.fs.IsDir e
  · exact hsame (h.spared e ⟨he, hslot, ht⟩).name
  · -- it is what the path leads to, and has a name
    push Not at ht
    obtain ⟨p, hr, -, -⟩ := ht
    unfold Fs.made
    cases path_found hr with
    | root => rfl
    | entry d f _ _ _ hne => simp [hne]

/-! ## The desk, watched -/

/-- The server and its clients, with the time; `born` is when the file in an entry was made, and `opened` is the entry
of an open file with the file that was in it. -/
structure Watched where
  desk : Desk
  clock : Nat
  born : Nat → Nat
  opened : Nat → Nat × Nat

namespace Watched

/-- The open file that an open gives. -/
def given (t : Watched) : DeskAct → Option Nat
  | .ask (.openFile path omode) _ =>
    match serveTable t.desk.refs (.openFile path omode) t.desk.server with
    | some (.ok ⟨_, .openFile i⟩, _) => some i
    | _ => none
  | _ => none

/-- Files are made by opens. -/
def births (t : Watched) (a : DeskAct) (d : Desk) (e : Nat) : Nat :=
  match a with
  | .ask (.openFile _ _) _ => if Fs.made t.desk.server.fs d.server.fs e then t.clock + 1 else t.born e
  | _ => t.born e

def step (t : Watched) (a : DeskAct) : Option Watched :=
  (t.desk.step a).map fun d =>
    { desk := d
      clock := t.clock + 1
      born := t.births a d
      opened := fun i => if t.given a = some i then (d.server.oFile i, t.births a d (d.server.oFile i))
        else t.opened i }

/-- Every file that is there was made before. -/
def Init (t : Watched) : Prop := t.desk.Init ∧ ∀ e, t.born e ≤ t.clock

/-- **Every open file is the file that was opened.** -/
def Identified (t : Watched) : Prop :=
  ∀ i < maxOpen, 1 < t.desk.refs i → t.opened i = (t.desk.server.oFile i, t.born (t.desk.server.oFile i))

/-- **An open makes no file in the entry of an open file.** -/
def Spares (t : Watched) : DeskAct → Prop
  | .ask (.openFile path omode) _ => ∀ i < maxOpen, 1 < t.desk.refs i →
    ∀ d, t.desk.server.fs.IsParent path omode d → t.desk.server.fs.freeEntry d ≠ some (t.desk.server.oFile i)
  | _ => True

/-- The condition on a step. -/
def Safe (t : Watched) (a : DeskAct) : Prop := t.desk.Safe a ∧ t.Spares a

/-- What a run keeps. -/
structure Inv (t : Watched) : Prop where
  desk : t.desk.Inv
  identified : t.Identified

theorem given_open (t : Watched) (refs : Nat → Nat)
    (h : serveTable t.desk.refs (.openFile path omode) t.desk.server = some (.ok reply, srv')) (i : Nat) :
    t.given (.ask (.openFile path omode) refs) = some i ↔ reply.page = .openFile i := by
  unfold given
  dsimp only
  rw [h]
  obtain ⟨value, page⟩ := reply
  cases page <;> simp

theorem Inv.step {t t' : Watched} {a : DeskAct} (h : Inv t) (hs : t.Safe a) (ht : t.step a = some t') : Inv t' := by
  obtain ⟨d, hd, rfl⟩ := Option.map_eq_some_iff.1 ht
  refine ⟨h.desk.step hs.1 hd, fun i hi hr => ?_⟩
  dsimp only at hr ⊢
  cases a with
  | write a w =>
    unfold Desk.step at hd
    by_cases hm : t.desk.server.fs.mapped (a / blockWords) = true
    · simp only [hm, if_true] at hd
      cases hd
      exact h.identified i hi hr
    · simp only [hm] at hd
      cases hd
  | ask rq refs =>
    unfold Desk.step at hd
    dsimp only at hd
    obtain ⟨⟨r, srv⟩, hrun, hd⟩ := Option.bind_eq_some_iff.1 hd
    cases r with
    | error e => cases hd
    | ok reply =>
      dsimp only at hd
      split at hd
      · rename_i hshared
        cases hd
        have hopen : 1 < t.desk.refs i ∨ reply.page = .openFile i := by
          have hall := List.all_eq_true.1 hshared i (List.mem_range.2 hi)
          have hr : ¬refs i ≤ 1 := Nat.not_le.2 hr
          simpa [hr] using hall
        -- an open file that no open has given is where it was, and no file is made in its place
        have hstays : t.given (.ask rq refs) ≠ some i → 1 < t.desk.refs i → srv.oFile i = t.desk.server.oFile i →
            t.births (.ask rq refs) ⟨srv, refs⟩ (t.desk.server.oFile i) = t.born (t.desk.server.oFile i) →
            (if t.given (.ask rq refs) = some i then (srv.oFile i, t.births (.ask rq refs) ⟨srv, refs⟩ (srv.oFile i))
              else t.opened i) =
              (srv.oFile i, t.births (.ask rq refs) ⟨srv, refs⟩ (srv.oFile i)) := by
          intro hgiven hri hof hborn
          rw [if_neg hgiven, hof, hborn]
          exact h.identified i hi hri
        cases rq with
        | openFile path omode =>
          obtain ⟨reply', srv', hrun', hopened⟩ := Serv.serveOpen_spec t.desk.refs h.desk.kept hs.1.1 hs.1.2
          cases hrun.symm.trans hrun'
          have hborn : 1 < t.desk.refs i →
              t.births (.ask (.openFile path omode) refs) ⟨srv, refs⟩ (t.desk.server.oFile i) =
                t.born (t.desk.server.oFile i) := by
            intro hri
            have hmade := hopened.not_made (h.desk.files i hi hri).1 (hs.2 i hi hri)
            exact if_neg (by rw [hmade]; exact Bool.false_ne_true)
          have hgiven := t.given_open refs hrun
          rcases hopened.result with ⟨e, rfl, hof⟩ | ⟨j, f, -, -, rfl, hof, -⟩
          · have hri : 1 < t.desk.refs i := hopen.resolve_right fun hc => by cases hc
            exact hstays (fun hc => by cases (hgiven i).1 hc) hri (congrFun hof i) (hborn hri)
          · by_cases hij : i = j
            · exact if_pos ((hgiven i).2 (by rw [hij]))
            · have hri : 1 < t.desk.refs i := hopen.resolve_right fun hc => hij (ReplyPage.openFile.inj hc).symm
              refine hstays (fun hc => hij (ReplyPage.openFile.inj ((hgiven i).1 hc)).symm) hri ?_ (hborn hri)
              rw [hof, Function.update_of_ne hij]
        | _ =>
          obtain ⟨hof, hpage⟩ := Serv.serve_opensNone (fun path omode hc => by cases hc) hrun
          exact hstays (fun hc => by cases hc) (hopen.resolve_right (hpage i)) (congrFun hof i) rfl
      · cases hd

theorem inv_run {t : Watched} (h : Run Init step Safe t) : Inv t :=
  Run.invariant Inv (fun _ ht => ⟨⟨ht.1.1, fun i hi hr => absurd hr (Nat.not_lt.2 (ht.1.2 i hi))⟩,
    fun i hi hr => absurd hr (Nat.not_lt.2 (ht.1.2 i hi))⟩) (fun _ _ _ hi hs ht => hi.step hs ht) t h

/-- **In every state of a safe run the open files are those that were opened**, and the request for one works on its
entry. -/
theorem opened_identified {t : Watched} (h : Run Init step Safe t) : t.Identified ∧
    ∀ fileid (op : Nat → FsM ReplyPage) r s', t.desk.Opens fileid →
    op (t.opened fileid.toNat).1 t.desk.server.fs = some (r, s') →
      Serv.onOpen t.desk.refs fileid op t.desk.server =
        some (.ok (Serv.replyOf r), { t.desk.server with fs := s' }) := by
  have hid := (inv_run h).identified
  refine ⟨hid, fun fileid op r s' hopen hrun => Serv.onOpen_run hopen ?_⟩
  rw [hid _ hopen.1 hopen.2] at hrun
  exact hrun

/-- At boot nothing is open. -/
def atBoot : Watched := ⟨Desk.atBoot [], 0, fun _ => 0, fun _ => (0, 0)⟩

theorem atBoot_init : Init atBoot := ⟨Desk.atBoot_init [], fun _ => Nat.le_refl 0⟩

/-- A file is opened, and is open. -/
theorem opened_identified_first : ∃ t, atBoot.step Desk.opensFirst = some t ∧ 1 < t.desk.refs 0 ∧ t.Identified := by
  have hone : (atBoot.step Desk.opensFirst).any (fun t : Watched => decide (1 < t.desk.refs 0)) =
      true := by decide +kernel
  obtain ⟨t, ht, hr⟩ := (Option.any_eq_true _ _).1 hone
  have hsafe : Safe atBoot Desk.opensFirst := ⟨Desk.opensFirst_safe, fun i hi hr => absurd hr (Nat.not_lt_zero 1)⟩
  exact ⟨t, ht, of_decide_eq_true hr, (opened_identified (.next atBoot _ t (.start _ atBoot_init) hsafe ht)).1⟩

/-- **A file is removed while it is open, and another is made**: the first open file is the second file now. -/
theorem opened_identified_fails : ¬∀ t, Reach Init step t → t.Identified := by
  obtain ⟨t, hrun, ht⟩ :=
    @Run.exists_of_exec Watched DeskAct Init step (fun _ _ => True) (fun _ _ => true) (fun _ _ _ => trivial)
    [Desk.opensFirst, .ask (.remove [0x61]) (Function.update (fun _ => 0) 0 2),
      .ask (.openFile [0x62] oCreat) (Function.update (Function.update (fun _ => 0) 0 2) 1 2)]
    (some atBoot) (fun _ h => Option.some.inj h ▸ atBoot_init)
    (fun t => decide (1 < t.desk.refs 0) &&
      decide (t.opened 0 ≠ (t.desk.server.oFile 0, t.born (t.desk.server.oFile 0)))) (by decide +kernel)
  rw [Bool.and_eq_true, decide_eq_true_eq, decide_eq_true_eq] at ht
  exact fun hall => ht.2 (hall t hrun 0 (by decide) ht.1)

end Watched

end Mos
