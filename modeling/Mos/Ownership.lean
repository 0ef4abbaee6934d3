import Mos.Resizing
/-!
# Ownership — whose the blocks are

Over a safe run every block in a slot of a file is used, and is in no other slot.  `serve_open` writes the type of what
it finds for `O_MKDIR`, and what is in a regular file is the client's to write: the entries of such a directory have the
blocks that the client has chosen.
-/
namespace Mos

open Fallible FilePtr Fs

namespace Fs

/-- **Every block in a slot of a file of the volume is in the data area and in use, and in no other slot.** -/
structure SlotsApart (s : Fs) : Prop where
  data : ∀ f u b, File s f → s.vol.holds f u = some b → s.reserved ≤ b ∧ b < s.sNblocks ∧ s.blockIsFree b = false
  sole : ∀ f f' u u' b, File s f → File s f' → s.vol.holds f u = some b → s.vol.holds f' u' = some b → f = f' ∧ u = u'

theorem Owned.slotsApart {s : Fs} (h : Owned s) : SlotsApart s :=
  ⟨fun f u b hf hb =>
    have hd : Data s b := h.vol.used f u b hf hb
    ⟨hd.le, hd.lt, hd.used⟩, h.vol.sole⟩

end Fs

namespace Desk

/-- **In every state of a safe run the slots are apart.** -/
theorem slots_apart {d : Desk} (h : Run Init step Safe d) : SlotsApart d.server.fs :=
  (inv_run h).kept.toOwned.slotsApart

theorem slots_apart_opened : ∃ d, (atBoot []).step opensFirst = some d ∧ SlotsApart d.server.fs := by
  have hone : ((atBoot []).step opensFirst).isSome = true := by decide +kernel
  obtain ⟨d, hd⟩ := Option.isSome_iff_exists.1 hone
  exact ⟨d, hd, slots_apart (.next (atBoot []) opensFirst d (.start _ (atBoot_init [])) opensFirst_safe hd)⟩

/-- A client makes a file of one block, writes a name and the number of the root's block into what will be the first
entry of a directory, and has the file made a directory. -/
def forgesEntry : List DeskAct :=
  [opensFirst, .ask (.map 0 0) (Function.update (fun _ => 0) 0 2),
    .ask (.setSize 0 4096) (Function.update (fun _ => 0) 0 2),
    .write (diskAddr 4) 0x78, .write (fDirect (diskAddr 4) 0) 3,
      .ask (.openFile [0x61] oMkdir) (Function.update (fun _ => 0) 0 2)]

/-- **The forged entry, which is found as `a/x`, has the block of the root.** -/
theorem slots_apart_fails : ¬∀ d, Reach Init step d → SlotsApart d.server.fs := by
  obtain ⟨d, hrun, hd⟩ :=
    @Run.exists_of_exec Desk DeskAct Init step (fun _ _ => True) (fun _ _ => true) (fun _ _ _ => trivial)
    forgesEntry (some (atBoot [])) (fun _ h => Option.some.inj h ▸ atBoot_init [])
    (fun d => decide (d.server.fs.resolve none sRoot (components [0x61, 0x2F, 0x78]) =
      ⟨0, some (diskAddr 3), some (diskAddr 4), []⟩) &&
      decide (d.server.fs.blockAt sRoot 0 = some 3) && decide (d.server.fs.blockAt (diskAddr 4) 0 = some 3))
        (by decide +kernel)
  simp only [Bool.and_eq_true, decide_eq_true_eq] at hd
  obtain ⟨⟨hfound, hb⟩, hforged⟩ := hd
  intro hall
  obtain ⟨heq, -⟩ := (hall d hrun).sole sRoot (diskAddr 4) (.block 0) (.block 0) 3 .root
      (path_found hfound).file hb hforged
  exact absurd heq (by decide)

end Desk

end Mos
