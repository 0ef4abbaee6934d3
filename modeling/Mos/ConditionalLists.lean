import Mos.Spawned
/-!
# ConditionalLists — when a list of commands runs as it should

What the shell spawns is what the line means exactly when the list is `Clean`: case 'A' of `parsecmd` skips one word
where it should skip a command, and case 'O' skips over `;`.
-/
namespace Mos.Sh

/-! ## When that is what the line means -/

/-- **The list is one that the shell runs right**, from an operator on; `c` is the command that has just run, and `none`
says that a command after `||` is being skipped.  Every command that is run gets to `spawn`; no command before `&&`
fails (unless the words it would be joined with are too many for `argv` and nothing else is to run); and after a
command that `||` skips comes another `||`, an `&&`, or the end. -/
def Clean (σ : List Place → Int) : Option Cmd → Rest → Prop
  | none, [] => True
  | none, (.and, d) :: rest => Runs d ∧ Clean σ (some d) rest
  | none, (.or, _) :: rest => Clean σ none rest
  | none, (.semi, _) :: _ => False
  | some _, [] => True
  | some _, (.semi, d) :: rest => Runs d ∧ Clean σ (some d) rest
  | some c, (.and, d) :: rest =>
    if σ c.places = 0 then Runs d ∧ Clean σ (some d) rest
    else maxArgs ≤ c.length + d.tail.length ∧ followed σ (σ c.places) rest = []
  | some c, (.or, d) :: rest =>
    if σ c.places = 0 then Clean σ none rest else Runs d ∧ Clean σ (some d) rest

instance decidableClean (σ : List Place → Int) : ∀ (m : Option Cmd) (rest : Rest), Decidable (Clean σ m rest)
  | none, [] => inferInstanceAs (Decidable True)
  | none, (.and, d) :: rest =>
    have := decidableClean σ (some d) rest
    inferInstanceAs (Decidable (Runs d ∧ Clean σ (some d) rest))
  | none, (.or, _) :: rest => decidableClean σ none rest
  | none, (.semi, _) :: _ => inferInstanceAs (Decidable False)
  | some _, [] => inferInstanceAs (Decidable True)
  | some _, (.semi, d) :: rest =>
    have := decidableClean σ (some d) rest
    inferInstanceAs (Decidable (Runs d ∧ Clean σ (some d) rest))
  | some c, (.and, d) :: rest =>
    have := decidableClean σ (some d) rest
    inferInstanceAs (Decidable (if σ c.places = 0 then Runs d ∧ Clean σ (some d) rest
      else maxArgs ≤ c.length + d.tail.length ∧ followed σ (σ c.places) rest = []))
  | some c, (.or, d) :: rest =>
    have := decidableClean σ (some d) rest
    have := decidableClean σ none rest
    inferInstanceAs (Decidable (if σ c.places = 0 then Clean σ none rest else Runs d ∧ Clean σ (some d) rest))

/-- The places of the words of the commands of a list. -/
def placesOf (rest : Rest) : List Place := (wordsOf (tokensOf rest)).map Word.place

@[simp] theorem placesOf_cons (op : Op) (c : Cmd) (rest : Rest) :
    placesOf ((op, c) :: rest) = c.places ++ placesOf rest := by
  simp [placesOf, tokensOf, wordsOf, Cmd.places]

/-- The command starts at one of these places. -/
def StartsIn (ps : List Place) (x : List Place) : Prop := ∃ p ∈ ps, x.head? = some p

theorem StartsIn.mono {ps qs : List Place} {x : List Place} (h : StartsIn ps x) (hs : ∀ p ∈ ps, p ∈ qs) :
    StartsIn qs x := by
  obtain ⟨p, hp, hx⟩ := h
  exact ⟨p, hs p hp, hx⟩

theorem startsIn_places {c : Cmd} (hn : c ≠ []) : StartsIn c.places c.places := by
  obtain ⟨w, ws, rfl⟩ := List.exists_cons_of_ne_nil hn
  exact ⟨w.place, by simp [Cmd.places], by simp [Cmd.places]⟩

theorem not_startsIn {c : Cmd} {ps : List Place} (hn : c ≠ []) (hd : (c.places ++ ps).Nodup) :
    ¬StartsIn ps c.places := by
  rintro ⟨p, hp, hh⟩
  obtain ⟨w, ws, rfl⟩ := List.exists_cons_of_ne_nil hn
  have hw : w.place = p := by simpa [Cmd.places] using hh
  rw [List.nodup_append] at hd
  exact hd.2.2 w.place (by simp [Cmd.places]) p hp hw

theorem followed_startsIn (σ : List Place → Int) {rest : Rest} (hn : ∀ x ∈ rest, x.2 ≠ []) (st : Int) :
    ∀ x ∈ followed σ st rest, StartsIn (placesOf rest) x := by
  induction rest generalizing st with
  | nil => intro x hx; cases hx
  | cons y rest ih =>
    obtain ⟨op, c⟩ := y
    have ih := ih fun x hx => hn x (List.mem_cons_of_mem _ hx)
    have htail : ∀ st, ∀ x ∈ followed σ st rest, StartsIn (placesOf ((op, c) :: rest)) x := fun st x hx =>
      (ih st x hx).mono fun p hp => by rw [placesOf_cons]; exact List.mem_append_right _ hp
    intro x hx
    unfold followed at hx
    split at hx
    · rcases List.mem_cons.1 hx with rfl | hx
      · refine (startsIn_places (hn _ (List.mem_cons_self))).mono fun p hp => ?_
        rw [placesOf_cons]
        exact List.mem_append_left _ hp
      · exact htail _ x hx
    · exact htail _ x hx

theorem mem_enter {c : Cmd} {X : List (List Place)} {x : List Place} (h : x ∈ enter c X) : x ∈ X := by
  unfold enter at h
  split at h
  · cases h
  · exact h

theorem mem_fire {c : Cmd} {x : List Place} (h : x ∈ fire c) : Runs c ∧ x = c.places := by
  unfold fire at h
  split at h
  · rename_i hr
    exact ⟨hr, by simpa using h⟩
  · cases h

/-- What is spawned starts where a command starts; a command that does not run is not among them. -/
theorem spawned_startsIn (σ : List Place → Int) {rest : Rest} (hn : ∀ x ∈ rest, x.2 ≠ []) :
    (∀ x ∈ spawned σ none rest, StartsIn (placesOf rest) x) ∧
    ∀ c : Cmd, c ≠ [] → ∀ x ∈ spawned σ (some c) rest,
      StartsIn (placesOf rest) x ∨ Runs c ∧ StartsIn c.places x := by
  induction rest with
  | nil =>
    refine ⟨nofun, fun c hc x hx => ?_⟩
    obtain ⟨hr, rfl⟩ := mem_fire hx
    exact .inr ⟨hr, startsIn_places hc⟩
  | cons y rest ih =>
    obtain ⟨op, d⟩ := y
    obtain ⟨ihn, ihs⟩ := ih fun x hx => hn x (List.mem_cons_of_mem _ hx)
    have hd : d ≠ [] := hn _ List.mem_cons_self
    have hrest : ∀ x, StartsIn (placesOf rest) x → StartsIn (placesOf ((op, d) :: rest)) x := fun x h =>
      h.mono fun p hp => by rw [placesOf_cons]; exact List.mem_append_right _ hp
    have hskip : ∀ x ∈ spawned σ none rest, StartsIn (placesOf ((op, d) :: rest)) x := fun x hx => hrest x (ihn x hx)
    have hnext : ∀ x ∈ enter d (spawned σ (some d) rest), StartsIn (placesOf ((op, d) :: rest)) x := fun x hx => by
      rcases ihs d hd x (mem_enter hx) with h | ⟨-, h⟩
      · exact hrest x h
      · exact h.mono fun p hp => by rw [placesOf_cons]; exact List.mem_append_left _ hp
    constructor
    · intro x hx
      cases op with
      | and => exact hnext x hx
      | or => exact hskip x hx
      | semi => exact hskip x hx
    · intro c hc x hx
      cases op with
      | semi =>
        rcases List.mem_append.1 hx with hx | hx
        · obtain ⟨hr, rfl⟩ := mem_fire hx
          exact .inr ⟨hr, startsIn_places hc⟩
        · split at hx
          · cases hx
          · exact .inl (hnext x hx)
      | or =>
        rcases List.mem_append.1 hx with hx | hx
        · obtain ⟨hr, rfl⟩ := mem_fire hx
          exact .inr ⟨hr, startsIn_places hc⟩
        · split at hx
          · split at hx
            · exact .inl (hskip x hx)
            · exact .inl (hnext x hx)
          · cases hx
      | and =>
        rcases List.mem_append.1 hx with hx | hx
        · obtain ⟨hr, rfl⟩ := mem_fire hx
          exact .inr ⟨hr, startsIn_places hc⟩
        · split at hx
          · rename_i hr
            split at hx
            · exact .inl (hnext x hx)
            · -- the command is run once more, with the words of the next one
              rcases ihs (c ++ d.tail) (by simp [hc]) x (mem_enter hx) with h | ⟨-, p, hp, h⟩
              · exact .inl (hrest x h)
              · rcases List.mem_append.1
                    (show p ∈ c.places ++ Cmd.places d.tail by simpa [Cmd.places] using hp) with hp | hp
                · exact .inr ⟨hr, p, hp, h⟩
                · refine .inl ⟨p, ?_, h⟩
                  rw [placesOf_cons]
                  refine List.mem_append_left _ ?_
                  obtain ⟨w, hw, rfl⟩ := List.mem_map.1 hp
                  exact List.mem_map.2 ⟨w, List.mem_of_mem_tail hw, rfl⟩
          · cases hx

/-- A command with so many words is not spawned, and neither is anything after it. -/
theorem spawned_of_long (σ : List Place → Int) {c : Cmd} (h : maxArgs ≤ c.length) (rest : Rest) :
    spawned σ (some c) rest = [] := by
  have hr : ¬Runs c := fun hr => hr.not_faults (.inl h)
  cases rest with
  | nil => exact fire_of_not hr
  | cons x rest =>
    obtain ⟨op, d⟩ := x
    have hf : Faults c := .inl h
    cases op <;> simp [spawned, fire_of_not hr, hr, hf]

/-- The command after an operator that lets it run: it runs right exactly when it gets to `spawn`. -/
theorem enter_eq_iff (σ : List Place → Int) {d : Cmd} {rest : Rest} (hd : d ≠ []) (hn : ∀ x ∈ rest, x.2 ≠ [])
    (hnd : (d.places ++ placesOf rest).Nodup)
    (ih : Runs d → (spawned σ (some d) rest = d.places :: followed σ (σ d.places) rest ↔ Clean σ (some d) rest)) :
    enter d (spawned σ (some d) rest) = d.places :: followed σ (σ d.places) rest ↔ Runs d ∧ Clean σ (some d) rest := by
  by_cases hr : Runs d
  · have he : enter d (spawned σ (some d) rest) = spawned σ (some d) rest := if_neg (by have := hr.2.1; omega)
    rw [he, ih hr]
    exact ⟨fun h => ⟨hr, h⟩, fun h => h.2⟩
  · refine ⟨fun h => ?_, fun h => absurd h.1 hr⟩
    have hmem : d.places ∈ enter d (spawned σ (some d) rest) := by rw [h]; exact List.mem_cons_self
    rcases (spawned_startsIn σ hn).2 d hd _ (mem_enter hmem) with h | ⟨h, -⟩
    · exact absurd h (not_startsIn hd hnd)
    · exact absurd h hr

/-- The command after a failed one, joined with what is left of the one that should be skipped. -/
theorem joined_eq_iff (σ : List Place → Int) {c : Cmd} {ds : Cmd} {rest : Rest} {st : Int} (hc : Runs c)
    (hn : ∀ x ∈ rest, x.2 ≠ []) (hnd : (c.places ++ placesOf rest).Nodup) :
    enter (c ++ ds) (spawned σ (some (c ++ ds)) rest) = followed σ st rest ↔
      maxArgs ≤ c.length + ds.length ∧ followed σ st rest = [] := by
  by_cases hlen : maxArgs ≤ c.length + ds.length
  · have hlen' : maxArgs ≤ (c ++ ds).length := by rw [List.length_append]; exact hlen
    have he : enter (c ++ ds) (spawned σ (some (c ++ ds)) rest) = [] := by
      rw [spawned_of_long σ hlen']
      unfold enter
      split <;> rfl
    rw [he]
    exact ⟨fun h => ⟨hlen, h.symm⟩, fun h => h.2.symm⟩
  · refine ⟨fun h => ?_, fun h => absurd h.1 hlen⟩
    obtain ⟨w, ws, rfl⟩ := List.exists_cons_of_ne_nil hc.1
    -- it has the program of `c`, and more arguments
    have hr : Runs ((w :: ws) ++ ds) := by
      refine ⟨by simp, by rw [List.length_append]; omega, hc.2.2.1, hc.2.2.2.1, fun hk => hc.2.2.2.2 ⟨hk.1, ?_⟩⟩
      have := hk.2
      simp only [List.length_append, List.length_cons] at this ⊢
      omega
    have he : enter ((w :: ws) ++ ds) (spawned σ (some ((w :: ws) ++ ds)) rest) =
        spawned σ (some ((w :: ws) ++ ds)) rest := if_neg (by rw [List.length_append]; omega)
    have hhead : Cmd.places ((w :: ws) ++ ds) ∈ followed σ st rest := by
      rw [← h, he]
      have hf : Cmd.places ((w :: ws) ++ ds) ∈ fire ((w :: ws) ++ ds) := by
        rw [fire_of_runs hr]
        exact List.mem_cons_self
      cases rest with
      | nil => exact hf
      | cons x rest =>
        obtain ⟨op, d⟩ := x
        cases op <;> exact List.mem_append_left _ hf
    obtain ⟨p, hp, hh⟩ := followed_startsIn σ hn st _ hhead
    exact absurd ⟨p, hp, by simpa [Cmd.places] using hh⟩ (not_startsIn hc.1 hnd)

/-- **The programs spawned are those the list means exactly when it is clean.** -/
theorem spawned_eq_iff (σ : List Place → Int) {rest : Rest} (hn : ∀ x ∈ rest, x.2 ≠ []) :
    ((placesOf rest).Nodup → (spawned σ none rest = followed σ 0 rest ↔ Clean σ none rest)) ∧
    ∀ c : Cmd, (c.places ++ placesOf rest).Nodup → Runs c →
      (spawned σ (some c) rest = c.places :: followed σ (σ c.places) rest ↔ Clean σ (some c) rest) := by
  induction rest with
  | nil =>
    refine ⟨fun _ => by simp [spawned, followed, Clean], fun c _ hr => ?_⟩
    simp [spawned, followed, Clean, fire_of_runs hr]
  | cons y rest ih =>
    obtain ⟨op, d⟩ := y
    have hn' : ∀ x ∈ rest, x.2 ≠ [] := fun x hx => hn x (List.mem_cons_of_mem _ hx)
    have hd : d ≠ [] := hn _ List.mem_cons_self
    obtain ⟨ihn, ihs⟩ := ih hn'
    constructor
    · intro hnd
      rw [placesOf_cons] at hnd
      have hndr : (placesOf rest).Nodup := (List.nodup_append.1 hnd).2.1
      cases op with
      | and => exact enter_eq_iff σ hd hn' hnd (ihs d hnd)
      | or => exact ihn hndr
      | semi =>
        refine ⟨fun h => ?_, fun h => h.elim⟩
        have hmem : d.places ∈ spawned σ none rest := by
          rw [show spawned σ none rest = spawned σ none ((.semi, d) :: rest) from rfl, h]
          exact List.mem_cons_self
        exact not_startsIn hd hnd ((spawned_startsIn σ hn').1 _ hmem)
    · intro c hnd hr
      rw [placesOf_cons] at hnd
      have hndd : (d.places ++ placesOf rest).Nodup := (List.nodup_append.1 hnd).2.1
      have hndr : (placesOf rest).Nodup := (List.nodup_append.1 hndd).2.1
      have hndc : (c.places ++ placesOf rest).Nodup :=
        hnd.sublist ((List.Sublist.refl _).append (List.sublist_append_right _ _))
      have hfire := fire_of_runs hr
      cases op with
      | semi =>
        rw [show spawned σ (some c) ((.semi, d) :: rest) = c.places :: enter d (spawned σ (some d) rest) by
          simp [spawned, hfire, hr.not_faults], show followed σ (σ c.places) ((.semi, d) :: rest) =
          d.places :: followed σ (σ d.places) rest from rfl, List.cons.injEq, eq_self_iff_true, true_and]
        exact enter_eq_iff σ hd hn' hndd (ihs d hndd)
      | and =>
        by_cases hz : σ c.places = 0
        · rw [show spawned σ (some c) ((.and, d) :: rest) = c.places :: enter d (spawned σ (some d) rest) by
            simp [spawned, hfire, hr, hz], show followed σ (σ c.places) ((.and, d) :: rest) =
            d.places :: followed σ (σ d.places) rest by simp [followed, Op.lets, hz], List.cons.injEq, eq_self_iff_true,
            true_and]
          simp only [Clean, hz, if_true]
          exact enter_eq_iff σ hd hn' hndd (ihs d hndd)
        · rw [show spawned σ (some c) ((.and, d) :: rest) =
              c.places :: enter (c ++ d.tail) (spawned σ (some (c ++ d.tail)) rest) by simp [spawned, hfire, hr, hz],
            show followed σ (σ c.places) ((.and, d) :: rest) = followed σ (σ c.places) rest by
              simp [followed, Op.lets, hz], List.cons.injEq, eq_self_iff_true, true_and]
          simp only [Clean, hz, if_false]
          exact joined_eq_iff σ hr hn' hndc
      | or =>
        by_cases hz : σ c.places = 0
        · rw [show spawned σ (some c) ((.or, d) :: rest) = c.places :: spawned σ none rest by
            simp [spawned, hfire, hr, hz], show followed σ (σ c.places) ((.or, d) :: rest) = followed σ 0 rest by
            simp [followed, Op.lets, hz], List.cons.injEq, eq_self_iff_true, true_and]
          simp only [Clean, hz, if_true]
          exact ihn hndr
        · rw [show spawned σ (some c) ((.or, d) :: rest) = c.places :: enter d (spawned σ (some d) rest) by
            simp [spawned, hfire, hr, hz], show followed σ (σ c.places) ((.or, d) :: rest) =
            d.places :: followed σ (σ d.places) rest by simp [followed, Op.lets, hz], List.cons.injEq, eq_self_iff_true,
            true_and]
          simp only [Clean, hz, if_false]
          exact enter_eq_iff σ hd hn' hndd (ihs d hndd)

end Mos.Sh
