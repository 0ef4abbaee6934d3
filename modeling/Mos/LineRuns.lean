import Mos.LineEditor
/-!
# LineRuns — the keys one by one

With room, every key leaves before the cursor what an editor has that puts an entry under the cursor, and `readline`
returns it up to the first zero.  Without, a place is read or written that is not in the buffer, and nothing takes it
back.
-/
namespace Mos.Sh

section Runs

variable {m : Mosh} {text : List Char} {prev : List (List Char)} {s : Readline} {c : Char} {rest : List Char}

/-- What is asked of the entries that can be recalled: characters of a line. -/
def Entries (prev : List (List Char)) : Prop := ∀ l ∈ prev, ∀ c ∈ l, LineChar c

/-- The next key finds the cursor right. -/
def Key.Roomy (n : Nat) (prev : List (List Char)) : Key → Prop
  | .char _ => True
  | .backspace _ => 2 ≤ n
  | .up => 1 ≤ n ∧ ∀ l ∈ prev.head?, l.length + 2 ≤ bufSize

theorem put_length (d : Draft) (key : Key) (keys : List Key) :
    cursor d.line.length (key :: keys) = cursor (d.put key).line.length keys := by
  cases key with
  | char c => simp [Draft.put, Draft.step, cursor]
  | backspace c => simp [Draft.put, Draft.step, cursor]
  | up =>
    unfold Draft.put Draft.step
    cases hprev : d.prev with
    | nil => rfl
    | cons l prev => simp [cursor, recalled_length]

theorem roomy_cons (d : Draft) (key : Key) (keys : List Key) :
    Roomy d.line.length d.prev (key :: keys) ↔ key.Roomy d.line.length d.prev ∧
    Roomy (d.put key).line.length (d.put key).prev keys := by
  cases key with
  | char c => simp [Draft.put, Draft.step, Roomy, Key.Roomy]
  | backspace c => simp [Draft.put, Draft.step, Roomy, Key.Roomy]
  | up =>
    unfold Draft.put Draft.step
    cases hprev : d.prev with
    | nil => simp [Roomy, Key.Roomy, hprev]
    | cons l prev => simp [Roomy, Key.Roomy, recalled_length, and_assoc]

/-- A draft whose characters pass the tests. -/
structure Draft.Clean (d : Draft) : Prop where
  line : Calm d.line
  prev : Entries d.prev

theorem Draft.Clean.put {d : Draft} (h : d.Clean) {key : Key} (hk : key.Valid) : (d.put key).Clean := by
  cases key with
  | char c =>
    refine ⟨fun a ha => ?_, h.prev⟩
    rcases List.mem_append.1 ha with ha | ha
    · exact h.line a ha
    · obtain rfl := List.mem_singleton.1 ha
      exact hk.1.2
  | backspace c => exact ⟨fun a ha => h.line a ((List.dropLast_sublist _).subset ha), h.prev⟩
  | up =>
    unfold Draft.put Draft.step
    cases hprev : d.prev with
    | nil => exact h
    | cons l prev =>
      have hall := h.prev
      rw [hprev] at hall
      exact ⟨recalled_calm (hall l List.mem_cons_self) _, fun l' hl' => hall l' (List.mem_cons_of_mem _ hl')⟩

theorem turn_key {d : Draft} (h : At m d.line d.prev s) {key : Key} (hin : s.input = key.sends ++ rest) (hk : key.Valid)
    (hlen : d.line.length < bufSize) (hd : d.Clean) (hroomy : key.Roomy d.line.length d.prev) :
    ∃ s', s.turn m = some s' ∧ At m (d.put key).line (d.put key).prev s' ∧ s'.input = rest := by
  cases key with
  | char c => exact turn_char h hin hk hlen
  | backspace c => exact turn_backspace h hin hk hlen hroomy hd.line
  | up => exact turn_up h hin hlen hroomy.1 hd.line hd.prev hroomy.2

theorem At.goes (h : At m text prev s) (hlen : text.length < bufSize) : s.goes = true := by
  unfold Readline.goes
  rw [h.more, decide_eq_true (h.cursor_inside hlen)]
  rfl

theorem put_short (d : Draft) (key : Key) : (d.put key).line.length ≤ d.line.length + 1 := by
  cases key with
  | char c => simp [Draft.put, Draft.step]
  | backspace c =>
    simp [Draft.put, Draft.step]
    omega
  | up =>
    unfold Draft.put Draft.step
    cases d.prev with
    | nil => simp
    | cons l prev => simp [recalled_length]

/-- **The keys are read one by one.** -/
theorem run_keys :
    ∀ (keys : List Key) {d : Draft} {s : Readline} {rest : List Char} (fuel : Nat), At m d.line d.prev s →
    s.input = keys.flatMap Key.sends ++ rest → (∀ k ∈ keys, k.Valid) → d.line.length + keys.length < bufSize → d.Clean →
    Roomy d.line.length d.prev keys →
    ∃ s', whileDo Readline.goes (Readline.turn m) (fuel + keys.length) s =
    whileDo Readline.goes (Readline.turn m) fuel s' ∧
      At m (keys.foldl Draft.put d).line (keys.foldl Draft.put d).prev s' ∧ s'.input = rest
  | [], _, s, _, _, h, hin, _, _, _, _ => ⟨s, rfl, h, hin⟩
  | key :: keys, d, s, rest, fuel, h, hin, hk, hlen, hd, hroomy => by
    rw [List.length_cons] at hlen
    obtain ⟨hkey, hkeys⟩ := (roomy_cons d key keys).1 hroomy
    have hin₁ : s.input = key.sends ++ (keys.flatMap Key.sends ++ rest) := by
      rw [hin, List.flatMap_cons, List.append_assoc]
    obtain ⟨s₁, hturn, h₁, hrest⟩ := turn_key h hin₁ (hk key List.mem_cons_self) (by omega) hd hkey
    have hshort := put_short d key
    obtain ⟨s₂, hrun, h₂⟩ := run_keys keys fuel h₁ hrest (fun k hk' => hk k (List.mem_cons_of_mem _ hk')) (by omega)
      (hd.put (hk key List.mem_cons_self)) hkeys
    refine ⟨s₂, Eq.trans ?_ hrun, h₂⟩
    exact whileDo_step (h.goes (by omega)) hturn

theorem start_at {memory : Int → Char} {input : List Char} (h : Recalls m m.nowLineIndex prev) :
    At m [] prev (Readline.memset ⟨memory, 0, [], input, m.nowLineIndex, false⟩) :=
  ⟨rfl, fun _ hj => absurd hj (Nat.not_lt_zero _), h,
    Readline.Inside.touchAll (fun _ hj => absurd hj List.not_mem_nil) (Nat.le_refl _), rfl⟩

/-- What the keys put into the buffer, before the cursor. -/
def buffered (prev : List (List Char)) (keys : List Key) : List Char := (keys.foldl Draft.put ⟨[], prev⟩).line

theorem foldl_put_short :
    ∀ (keys : List Key) (d : Draft), (keys.foldl Draft.put d).line.length ≤ d.line.length + keys.length
  | [], _ => Nat.le_refl _
  | key :: keys, d => by
    have hkey := put_short d key
    have hkeys := foldl_put_short keys (d.put key)
    rw [List.foldl_cons, List.length_cons]
    omega

theorem sends_length (keys : List Key) : keys.length ≤ (keys.flatMap Key.sends).length := by
  induction keys with
  | nil => exact Nat.le_refl _
  | cons key keys ih =>
    have hone : 1 ≤ key.sends.length := by
      cases key with
      | char c => exact Nat.le_refl _
      | backspace c => exact Nat.le_refl _
      | up => exact Nat.le_add_left 1 2
    rw [List.flatMap_cons, List.length_append, List.length_cons]
    omega

/-- **With room, `readline` returns what is before the cursor**, up to the first zero, and keeps to the buffer. -/
theorem readline_roomy (keys : List Key) (memory : Int → Char) (rest : List Char)
    (hrecalls : Recalls m m.nowLineIndex prev) (hprev : Entries prev) (hk : ∀ k ∈ keys, k.Valid)
    (hlen : keys.length < bufSize) (hc : c = '\r' ∨ c = '\n') (hroomy : Roomy 0 prev keys) :
    ∃ s, readline m memory (keys.flatMap Key.sends ++ c :: rest) = some s ∧
      s.line = (buffered prev keys).takeWhile (· != nul) ∧ s.input = rest ∧ s.Inside := by
  obtain ⟨fuel, hfuel⟩ : ∃ fuel, (keys.flatMap Key.sends ++ c :: rest).length + 1 = fuel + 2 + keys.length := by
    have := sends_length keys
    rw [List.length_append, List.length_cons]
    exact ⟨(keys.flatMap Key.sends).length + rest.length - keys.length, by omega⟩
  obtain ⟨s₁, hrun, h₁, hin₁⟩ := run_keys keys (d := ⟨[], prev⟩) (fuel + 2) (start_at hrecalls) rfl hk
    (by rw [List.length_nil]; omega) ⟨fun _ h => absurd h List.not_mem_nil, hprev⟩ hroomy
  have hshort := foldl_put_short keys ⟨[], prev⟩
  rw [List.length_nil] at hshort
  obtain ⟨s₂, hturn, hreturned, hline, hin₂, hinside⟩ := turn_enter h₁ hin₁ hc (by omega)
  refine ⟨s₂, ?_, hline, hin₂, hinside⟩
  have hdone : s₂.goes = false := by
    unfold Readline.goes
    rw [hreturned]
    rfl
  unfold readline
  rw [hfuel, hrun, whileDo_step (h₁.goes (by omega)) hturn, whileDo_done hdone, Option.map_some, if_pos hreturned]

/-! ## Where the places are not in the buffer -/

namespace Readline

theorem Inside.of_touch {j : Int} (h : (s.touch j).Inside) : s.Inside ∧ 0 ≤ j ∧ j < bufSize :=
  ⟨(List.forall_mem_cons.1 h).2, (List.forall_mem_cons.1 h).1⟩

theorem Inside.of_set {j : Int} (h : (s.set j c).Inside) : s.Inside ∧ 0 ≤ j ∧ j < bufSize :=
  ⟨(List.forall_mem_cons.1 h).2, (List.forall_mem_cons.1 h).1⟩

theorem Inside.of_touchAll {n : Nat} (h : (s.touchAll n).Inside) : s.Inside ∧ n ≤ bufSize := by
  refine ⟨fun j hj => h j (List.mem_append_right _ hj), ?_⟩
  by_contra hn
  have := (h bufSize (List.mem_append_left _ (List.mem_map.2 ⟨bufSize, List.mem_range.2 (by omega), rfl⟩))).2
  omega

theorem Inside.of_eq {s' : Readline} (h : s'.Inside) (ht : s'.touched = s.touched) : s.Inside :=
  fun j hj => h j (ht.symm ▸ hj)

theorem Inside.of_memset (h : s.memset.Inside) : s.Inside := by
  unfold memset at h
  exact (of_touchAll h).1.of_eq rfl

theorem Inside.of_copy {l : List Char} (h : (s.copy l).Inside) : s.Inside ∧ l.length + 1 ≤ bufSize := by
  unfold copy at h
  obtain ⟨hbefore, hroom⟩ := of_touchAll h
  exact ⟨hbefore.of_eq rfl, hroom⟩

theorem up_i (m : Mosh) (s : Readline) : (s.up m).i = s.i := by
  obtain ⟨k, -, hup⟩ := up_eq m s
  rw [hup]
  split <;> rfl

theorem Inside.of_up (h : (s.up m).Inside) :
    s.Inside ∧ (s.nowLineIndex > -1 → (m.allLines s.nowLineIndex.toNat).str.length + 1 ≤ bufSize) := by
  obtain ⟨k, -, hup⟩ := up_eq m s
  rw [hup] at h
  by_cases hyes : s.nowLineIndex > -1
  · rw [if_pos hyes] at h
    have hset : (((s.touchAll k).memset.copy (m.allLines s.nowLineIndex.toNat).str).set
        ((m.allLines s.nowLineIndex.toNat).str.length - 1) nul).Inside := h.of_eq rfl
    obtain ⟨hmemset, hroom⟩ := of_copy (of_set hset).1
    have hbefore : (s.touchAll k).Inside := of_memset hmemset
    exact ⟨(of_touchAll hbefore).1, fun _ => hroom⟩
  · rw [if_neg hyes] at h
    exact ⟨(of_touchAll h).1, fun h => absurd h hyes⟩

theorem Inside.of_next (h : s.next.Inside) : s.Inside ∧ 0 ≤ s.i ∧ s.i < bufSize := by
  unfold next at h
  split at h
  · exact of_touch (of_set (s := s.touch s.i) (c := nul) h).1
  · exact of_touch (s := s) h

theorem Inside.of_erase (h : s.erase.Inside) : s.Inside := by
  unfold erase at h
  split at h
  · exact (of_touch (of_touch (s := s.touch s.i) h).1).1
  · exact (of_touch h).1

theorem Inside.of_tackleDir {s' : Readline} (hs : tackleDir m s = some s') (h : s'.Inside) : s.Inside := by
  unfold tackleDir at hs
  generalize s.line.length + 1 = n at hs
  obtain ⟨⟨op, input⟩, -, rfl⟩ := Option.map_eq_some_iff.1 hs
  dsimp only at h
  split at h
  · exact (of_touchAll (s := { s with input := input }) h.of_up.1).1
  · exact (of_touchAll (s := { s with input := input }) h).1

theorem Inside.of_escape {s' : Readline} (hs : escape m s = some s') (h : s'.Inside) : s.Inside := by
  unfold escape at hs
  split at hs
  · have hset : ((s.touch s.i).set s.i nul).Inside := (h.of_tackleDir hs).of_eq rfl
    exact (of_touch (of_set hset).1).1
  · obtain rfl := Option.some.inj hs
    exact (of_touch h).1

/-- **A place that is not in the buffer stays among those that were read or written.** -/
theorem Inside.of_turn {s' : Readline} (hs : s.turn m = some s') (h : s'.Inside) : s.Inside := by
  unfold turn at hs
  split at hs
  · cases hs
  next c input hin =>
    obtain ⟨s₁, hescape, rfl⟩ := Option.map_eq_some_iff.1 hs
    exact (of_set (s := s) (c := c) (h.of_next.1.of_escape hescape).of_erase).1

end Readline

theorem Readline.Inside.of_readline {memory : Int → Char} {input : List Char} {s' : Readline}
    (hs : readline m memory input = some s') (h : s'.Inside) :
    ∃ s, whileDo Readline.goes (Readline.turn m) (input.length + 1)
      (Readline.memset ⟨memory, 0, [], input, m.nowLineIndex, false⟩) = some s ∧ s.Inside := by
  obtain ⟨s, hrun, rfl⟩ := Option.map_eq_some_iff.1 hs
  refine ⟨s, hrun, ?_⟩
  split at h
  · exact h
  · exact (of_set (s := s) (c := nul) h).1

theorem turn_far {d : Draft} (h : At m d.line d.prev s) {key : Key} (hin : s.input = key.sends ++ rest) (hk : key.Valid)
    (hbad : ¬key.Roomy d.line.length d.prev) {s' : Readline} (hs : s.turn m = some s') : ¬s'.Inside := by
  cases key with
  | char c => exact absurd trivial hbad
  | backspace c =>
    intro hinside
    replace hin : s.input = c :: rest := hin
    rw [turn_eq hin] at hs
    obtain ⟨s₁, hescape, rfl⟩ := Option.map_eq_some_iff.1 hs
    have herase := hinside.of_next.1.of_escape hescape
    have hat : (s.fed c rest).buf (s.fed c rest).i = c := fed_at s c rest
    unfold Readline.erase at herase
    rw [if_pos (by rw [hat]; exact hk)] at herase
    have hplace := (Readline.Inside.of_touch (s := (s.fed c rest).touch s.i) herase).2
    have hleft : (if (s.fed c rest).i > 0 then (s.fed c rest).i - 2 else -1) < 0 := by
      have hi : (s.fed c rest).i = d.line.length := h.i
      have hfew : ¬2 ≤ d.line.length := hbad
      rw [hi]
      split <;> omega
    omega
  | up =>
    intro hinside
    obtain ⟨t, hturn, hi, -, hnow, -⟩ := turn_up_eq h hin
    obtain rfl := Option.some.inj (hturn.symm.trans hs)
    obtain ⟨hup, hleft, -⟩ := hinside.of_next
    rw [Readline.up_i, hi, h.i] at hleft
    refine hbad ⟨by omega, fun l hl => ?_⟩
    have hrecalls := h.recalls
    obtain ⟨prev, hprev⟩ : ∃ prev, d.prev = l :: prev := List.head?_eq_some_iff.1 hl
    rw [hprev] at hrecalls
    obtain ⟨hindex, hentry, -⟩ := hrecalls
    have hroom := hup.of_up.2
    rw [hnow, hindex, Int.toNat_natCast, hentry, List.length_append, List.length_singleton] at hroom
    exact hroom (by omega)

/-- **Without room, `readline` leaves the buffer.** -/
theorem run_far : ∀ (keys : List Key) {d : Draft} {s : Readline} {rest : List Char} (fuel : Nat), At m d.line d.prev s →
    s.input = keys.flatMap Key.sends ++ rest → (∀ k ∈ keys, k.Valid) → d.line.length + keys.length < bufSize → d.Clean →
    ¬Roomy d.line.length d.prev keys → ∀ s', whileDo Readline.goes (Readline.turn m) fuel s = some s' → ¬s'.Inside
  | [], _, _, _, _, _, _, _, _, _, hroomy => absurd trivial hroomy
  | key :: keys, d, s, rest, fuel, h, hin, hk, hlen, hd, hroomy => by
    intro s' hrun
    rw [List.length_cons] at hlen
    have hin₁ : s.input = key.sends ++ (keys.flatMap Key.sends ++ rest) := by
      rw [hin, List.flatMap_cons, List.append_assoc]
    cases fuel with
    | zero => cases hrun
    | succ fuel =>
      rw [whileDo, h.goes (by omega), if_pos rfl] at hrun
      obtain ⟨s₁, hturn, hrest⟩ := Option.bind_eq_some_iff.1 hrun
      by_cases hkey : key.Roomy d.line.length d.prev
      · obtain ⟨s₂, hturn₂, h₂, hin₂⟩ := turn_key h hin₁ (hk key List.mem_cons_self) (by omega) hd hkey
        obtain rfl := Option.some.inj (hturn.symm.trans hturn₂)
        have hshort := put_short d key
        exact run_far keys fuel h₂ hin₂ (fun k hk' => hk k (List.mem_cons_of_mem _ hk')) (by omega)
          (hd.put (hk key List.mem_cons_self)) (fun hkeys => hroomy ((roomy_cons d key keys).2 ⟨hkey, hkeys⟩)) s' hrest
      · have hfar := turn_far h hin₁ (hk key List.mem_cons_self) hkey hturn
        exact whileDo_keeps (fun s => ¬s.Inside) (fun s s' hs hout hin => hout (hin.of_turn hs)) fuel s₁ hrest hfar

theorem readline_far {keys : List Key} {memory : Int → Char} (hrecalls : Recalls m m.nowLineIndex prev)
    (hprev : Entries prev) (hk : ∀ k ∈ keys, k.Valid) (hlen : keys.length < bufSize) (hroomy : ¬Roomy 0 prev keys)
    {s' : Readline} (hs : readline m memory (keys.flatMap Key.sends ++ rest) = some s') : ¬s'.Inside := by
  intro hinside
  obtain ⟨s, hrun, h⟩ := hinside.of_readline hs
  exact run_far keys (d := ⟨[], prev⟩) _ (start_at hrecalls) rfl hk (by rw [List.length_nil]; omega)
    ⟨fun _ h => absurd h List.not_mem_nil, hprev⟩ hroomy s hrun h

end Runs

end Mos.Sh
