import Mos.LineRuns
/-!
# LineTyped — the line of the buffer and the line that was typed

Until an entry is recalled the two are the same.  What an entry puts before the cursor is the entry where the cursor
is at its end; a part of it where it is before; and where it is behind, the entry and zeros, the first of which ends
the line until it is overwritten.
-/
namespace Mos.Sh

section Lines

variable {prev : List (List Char)} {keys before after : List Key} {l x y : List Char}

/-- What a key does where nothing can be recalled. -/
def Key.write (x : List Char) : Key → List Char
  | .char c => x ++ [c]
  | .backspace _ => x.dropLast
  | .up => x

theorem cursor_write (x : List Char) (key : Key) (keys : List Key) :
    cursor x.length (key :: keys) = cursor (key.write x).length keys := by
  cases key with
  | char c => simp [Key.write, cursor]
  | backspace c => simp [Key.write, cursor]
  | up => rfl

theorem roomy_write (h : Roomy x.length prev (key :: keys)) : ∃ prev', Roomy (key.write x).length prev' keys := by
  cases key with
  | char c =>
    refine ⟨prev, ?_⟩
    rw [Key.write, List.length_append]
    exact h
  | backspace c =>
    refine ⟨prev, ?_⟩
    rw [Key.write, List.length_dropLast]
    exact h.2
  | up => exact ⟨prev.tail, h.2.2⟩

section Step

variable {fetch : List Char → List Char → List Char}

theorem step_write (d : Draft) (key : Key) (h : key ≠ .up ∨ d.prev = []) :
    d.step fetch key = ⟨key.write d.line, d.prev⟩ := by
  cases key with
  | char c => rfl
  | backspace c => rfl
  | up =>
    obtain ⟨line, prev⟩ := d
    obtain rfl : prev = [] := h.resolve_left (not_not.2 rfl)
    rfl

theorem step_prev (d : Draft) (key : Key) : (d.step fetch key).prev = d.prev.drop (ups [key]) := by
  obtain ⟨line, prev⟩ := d
  cases key with
  | char c => rfl
  | backspace c => rfl
  | up =>
    cases prev with
    | nil => rfl
    | cons l prev => rfl

theorem foldl_prev : ∀ (keys : List Key) (d : Draft), (keys.foldl (Draft.step fetch) d).prev = d.prev.drop (ups keys)
  | [], _ => rfl
  | key :: keys, d => by
    rw [List.foldl_cons, foldl_prev keys, step_prev, List.drop_drop]
    cases key with
    | char c => exact congrArg d.prev.drop (Nat.zero_add _)
    | backspace c => exact congrArg d.prev.drop (Nat.zero_add _)
    | up => exact congrArg d.prev.drop (Nat.add_comm _ _)

theorem foldl_quiet : ∀ (keys : List Key) (d : Draft), (ups keys = 0 ∨ d.prev = []) →
    (keys.foldl (Draft.step fetch) d).line = keys.foldl Key.write d.line
  | [], _, _ => rfl
  | key :: keys, d, h => by
    have hkey : key ≠ .up ∨ d.prev = [] := by
      refine h.imp_left fun h => ?_
      rintro rfl
      exact absurd h (Nat.succ_ne_zero _)
    have hkeys : ups keys = 0 ∨ d.prev = [] := by
      refine h.imp_left fun h => ?_
      cases key with
      | char c => exact h
      | backspace c => exact h
      | up => exact absurd h (Nat.succ_ne_zero _)
    rw [List.foldl_cons, List.foldl_cons, step_write d key hkey]
    exact foldl_quiet keys ⟨key.write d.line, d.prev⟩ hkeys

end Step

theorem foldl_put_length :
    ∀ (keys : List Key) (d : Draft), (keys.foldl Draft.put d).line.length = cursor d.line.length keys
  | [], _ => rfl
  | key :: keys, d => by rw [List.foldl_cons, foldl_put_length keys, put_length]

theorem roomy_append :
    ∀ (before : List Key) {after : List Key} {d : Draft}, Roomy d.line.length d.prev (before ++ after) →
    Roomy (before.foldl Draft.put d).line.length (before.foldl Draft.put d).prev after
  | [], _, _, h => h
  | key :: before, after, d, h => roomy_append before ((roomy_cons d key (before ++ after)).1 h).2

/-- The characters of a line. -/
def NoNul (x : List Char) : Prop := ∀ c ∈ x, c ≠ nul

theorem NoNul.takeWhile (h : NoNul x) : x.takeWhile (· != nul) = x := by
  refine List.takeWhile_eq_self_iff.2 fun c hc => ?_
  rw [bne_iff_ne]
  exact h c hc

theorem NoNul.write (h : NoNul x) {key : Key} (hk : key.Valid) : NoNul (key.write x) := by
  cases key with
  | char c =>
    intro a ha
    rcases List.mem_append.1 ha with ha | ha
    · exact h a ha
    · obtain rfl := List.mem_singleton.1 ha
      exact hk.1.1
  | backspace c => exact fun a ha => h a ((List.dropLast_sublist _).subset ha)
  | up => exact h

theorem NoNul.foldl_write :
    ∀ (keys : List Key) {x : List Char}, NoNul x → (∀ k ∈ keys, k.Valid) → NoNul (keys.foldl Key.write x)
  | [], _, h, _ => h
  | key :: keys, _, h, hk =>
    NoNul.foldl_write keys (h.write (hk key List.mem_cons_self)) fun k hk' => hk k (List.mem_cons_of_mem _ hk')

/-- **What is too short stays too short, and what is too long too long**: there is always something to erase. -/
theorem foldl_write_lengths :
    ∀ (keys : List Key) {x y : List Char} {prev : List (List Char)}, Roomy x.length prev keys →
    (x.length < y.length → (keys.foldl Key.write x).length < (keys.foldl Key.write y).length) ∧
      (y.length < x.length → (keys.foldl Key.write y).length < (keys.foldl Key.write x).length)
  | [], _, _, _, _ => ⟨id, id⟩
  | key :: keys, x, y, prev, hroomy => by
    obtain ⟨prev', hkeys⟩ := roomy_write hroomy
    obtain ⟨hshort, hlong⟩ := foldl_write_lengths keys (x := key.write x) (y := key.write y) hkeys
    cases key with
    | char c => exact ⟨fun h => hshort (by simpa [Key.write] using h), fun h => hlong (by simpa [Key.write] using h)⟩
    | backspace c =>
      have htwo := hroomy.1
      simp only [Key.write, List.length_dropLast] at hshort hlong
      exact ⟨fun h => hshort (by omega), fun h => hlong (by omega)⟩
    | up => exact ⟨hshort, hlong⟩

/-- **The zero behind an entry stays**, while the cursor stays behind the entry. -/
theorem foldl_write_zero :
    ∀ (keys : List Key) {l r : List Char}, (∀ p, p <+: keys → l.length < cursor (l ++ nul :: r).length p) →
    ∃ r', keys.foldl Key.write (l ++ nul :: r) = l ++ nul :: r'
  | [], _, r, _ => ⟨r, rfl⟩
  | key :: keys, l, r, h => by
    obtain ⟨r', hr⟩ : ∃ r', key.write (l ++ nul :: r) = l ++ nul :: r' := by
      cases key with
      | char c => exact ⟨r ++ [c], List.append_assoc _ _ _⟩
      | backspace c =>
        have hlen := h [.backspace c] (List.prefix_append [_] keys)
        have hr : r ≠ [] := by
          rintro rfl
          simp [cursor] at hlen
        refine ⟨r.dropLast, ?_⟩
        rw [Key.write, List.dropLast_append_of_ne_nil (List.cons_ne_nil _ _), List.dropLast_cons_of_ne_nil hr]
      | up => exact ⟨r, rfl⟩
    rw [List.foldl_cons, hr]
    refine foldl_write_zero keys fun p hp => ?_
    rw [← hr, ← cursor_write]
    exact h (key :: p) ((List.prefix_cons_inj _).2 hp)

theorem NoNul.take_write {n : Nat} (h : NoNul (x.take n)) {key : Key} (hk : key.Valid) :
    NoNul ((key.write x).take n) := by
  cases key with
  | char c =>
    intro a ha
    rw [Key.write, List.take_append] at ha
    rcases List.mem_append.1 ha with ha | ha
    · exact h a ha
    · obtain rfl := List.mem_singleton.1 (List.mem_of_mem_take ha)
      exact hk.1.1
  | backspace c =>
    intro a ha
    rw [Key.write, List.dropLast_eq_take, List.take_take, Nat.min_comm, ← List.take_take] at ha
    exact h a (List.mem_of_mem_take ha)
  | up => exact h

/-- **And is lost**, once the cursor comes back to the entry. -/
theorem foldl_write_lost {n : Nat} : ∀ (keys : List Key) {x : List Char}, NoNul (x.take n) → (∀ k ∈ keys, k.Valid) →
    (∃ p, p <+: keys ∧ cursor x.length p ≤ n) → NoNul (keys.foldl Key.write x)
  | [], x, h, _, ⟨p, hp, hlen⟩ => by
    obtain rfl := List.prefix_nil.1 hp
    rwa [List.take_of_length_le hlen] at h
  | key :: keys, x, h, hk, ⟨p, hp, hlen⟩ => by
    cases p with
    | nil =>
      rw [List.take_of_length_le hlen] at h
      exact h.foldl_write _ hk
    | cons key' p =>
      obtain ⟨rfl, hp'⟩ := List.cons_prefix_cons.1 hp
      rw [cursor_write] at hlen
      refine foldl_write_lost keys ?_ (fun k hk' => hk k (List.mem_cons_of_mem _ hk')) ⟨p, hp', hlen⟩
      exact h.take_write (hk _ List.mem_cons_self)

/-- A zero behind the entry is in what is recalled, where the cursor is behind it. -/
theorem recalled_long {n : Nat} (h : l.length < n) : ∃ r, recalled l n = l ++ nul :: r := by
  refine ⟨List.replicate (n - l.length - 1) nul, List.ext_getElem ?_ fun j h₁ h₂ => ?_⟩
  · rw [recalled_length, List.length_append, List.length_cons, List.length_replicate]
    omega
  · rw [recalled_getElem]
    by_cases hj : j < l.length
    · rw [List.getElem_append_left hj, List.getD_eq_getElem _ _ hj]
    · rw [List.getD_eq_default _ _ (Nat.le_of_not_lt hj), List.getElem_append_right (Nat.le_of_not_lt hj)]
      simp only [← List.replicate_succ, List.getElem_replicate]

theorem recalled_self (l : List Char) : recalled l l.length = l := by
  refine List.ext_getElem (recalled_length _ _) fun j h₁ h₂ => ?_
  rw [recalled_getElem, List.getD_eq_getElem _ _ h₂]

/-- **What the last entry makes of the line**: with it in the buffer before a cursor at `n`, the keys after it yield
the line that was typed, or they do not. -/
theorem recalled_line {n : Nat} (hl : NoNul l) (hk : ∀ k ∈ after, k.Valid) (hroomy : Roomy n prev after) :
    (after.foldl Key.write (recalled l n)).takeWhile (· != nul) = after.foldl Key.write l ↔
      n = l.length ∨ ((∀ p, p <+: after → l.length < cursor n p) ∧ after.foldl Key.write l = l) := by
  have hn : (recalled l n).length = n := recalled_length l n
  rcases Nat.lt_trichotomy n l.length with hlt | rfl | hgt
  · -- the end of the entry is lost, and the line too short
    have hshort := (foldl_write_lengths after (x := recalled l n) (y := l) (hn.symm ▸ hroomy)).1 (by omega)
    constructor
    · intro h
      have hle := (List.takeWhile_prefix (l := after.foldl Key.write (recalled l n)) (· != nul)).length_le
      rw [h] at hle
      omega
    · rintro (h | ⟨h, -⟩)
      · omega
      · exact absurd (h [] List.nil_prefix) (Nat.lt_asymm hlt)
  · rw [recalled_self]
    exact ⟨fun _ => .inl rfl, fun _ => (hl.foldl_write _ hk).takeWhile⟩
  · obtain ⟨r, hr⟩ := recalled_long hgt
    by_cases hbehind : ∀ p, p <+: after → l.length < cursor n p
    · obtain ⟨r', hr'⟩ := foldl_write_zero after (l := l) (r := r) fun p hp => by
        rw [← hr, hn]
        exact hbehind p hp
      have hline : (after.foldl Key.write (recalled l n)).takeWhile (· != nul) = l := by
        rw [hr, hr', List.takeWhile_append_of_pos fun c hc => bne_iff_ne.2 (hl c hc),
          List.takeWhile_cons_of_neg (by simp), List.append_nil]
      rw [hline]
      exact ⟨fun h => .inr ⟨hbehind, h.symm⟩, fun h => (h.resolve_left (Nat.ne_of_gt hgt)).2.symm⟩
    · -- the zero is overwritten, and the line too long
      simp only [not_forall, not_lt] at hbehind
      obtain ⟨p, hp, hle⟩ := hbehind
      have htake : NoNul ((recalled l n).take l.length) := by
        rw [hr, List.take_left]
        exact hl
      have hnul := foldl_write_lost after htake hk ⟨p, hp, by rwa [hn]⟩
      have hlong := (foldl_write_lengths after (x := recalled l n) (y := l) (hn.symm ▸ hroomy)).2 (by omega)
      rw [hnul.takeWhile]
      constructor
      · intro h
        rw [h] at hlong
        exact absurd hlong (Nat.lt_irrefl _)
      · rintro (h | ⟨h, -⟩)
        · omega
        · exact absurd (h p hp) (Nat.not_lt.2 hle)

theorem drop_entry {n : Nat} (h : prev[n]? = some l) : prev.drop n = l :: prev.drop (n + 1) := by
  obtain ⟨hn, rfl⟩ := List.getElem?_eq_some_iff.1 h
  exact List.drop_eq_getElem_cons hn

theorem foldl_last {fetch : List Char → List Char → List Char} (hl : prev[ups before]? = some l)
    (hlast : ups after = 0 ∨ prev.length = ups before + 1) (d : Draft) (hd : d.prev = prev) :
    ((before ++ .up :: after).foldl (Draft.step fetch) d).line =
      after.foldl Key.write (fetch l (before.foldl (Draft.step fetch) d).line) := by
  have hprev : (before.foldl (Draft.step fetch) d).prev = l :: prev.drop (ups before + 1) := by
    rw [foldl_prev, hd, drop_entry hl]
  have hup : (before.foldl (Draft.step fetch) d).step fetch .up =
      ⟨fetch l (before.foldl (Draft.step fetch) d).line, prev.drop (ups before + 1)⟩ := by
    rw [Draft.step, hprev]
  rw [List.foldl_append, List.foldl_cons, hup]
  exact foldl_quiet after _ (hlast.imp_right fun h => List.drop_eq_nil_of_le (Nat.le_of_eq h))

theorem fits_at (hprev : Entries prev) (hk : ∀ k ∈ keys, k.Valid) (hroomy : Roomy 0 prev keys)
    (hkeys : keys = before ++ .up :: after) (hl : prev[ups before]? = some l)
    (hlast : ups after = 0 ∨ prev.length = ups before + 1) :
    (buffered prev keys).takeWhile (· != nul) = typed prev keys ↔ cursor 0 before = l.length ∨
      ((∀ p, p <+: after → l.length < cursor (cursor 0 before) p) ∧ typed prev keys = l) := by
  subst hkeys
  have hlen : (before.foldl Draft.put ⟨[], prev⟩).line.length = cursor 0 before := foldl_put_length before ⟨[], prev⟩
  have hbuffered : buffered prev (before ++ .up :: after) = after.foldl Key.write (recalled l (cursor 0 before)) := by
    rw [← hlen]
    exact foldl_last hl hlast ⟨[], prev⟩ rfl
  have htyped : typed prev (before ++ .up :: after) = after.foldl Key.write l := foldl_last hl hlast ⟨[], prev⟩ rfl
  have hafter : Roomy (cursor 0 before) ((before.foldl Draft.put ⟨[], prev⟩).prev.tail) after := by
    rw [← hlen]
    exact (roomy_append before (d := ⟨[], prev⟩) hroomy).2.2
  have hmem : l ∈ prev := List.mem_of_getElem? hl
  rw [hbuffered, htyped]
  exact recalled_line (fun c hc => (hprev l hmem c hc).1)
    (fun k hk' => hk k (List.mem_append_right _ (List.mem_cons_of_mem _ hk'))) hafter

theorem exists_last :
    ∀ (keys : List Key) (n : Nat), n < ups keys → ∃ before after, keys = before ++ .up :: after ∧ ups before = n
  | [], _, h => absurd h (Nat.not_lt_zero _)
  | .char c :: keys, n, h => by
    obtain ⟨before, after, rfl, hn⟩ := exists_last keys n h
    exact ⟨.char c :: before, after, rfl, hn⟩
  | .backspace c :: keys, n, h => by
    obtain ⟨before, after, rfl, hn⟩ := exists_last keys n h
    exact ⟨.backspace c :: before, after, rfl, hn⟩
  | .up :: keys, 0, _ => ⟨[], keys, rfl, rfl⟩
  | .up :: keys, n + 1, h => by
    obtain ⟨before, after, rfl, hn⟩ := exists_last keys n (Nat.lt_of_succ_lt_succ h)
    exact ⟨.up :: before, after, rfl, congrArg (· + 1) hn⟩

theorem ups_append : ∀ (before : List Key) (after : List Key), ups (before ++ after) = ups before + ups after
  | [], _ => (Nat.zero_add _).symm
  | .char _ :: before, after => ups_append before after
  | .backspace _ :: before, after => ups_append before after
  | .up :: before, after => by
    show ups (before ++ after) + 1 = ups before + 1 + ups after
    rw [ups_append before after]
    omega

/-- **Where there is room, the line is right exactly where the last entry fits.** -/
theorem fits_iff (hprev : Entries prev) (hk : ∀ k ∈ keys, k.Valid) (hroomy : Roomy 0 prev keys) :
    (buffered prev keys).takeWhile (· != nul) = typed prev keys ↔ Fits prev keys := by
  refine ⟨fun h before after l hkeys hl hlast => (fits_at hprev hk hroomy hkeys hl hlast).1 h, fun h => ?_⟩
  by_cases hnone : ups keys = 0 ∨ prev = []
  · have hsame : buffered prev keys = typed prev keys :=
      (foldl_quiet keys ⟨[], prev⟩ hnone).trans (foldl_quiet keys ⟨[], prev⟩ hnone).symm
    have hnul : NoNul (typed prev keys) := by
      have hline : typed prev keys = keys.foldl Key.write [] := foldl_quiet keys ⟨[], prev⟩ hnone
      rw [hline]
      exact NoNul.foldl_write keys (fun _ h => absurd h List.not_mem_nil) hk
    rw [hsame]
    exact hnul.takeWhile
  · obtain ⟨hups, hentries⟩ := not_or.1 hnone
    have hpos : 0 < prev.length := List.length_pos_iff.2 hentries
    obtain ⟨before, after, hkeys, hn⟩ := exists_last keys (min (ups keys) prev.length - 1) (by omega)
    have hsum : ups keys = ups before + (ups after + 1) := by
      rw [hkeys, ups_append]
      rfl
    have hl := List.getElem?_eq_getElem (show ups before < prev.length by omega)
    have hlast : ups after = 0 ∨ prev.length = ups before + 1 := by omega
    exact (fits_at hprev hk hroomy hkeys hl hlast).2 (h before after _ hkeys hl hlast)

end Lines

/-- The lines that the shell remembers can be recalled, the last one first. -/
theorem recalls_lines {m : Mosh} (lines : List (List Char)) :
    (∀ i (hi : i < lines.length), (m.allLines i).str = lines[i] ++ ['\n']) →
    Recalls m (lines.length - 1) lines.reverse := by
  induction lines using List.reverseRecOn with
  | nil => exact fun _ => rfl
  | append_singleton lines l ih =>
    intro h
    have hlines : ∀ i (hi : i < lines.length), (m.allLines i).str = lines[i] ++ ['\n'] := by
      intro i hi
      have hall := h i (by rw [List.length_append]; omega)
      rwa [List.getElem_append_left hi] at hall
    have hlast : (m.allLines lines.length).str = l ++ ['\n'] := by
      have hall := h lines.length (by rw [List.length_append, List.length_singleton]; omega)
      rwa [List.getElem_concat_length rfl] at hall
    rw [List.reverse_append, List.reverse_singleton, List.singleton_append, List.length_append, List.length_singleton]
    refine ⟨?_, ?_, ?_⟩
    · rw [List.length_reverse]
      omega
    · rw [List.length_reverse]
      exact hlast
    · rw [show ((lines.length + 1 : Nat) : Int) - 1 - 1 = lines.length - 1 by omega]
      exact ih hlines

theorem Remembered.recalls {saved : List (List Char)} {m : Mosh} (h : Remembered saved m)
    (hnow : m.nowLineIndex = m.allLineCount - 1) :
    Recalls m m.nowLineIndex (recent saved).reverse := by
  have hlen : (recent saved).length = m.allLineCount := by
    rw [h.count, recent, List.rtake, List.length_drop]
    omega
  rw [hnow, ← hlen]
  exact recalls_lines (recent saved) h.rows

/-- **`readline` is the editor exactly where** no backspace or Up finds the cursor too far left, what is recalled
leaves room for its end, and the entry that is recalled last fits the cursor. -/
theorem readline_typed_iff {m : Mosh} {prev : List (List Char)} {keys : List Key} {enter : Char} (memory : Int → Char)
    (rest : List Char) (hrecalls : Recalls m m.nowLineIndex prev) (hprev : Entries prev) (hk : ∀ k ∈ keys, k.Valid)
    (hlen : keys.length < bufSize) (henter : enter = '\r' ∨ enter = '\n') :
    ReadsTyped m prev keys enter memory rest ↔ Roomy 0 prev keys ∧ Fits prev keys := by
  constructor
  · rintro ⟨s, hrun, hline, -, hinside⟩
    have hroomy : Roomy 0 prev keys := by
      by_contra hfar
      exact readline_far hrecalls hprev hk hlen hfar hrun hinside
    obtain ⟨s', hrun', hline', -⟩ := readline_roomy keys memory rest hrecalls hprev hk hlen henter hroomy
    obtain rfl := Option.some.inj (hrun.symm.trans hrun')
    exact ⟨hroomy, (fits_iff hprev hk hroomy).1 (hline'.symm.trans hline)⟩
  · rintro ⟨hroomy, hfits⟩
    obtain ⟨s, hrun, hline, hinput, hinside⟩ := readline_roomy keys memory rest hrecalls hprev hk hlen henter hroomy
    exact ⟨s, hrun, hline.trans ((fits_iff hprev hk hroomy).2 hfits), hinput, hinside⟩

/-- A shell that remembers `ls`. -/
def afterLs : Mosh := ⟨some ['l', 's', '\n'], fun _ => strcpy (fun _ => nul) ['l', 's', '\n'], 1, 0⟩

theorem afterLs_recalls : Recalls afterLs afterLs.nowLineIndex [['l', 's']] :=
  ⟨rfl, Row.str_strcpy _ (by decide) (by decide), rfl⟩

theorem afterLs_entries : Entries [['l', 's']] := by
  intro l hl
  obtain rfl := List.mem_singleton.1 hl
  exact List.forall_mem_cons.2 ⟨by decide, List.forall_mem_cons.2 ⟨by decide, fun _ h => absurd h List.not_mem_nil⟩⟩

theorem readline_typed_ls : ReadsTyped afterLs [['l', 's']] [.char 'p', .char 'w', .up] '\r' (fun _ => nul) [] := by
  refine (readline_typed_iff (fun _ => nul) [] afterLs_recalls afterLs_entries (by decide) (by decide) (.inl rfl)).2
    ⟨by decide, fun before after l hkeys hl _ => .inl ?_⟩
  rcases before with _ | ⟨k₁, _ | ⟨k₂, _ | ⟨k₃, before⟩⟩⟩
  · cases hkeys
  · cases hkeys
  · cases hkeys
    obtain rfl := Option.some.inj hl
    rfl
  · simp at hkeys

/-- **What is recalled in the middle of a line is cut off there, and a backspace on an empty line reads before the
buffer.** -/
theorem readline_typed_fails :
    (∃ s, readline afterLs (fun _ => nul) ['l', esc, '[', 'A', '\r'] = some s ∧ s.line = ['l']) ∧
      typed [['l', 's']] [.char 'l', .up] = ['l', 's'] ∧
      ¬ReadsTyped afterLs [['l', 's']] [.char 'l', .up] '\r' (fun _ => nul) [] ∧
      ¬ReadsTyped afterLs [['l', 's']] [.backspace bs] '\r' (fun _ => nul) [] := by
  obtain ⟨s, hrun, hline, -⟩ := readline_roomy [.char 'l', .up] (fun _ => nul) [] afterLs_recalls
    afterLs_entries (by decide) (by decide) (.inl rfl) (by decide)
  have hcut : s.line = ['l'] := hline
  refine ⟨⟨s, hrun, hcut⟩, rfl, ?_, ?_⟩
  · rintro ⟨s', hrun', hline', -⟩
    obtain rfl := Option.some.inj (hrun.symm.trans hrun')
    rw [hcut] at hline'
    cases hline'
  · rintro ⟨s', hrun', -, -, hinside⟩
    exact readline_far afterLs_recalls afterLs_entries (by decide) (by decide) (by decide) hrun' hinside

end Mos.Sh
