/-!
# Holding — the blocks that the nodes of a tree hold

A node of a volume holds blocks: one for each index that is attached, and one for its indirections.  A directory has the
nodes inside of its blocks, and the nodes of the volume are what is reached from the root.  A volume is `Owned` if every
block that one of its nodes holds is in use and held once; it is kept by a change in which every block held is one that
was held there, or a fresh one.
-/

/-- What a node has a block for. -/
inductive Use where
  | indirect
  | block (i : Nat)
deriving DecidableEq

structure Volume (N B : Type) where
  dir : N → Prop
  /-- The number of blocks of a directory. -/
  count : N → Nat
  holds : N → Use → Option B
  used : B → Prop

namespace Volume

variable {N B : Type} (root : N) (inside : B → N → Prop)

/-- **The nodes of a volume.** -/
inductive Node (v : Volume N B) : N → Prop where
  | root : Node v root
  | entry (d : N) (i : Nat) (b : B) (e : N) : Node v d → v.dir d → i < v.count d → v.holds d (.block i) = some b →
      inside b e → Node v e

/-- What is reached through a directory. -/
inductive Below (v : Volume N B) (x : N) : N → Prop where
  | entry (i : Nat) (b : B) (e : N) : v.dir x → i < v.count x → v.holds x (.block i) = some b → inside b e → Below v x e
  | next (d : N) (i : Nat) (b : B) (e : N) : Below v x d → v.dir d → i < v.count d → v.holds d (.block i) = some b →
      inside b e → Below v x e

/-- **Every block that is held is in use, and held once.** -/
structure Owned (v : Volume N B) : Prop where
  used : ∀ n u b, Node root inside v n → v.holds n u = some b → v.used b
  sole : ∀ n n' u u' b, Node root inside v n → Node root inside v n' → v.holds n u = some b → v.holds n' u' = some b →
    n = n' ∧ u = u'

/-- **The directories have all their blocks**, and no others. -/
def Whole (v : Volume N B) : Prop :=
  ∀ d, Node root inside v d → v.dir d → ∀ i, i < v.count d ↔ (v.holds d (.block i)).isSome

/-- The node is the same in both volumes. -/
structure Agree (v v' : Volume N B) (n : N) : Prop where
  dir : v'.dir n ↔ v.dir n
  count : v'.count n = v.count n
  holds : v'.holds n = v.holds n

/-- What the node has in it in `v`, it has in `v'`. -/
def Keeps (v v' : Volume N B) (n : N) : Prop :=
  v.dir n → v'.dir n ∧ ∀ i b, i < v.count n → v.holds n (.block i) = some b →
    i < v'.count n ∧ v'.holds n (.block i) = some b

variable {root inside} {v v' : Volume N B}

theorem Agree.keeps {n : N} (h : Agree v v' n) : Keeps v v' n :=
  fun hd => ⟨h.dir.2 hd, fun i b hi hb => ⟨by rw [h.count]; exact hi, by rw [h.holds]; exact hb⟩⟩

theorem Agree.keeps_back {n : N} (h : Agree v v' n) : Keeps v' v n :=
  fun hd => ⟨h.dir.1 hd, fun i b hi hb => ⟨by rw [← h.count]; exact hi, by rw [← h.holds]; exact hb⟩⟩

theorem Agree.symm {n : N} (h : Agree v v' n) : Agree v' v n := ⟨h.dir.symm, h.count.symm, h.holds.symm⟩

theorem Agree.trans {w : Volume N B} {n : N} (h : Agree v v' n) (h' : Agree v' w n) : Agree v w n :=
  ⟨h'.dir.trans h.dir, h'.count.trans h.count, h'.holds.trans h.holds⟩

/-- **Nodes stay** where each keeps what it has in it. -/
theorem node_mono (h : ∀ n, Node root inside v n → Keeps v v' n) {n : N} (hn : Node root inside v n) :
    Node root inside v' n := by
  induction hn with
  | root => exact .root
  | entry d i b e hd' hd hi hb hin ih =>
    obtain ⟨hdir, hk⟩ := h d hd' hd
    obtain ⟨hi, hb⟩ := hk i b hi hb
    exact .entry d i b e ih hdir hi hb hin

/-- **No nodes come** where none has more in it. -/
theorem node_back (h : ∀ n, Node root inside v n → Keeps v' v n) {n : N} (hn : Node root inside v' n) :
    Node root inside v n := by
  induction hn with
  | root => exact .root
  | entry d i b e _ hd hi hb hin ih =>
    obtain ⟨hdir, hk⟩ := h d ih hd
    obtain ⟨hi, hb⟩ := hk i b hi hb
    exact .entry d i b e ih hdir hi hb hin

/-- **A directory gets a block**: the nodes are those that were there and those inside of the block. -/
theorem node_grow {x : N} {c : B} (hothers : ∀ n, Node root inside v n → n ≠ x → Keeps v' v n)
    (hx : ∀ i b, i < v'.count x → v'.holds x (.block i) = some b →
      (v.dir x ∧ i < v.count x ∧ v.holds x (.block i) = some b) ∨ b = c)
    (hblank : ∀ n, inside c n → ¬v'.dir n) {n : N} (hn : Node root inside v' n) :
    Node root inside v n ∨ inside c n := by
  induction hn with
  | root => exact .inl .root
  | entry d i b e _ hd hi hb hin ih =>
    rcases ih with ih | ih
    · by_cases hdx : d = x
      · subst hdx
        rcases hx i b hi hb with ⟨hdir, hi, hb⟩ | rfl
        · exact .inl (.entry d i b e ih hdir hi hb hin)
        · exact .inr hin
      · obtain ⟨hdir, hk⟩ := hothers d ih hdx hd
        obtain ⟨hi, hb⟩ := hk i b hi hb
        exact .inl (.entry d i b e ih hdir hi hb hin)
    · exact absurd hd (hblank d ih)

theorem node_above {x : N} (hothers : ∀ n, Node root inside v n → n ≠ x → Keeps v v' n) {n : N}
    (hn : Node root inside v n) :
    Node root inside v' n ∨ Below inside v x n := by
  induction hn with
  | root => exact .inl .root
  | entry d i b e hd' hd hi hb hin ih =>
    rcases ih with ih | ih
    · by_cases hdx : d = x
      · subst hdx
        exact .inr (.entry i b e hd hi hb hin)
      · obtain ⟨hdir, hk⟩ := hothers d hd' hdx hd
        obtain ⟨hi, hb⟩ := hk i b hi hb
        exact .inl (.entry d i b e ih hdir hi hb hin)
    · exact .inr (.next d i b e ih hd hi hb hin)

theorem below_back {x : N} (h : ∀ n, Node root inside v n → Keeps v' v n) (hx : Node root inside v x) {n : N}
    (hn : Below inside v' x n) : Below inside v x n ∧ Node root inside v n := by
  induction hn with
  | entry i b e hd hi hb hin =>
    obtain ⟨hdir, hk⟩ := h x hx hd
    obtain ⟨hi, hb⟩ := hk i b hi hb
    exact ⟨.entry i b e hdir hi hb hin, .entry x i b e hx hdir hi hb hin⟩
  | next d i b e _ hd hi hb hin ih =>
    obtain ⟨hbelow, hnode⟩ := ih
    obtain ⟨hdir, hk⟩ := h d hnode hd
    obtain ⟨hi, hb⟩ := hk i b hi hb
    exact ⟨.next d i b e hbelow hdir hi hb hin, .entry d i b e hnode hdir hi hb hin⟩

theorem Below.trans {x y n : N} (h : Below inside v x y) (h' : Below inside v y n) : Below inside v x n := by
  induction h' with
  | entry i b e hd hi hb hin => exact .next y i b e h hd hi hb hin
  | next d i b e _ hd hi hb hin ih => exact .next d i b e ih hd hi hb hin

theorem Below.last {x n : N} (h : Below inside v x n) :
    ∃ d i b, (d = x ∨ Below inside v x d) ∧ v.holds d (.block i) = some b ∧
    inside b n := by
  cases h with
  | entry i b e _ _ hb hin => exact ⟨x, i, b, .inl rfl, hb, hin⟩
  | next d i b e hd _ _ hb hin => exact ⟨d, i, b, .inr hd, hb, hin⟩

/-- **No node is below itself**, where the blocks have nothing in common and the root is in none. -/
theorem Owned.not_below (h : Owned root inside v) (hin : ∀ b b' n, inside b n → inside b' n → b = b')
    (hroot : ∀ b, v.used b → ¬inside b root) {n : N} (hn : Node root inside v n) : ¬Below inside v n n := by
  induction hn with
  | root =>
    intro hb
    have hnode : ∀ {d}, d = root ∨ Below inside v root d → Node root inside v d := fun hd =>
      hd.elim (fun he => he ▸ .root) fun hd =>
        (@below_back _ _ _ _ _ v _ (fun _ _ hd => ⟨hd, fun _ _ hi hb => ⟨hi, hb⟩⟩) .root _ hd).2
    obtain ⟨d, i, b, hd, hdb, hi⟩ := hb.last
    exact hroot b (h.used d (.block i) b (hnode hd) hdb) hi
  | entry d i b e hd hdir hi hb hine ih =>
    intro hbelow
    have he : Node root inside v e := .entry d i b e hd hdir hi hb hine
    have hnode : ∀ {d}, d = e ∨ Below inside v e d → Node root inside v d := fun hd =>
      hd.elim (fun heq => heq ▸ he) fun hd =>
        (@below_back _ _ _ _ _ v _ (fun _ _ hd => ⟨hd, fun _ _ hi hb => ⟨hi, hb⟩⟩) he _ hd).2
    -- what is below itself is in a block of a directory below itself
    obtain ⟨d', i', b', hd', hb', hine'⟩ := hbelow.last
    obtain rfl := hin b b' e hine hine'
    obtain ⟨rfl, -⟩ := h.sole d d' (.block i) (.block i') b hd (hnode hd') hb hb'
    have hde : Below inside v d e := .entry i b e hdir hi hb hine
    rcases hd' with rfl | hd'
    · exact ih hde
    · exact ih (hde.trans hd')

/-- **Every block held was held there, or is a fresh one of the node `x`.** -/
theorem Owned.step (h : Owned root inside v) {x : N} {T : Use → B → Prop}
    (hholds : ∀ n u b, Node root inside v' n → v'.holds n u = some b →
      (Node root inside v n ∧ v.holds n u = some b) ∨ (n = x ∧ T u b))
    (hsole : ∀ u u' b, T u b → T u' b → u = u')
    (hfresh : ∀ u b, T u b → ∀ n u', Node root inside v n → v.holds n u' ≠ some b)
    (hused : ∀ n u b, Node root inside v' n → v'.holds n u = some b → v'.used b) : Owned root inside v' := by
  refine ⟨hused, fun n n' u u' b hn hn' hb hb' => ?_⟩
  rcases hholds n u b hn hb with ⟨hn, hb⟩ | ⟨rfl, ht⟩
  · rcases hholds n' u' b hn' hb' with ⟨hn', hb'⟩ | ⟨rfl, ht'⟩
    · exact h.sole n n' u u' b hn hn' hb hb'
    · exact absurd hb (hfresh u' b ht' n u hn)
  · rcases hholds n' u' b hn' hb' with ⟨hn', hb'⟩ | ⟨rfl, ht'⟩
    · exact absurd hb' (hfresh u b ht n' u' hn')
    · exact ⟨rfl, hsole u u' b ht ht'⟩

end Volume
