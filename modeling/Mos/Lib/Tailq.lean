import Mathlib.Data.List.Nodup
import Mathlib.Logic.Function.Basic
/-!
# Tailq — intrusive tail queues

The tail queue of `queue(3)`: the head holds a pointer to the first element and the address of the last link, every
element holds a pointer to the next element and the address of the link that points at it.  The links of an element
stay behind when it is removed, so the operations are defined on the whole heap of links, and `remove` does what the
macro does also for an element that is not queued.  `Links q xs` says that the queue is exactly `xs`;
`remove_of_inert` says when removing an element that is not queued leaves the queue alone.
-/

/-- The address of a link: the head's, or the one inside an element. -/
inductive Cell (α : Type) where
  | head
  | next (a : α)
deriving DecidableEq

/-- A tail queue and the link fields of every element; `none` is the null pointer. -/
structure Tailq (α : Type) where
  first : Option α
  last : Option (Cell α)
  next : α → Option α
  prev : α → Option (Cell α)

namespace Tailq

variable {α : Type} [DecidableEq α]

def load (q : Tailq α) : Cell α → Option α
  | .head => q.first
  | .next a => q.next a

def store (q : Tailq α) (c : Cell α) (v : Option α) : Tailq α :=
  match c with
  | .head => { q with first := v }
  | .next a => { q with next := Function.update q.next a v }

/-- `TAILQ_INIT` -/
def init (q : Tailq α) : Tailq α := { q with first := none, last := some .head }

/-- `TAILQ_INSERT_HEAD` -/
def insertHead (q : Tailq α) (x : α) : Tailq α :=
  let q₁ := { q with next := Function.update q.next x q.first }
  let q₂ := match q.first with
    | some y => { q₁ with prev := Function.update q₁.prev y (some (.next x)) }
    | none => { q₁ with last := some (.next x) }
  { q₂ with first := some x, prev := Function.update q₂.prev x (some .head) }

/-- `TAILQ_INSERT_TAIL`; `none` when `tqh_last` is null and is written through. -/
def insertTail (q : Tailq α) (x : α) : Option (Tailq α) :=
  let q₁ := { q with next := Function.update q.next x none, prev := Function.update q.prev x q.last }
  match q₁.last with
  | none => none
  | some c => some { q₁.store c (some x) with last := some (.next x) }

/-- `TAILQ_REMOVE`; `none` when `tqe_prev` is null and is written through. -/
def remove (q : Tailq α) (x : α) : Option (Tailq α) :=
  let q₁ := match q.next x with
    | some y => { q with prev := Function.update q.prev y (q.prev x) }
    | none => { q with last := q.prev x }
  match q₁.prev x with
  | none => none
  | some c => some (q₁.store c (q₁.next x))

/-- From the link at `c` on, the queue is `xs`: every link leads to the next element, every element's back address
is the link that leads to it, and the head's last address is the link after the last element. -/
def Seg (q : Tailq α) : Cell α → List α → Prop
  | c, [] => q.load c = none ∧ q.last = some c
  | c, x :: xs => q.load c = some x ∧ q.prev x = some c ∧ Seg q (.next x) xs

/-- **The queue is exactly `xs`**, each element once. -/
def Links (q : Tailq α) (xs : List α) : Prop := xs.Nodup ∧ Seg q .head xs

/-- **Removing `x`, which is not queued, writes no link of the queue**: the address it writes through is not null,
and where that address, or the back address it overwrites, is one of the queue's, it already holds what is written. -/
structure Inert (q : Tailq α) (queued : α → Prop) (x : α) : Prop where
  prev_ne : q.prev x ≠ none
  back : ∀ c, q.prev x = some c → (c = .head ∨ ∃ a, c = .next a ∧ queued a) → q.load c = q.next x
  forth : ∀ y, q.next x = some y → queued y → q.prev y = q.prev x
  tail : q.next x = none → q.last = q.prev x

/-! ## What is read after a write -/

omit [DecidableEq α] in
@[simp] theorem load_head (q : Tailq α) : q.load .head = q.first := rfl

omit [DecidableEq α] in
@[simp] theorem load_next (q : Tailq α) (a : α) : q.load (.next a) = q.next a := rfl

@[simp] theorem store_last (q : Tailq α) (c : Cell α) (v : Option α) : (q.store c v).last = q.last := by
  cases c <;> rfl

@[simp] theorem store_prev (q : Tailq α) (c : Cell α) (v : Option α) : (q.store c v).prev = q.prev := by
  cases c <;> rfl

theorem load_store (q : Tailq α) (c d : Cell α) (v : Option α) :
    (q.store c v).load d = if d = c then v else q.load d := by
  cases c <;> cases d <;> simp [store, load, Function.update_apply]

/-! ## Segments -/

section Seg
omit [DecidableEq α]

theorem seg_congr {q q' : Tailq α} : ∀ {xs : List α} {c : Cell α}, Seg q c xs →
    q'.load c = q.load c → (∀ x ∈ xs, q'.next x = q.next x) → (∀ x ∈ xs, q'.prev x = q.prev x) →
    q'.last = q.last → Seg q' c xs
  | [], _, h, hc, _, _, hl => ⟨hc.trans h.1, hl.trans h.2⟩
  | x :: xs, _, h, hc, hn, hp, hl => by
    refine ⟨hc.trans h.1, (hp x (by simp)).trans h.2.1, ?_⟩
    exact seg_congr h.2.2 (hn x (by simp)) (fun y hy => hn y (by simp [hy])) (fun y hy => hp y (by simp [hy])) hl

theorem seg_load {q : Tailq α} {c : Cell α} {xs : List α} (h : Seg q c xs) : q.load c = xs.head? := by
  cases xs with
  | nil => exact h.1
  | cons x xs => exact h.1

/-- The last address is the first link of the segment or the link of one of its elements. -/
theorem seg_last {q : Tailq α} : ∀ {xs : List α} {c : Cell α}, Seg q c xs →
    ∃ e, q.last = some e ∧ (e = c ∨ ∃ z ∈ xs, e = .next z)
  | [], c, h => ⟨c, h.2, .inl rfl⟩
  | z :: zs, _, h => by
    obtain ⟨e, he, rfl | ⟨w, hw, rfl⟩⟩ := seg_last h.2.2
    · exact ⟨_, he, .inr ⟨z, by simp, rfl⟩⟩
    · exact ⟨_, he, .inr ⟨w, by simp [hw], rfl⟩⟩

/-- The back address of an element is the first link of the segment or the link of one of its elements, and leads
to the element. -/
theorem seg_prev {q : Tailq α} {x : α} : ∀ {xs : List α} {c : Cell α}, Seg q c xs → x ∈ xs →
    ∃ d, q.prev x = some d ∧ q.load d = some x ∧ (d = c ∨ ∃ z ∈ xs, d = .next z)
  | z :: zs, c, h, hx => by
    rcases List.mem_cons.1 hx with rfl | hx
    · exact ⟨c, h.2.1, h.1, .inl rfl⟩
    · obtain ⟨d, hd, hl, rfl | ⟨w, hw, rfl⟩⟩ := seg_prev h.2.2 hx
      · exact ⟨_, hd, hl, .inr ⟨z, by simp, rfl⟩⟩
      · exact ⟨_, hd, hl, .inr ⟨w, by simp [hw], rfl⟩⟩

theorem seg_next_mem {q : Tailq α} {x y : α} : ∀ {xs : List α} {c : Cell α}, Seg q c xs → x ∈ xs →
    q.next x = some y → y ∈ xs
  | z :: zs, _, h, hx, hy => by
    rcases List.mem_cons.1 hx with rfl | hx
    · have hhead := seg_load h.2.2
      rw [load_next, hy] at hhead
      exact List.mem_cons_of_mem _ (List.mem_of_head? hhead.symm)
    · exact List.mem_cons_of_mem _ (seg_next_mem h.2.2 hx hy)

theorem seg_unique {q : Tailq α} : ∀ {xs ys : List α} {c : Cell α}, Seg q c xs → Seg q c ys → xs = ys
  | [], [], _, _, _ => rfl
  | [], _ :: _, _, h, h' => by have := h.1.symm.trans h'.1; cases this
  | _ :: _, [], _, h, h' => by have := h.1.symm.trans h'.1; cases this
  | x :: xs, y :: ys, _, h, h' => by
    have hxy : x = y := by simpa using h.1.symm.trans h'.1
    subst hxy
    rw [seg_unique h.2.2 h'.2.2]

theorem Links.unique {q : Tailq α} {xs ys : List α} (h : Links q xs) (h' : Links q ys) : xs = ys :=
  seg_unique h.2 h'.2

theorem Links.first_eq {q : Tailq α} {xs : List α} (h : Links q xs) : q.first = xs.head? := seg_load h.2

theorem Links.mem_of_first {q : Tailq α} {xs : List α} {x : α} (h : Links q xs) (hx : q.first = some x) : x ∈ xs :=
  List.mem_of_head? (h.first_eq.symm.trans hx)

theorem links_init (q : Tailq α) : Links q.init [] := ⟨List.nodup_nil, rfl, rfl⟩

end Seg

/-! ## Inserting -/

/-- **`TAILQ_INSERT_HEAD` puts a new element first.** -/
theorem insertHead_links {q : Tailq α} {xs : List α} {x : α} (h : Links q xs) (hx : x ∉ xs) :
    Links (q.insertHead x) (x :: xs) := by
  refine ⟨List.nodup_cons.2 ⟨hx, h.1⟩, ?_⟩
  cases xs with
  | nil =>
    have hf : q.first = none := h.2.1
    simp [Seg, insertHead, hf]
  | cons y ys =>
    have hf : q.first = some y := h.2.1
    obtain ⟨hyx, hxs⟩ : x ≠ y ∧ x ∉ ys := by simpa using hx
    have hyys : y ∉ ys := (List.nodup_cons.1 h.1).1
    refine ⟨by simp [insertHead, hf], by simp [insertHead, hf], ?_, ?_, ?_⟩
    · simp [insertHead, hf]
    · simp [insertHead, hf, Function.update_of_ne hyx.symm]
    · refine seg_congr h.2.2.2 ?_ ?_ ?_ ?_
      · simp [insertHead, hf, Function.update_of_ne hyx.symm]
      · intro z hz
        have : z ≠ x := fun e => hxs (e ▸ hz)
        simp [insertHead, hf, Function.update_of_ne this]
      · intro z hz
        have hzx : z ≠ x := fun e => hxs (e ▸ hz)
        have hzy : z ≠ y := fun e => hyys (e ▸ hz)
        simp [insertHead, hf, Function.update_of_ne hzx, Function.update_of_ne hzy]
      · simp [insertHead, hf]

omit [DecidableEq α] in
/-- Appending to a segment: only the last link, the new element's fields and the last address change. -/
theorem seg_append {q q' : Tailq α} {x : α} {e : Cell α} (he : q.last = some e) (hle : q'.load e = some x)
    (hlx : q'.next x = none) (hload : ∀ d, d ≠ e → d ≠ .next x → q'.load d = q.load d)
    (hprev : ∀ y, y ≠ x → q'.prev y = q.prev y) (hpx : q'.prev x = some e) (hl : q'.last = some (.next x)) :
    ∀ {xs : List α} {c : Cell α}, Seg q c xs → xs.Nodup → x ∉ xs → (∀ y ∈ xs, c ≠ .next y) → c ≠ .next x →
      Seg q' c (xs ++ [x])
  | [], c, h, _, _, _, hcx => by
    have hce : c = e := by simpa using h.2.symm.trans he
    subst hce
    exact ⟨hle, hpx, hlx, hl⟩
  | y :: ys, c, h, hnd, hx, hc, hcx => by
    obtain ⟨hyx, hxs⟩ : x ≠ y ∧ x ∉ ys := by simpa using hx
    obtain ⟨hyys, hnd'⟩ := List.nodup_cons.1 hnd
    have hce : c ≠ e := by
      obtain ⟨e', he', rfl | ⟨z, hz, rfl⟩⟩ := seg_last h.2.2
      · have : e = .next y := by simpa using he.symm.trans he'
        exact fun hce => hc y (by simp) (hce.trans this)
      · have : e = .next z := by simpa using he.symm.trans he'
        exact fun hce => hc z (by simp [hz]) (hce.trans this)
    refine ⟨(hload c hce hcx).trans h.1, (hprev y hyx.symm).trans h.2.1, ?_⟩
    refine seg_append he hle hlx hload hprev hpx hl h.2.2 hnd' hxs ?_ ?_
    · intro z hz hyz
      cases hyz
      exact hyys hz
    · intro hyz
      cases hyz
      exact hyx rfl

/-- **`TAILQ_INSERT_TAIL` puts a new element last.** -/
theorem insertTail_links {q : Tailq α} {xs : List α} {x : α} (h : Links q xs) (hx : x ∉ xs) :
    ∃ q', q.insertTail x = some q' ∧ Links q' (xs ++ [x]) := by
  obtain ⟨e, he, hcase⟩ := seg_last h.2
  have hex : e ≠ .next x := by
    rcases hcase with rfl | ⟨z, hz, rfl⟩
    · simp
    · intro h'; cases h'; exact hx hz
  refine ⟨{ (Tailq.mk q.first (some e) (Function.update q.next x none) (Function.update q.prev x (some e))).store e
    (some x) with last := some (.next x) }, by simp [insertTail, he], ?_, ?_⟩
  · exact List.nodup_append.2 ⟨h.1, by simp, by simpa using fun a ha (h' : a = x) => hx (h' ▸ ha)⟩
  · have hlast : ∀ (r : Tailq α) (l : Option (Cell α)) (d : Cell α),
        ({ r with last := l } : Tailq α).load d = r.load d := by
      intro r l d; cases d <;> rfl
    refine seg_append he ?_ ?_ ?_ ?_ ?_ rfl h.2 h.1 hx (by simp) (by simp)
    · rw [hlast, load_store, if_pos rfl]
    · rw [← load_next, hlast, load_store, if_neg (Ne.symm hex)]
      simp
    · intro d hde hdx
      rw [hlast, load_store, if_neg hde]
      cases d with
      | head => rfl
      | next a => simp [Function.update_of_ne (fun (e' : a = x) => hdx (e' ▸ rfl))]
    · intro y hy
      simp [Function.update_of_ne hy]
    · simp

/-! ## Removing -/

/-- **What `TAILQ_REMOVE` writes**, whatever it is applied to. -/
theorem remove_eq {q : Tailq α} {x : α} {c : Cell α} (hc : q.prev x = some c) :
    ∃ q', q.remove x = some q' ∧ (∀ d, q'.load d = if d = c then q.next x else q.load d) ∧
      (∀ y, q'.prev y = if q.next x = some y then some c else q.prev y) ∧
      (q'.last = if q.next x = none then some c else q.last) := by
  have hdrop : ∀ (l : Option (Cell α)) (p : α → Option (Cell α)) (d : Cell α),
      (Tailq.mk q.first l q.next p).load d = q.load d := by
    intro l p d; cases d <;> rfl
  cases hn : q.next x with
  | none =>
    refine ⟨_, by simp [remove, hn, hc]; rfl, ?_, by simp, by simp⟩
    intro d
    rw [load_store, hdrop]
  | some y =>
    have hx : Function.update q.prev y (some c) x = some c := by
      by_cases hxy : x = y
      · simp [hxy]
      · simp [Function.update_of_ne hxy, hc]
    refine ⟨_, by simp [remove, hn, hc, hx]; rfl, ?_, ?_, by simp⟩
    · intro d
      rw [load_store, hdrop]
    · intro z
      by_cases hyz : y = z
      · simp [hyz]
      · simp [hyz, Function.update_of_ne (Ne.symm hyz)]

theorem remove_none_iff {q : Tailq α} {x : α} : q.remove x = none ↔ q.prev x = none := by
  constructor
  · intro h
    cases hc : q.prev x with
    | none => rfl
    | some c =>
      obtain ⟨q', hq', -⟩ := remove_eq hc
      rw [h] at hq'; cases hq'
  · intro h
    have hx : ∀ y, Function.update q.prev y none x = none := by
      intro y
      by_cases hxy : x = y
      · simp [hxy]
      · simp [Function.update_of_ne hxy, h]
    cases hn : q.next x <;> simp [remove, hn, h, hx]

theorem seg_remove {q q' : Tailq α} {x : α} {d : Cell α} (hd : q.prev x = some d)
    (hload : ∀ c, q'.load c = if c = d then q.next x else q.load c)
    (hprev : ∀ y, q'.prev y = if q.next x = some y then some d else q.prev y)
    (hlast : q'.last = if q.next x = none then some d else q.last) :
    ∀ {xs : List α} {c : Cell α}, Seg q c xs → xs.Nodup → x ∈ xs → (∀ y ∈ xs, c ≠ .next y) →
      Seg q' c (xs.erase x)
  | y :: ys, c, h, hnd, hx, hc => by
    obtain ⟨hyys, hnd'⟩ := List.nodup_cons.1 hnd
    by_cases hyx : y = x
    · subst hyx
      have hcd : c = d := by simpa using h.2.1.symm.trans hd
      subst hcd
      rw [List.erase_cons_head]
      cases ys with
      | nil =>
        have hn : q.next y = none := h.2.2.1
        exact ⟨by rw [hload, if_pos rfl, hn], by rw [hlast, if_pos hn]⟩
      | cons z zs =>
        have hn : q.next y = some z := h.2.2.1
        have hzs : z ∉ zs := (List.nodup_cons.1 hnd').1
        refine ⟨by rw [hload, if_pos rfl, hn], by rw [hprev, if_pos hn], ?_⟩
        refine seg_congr h.2.2.2.2 ?_ ?_ ?_ (by rw [hlast, hn]; simp)
        · rw [hload, if_neg (Ne.symm (hc z (by simp)))]
        · intro w hw
          have := hload (.next w)
          rwa [if_neg (Ne.symm (hc w (by simp [hw])))] at this
        · intro w hw
          rw [hprev, hn, if_neg]
          intro hzw
          cases hzw
          exact hzs hw
    · have hxys : x ∈ ys := (List.mem_cons.1 hx).resolve_left (Ne.symm hyx)
      have hcd : c ≠ d := by
        obtain ⟨d', hd', -, rfl | ⟨z, hz, rfl⟩⟩ := seg_prev h.2.2 hxys
        · have : d = .next y := by simpa using hd.symm.trans hd'
          exact fun hcd => hc y (by simp) (hcd.trans this)
        · have : d = .next z := by simpa using hd.symm.trans hd'
          exact fun hcd => hc z (by simp [hz]) (hcd.trans this)
      have hny : q.next x ≠ some y := fun hn => hyys (seg_next_mem h.2.2 hxys hn)
      rw [List.erase_cons_tail (by simpa using hyx)]
      refine ⟨by rw [hload, if_neg hcd, h.1], by rw [hprev, if_neg hny, h.2.1], ?_⟩
      refine seg_remove hd hload hprev hlast h.2.2 hnd' hxys ?_
      intro z hz hyz
      cases hyz
      exact hyys hz

/-- **`TAILQ_REMOVE` unlinks a queued element.** -/
theorem remove_links {q : Tailq α} {xs : List α} {x : α} (h : Links q xs) (hx : x ∈ xs) :
    ∃ q', q.remove x = some q' ∧ Links q' (xs.erase x) := by
  obtain ⟨d, hd, -⟩ := seg_prev h.2 hx
  obtain ⟨q', hq', hload, hprev, hlast⟩ := remove_eq hd
  exact ⟨q', hq', h.1.erase x, seg_remove hd hload hprev hlast h.2 h.1 hx (by simp)⟩

/-- **`TAILQ_REMOVE` of an inert element leaves the queue as it is.** -/
theorem remove_of_inert {q : Tailq α} {xs : List α} {x : α} (h : Links q xs) (hi : Inert q (· ∈ xs) x) :
    ∃ q', q.remove x = some q' ∧ Links q' xs := by
  obtain ⟨d, hd⟩ := Option.ne_none_iff_exists'.1 hi.prev_ne
  obtain ⟨q', hq', hload, hprev, hlast⟩ := remove_eq hd
  have hcell : ∀ c : Cell α, c = .head ∨ (∃ a, c = .next a ∧ a ∈ xs) → q'.load c = q.load c := by
    intro c hc
    rw [hload]
    by_cases hcd : c = d
    · rw [if_pos hcd, hi.back c (hcd ▸ hd) hc]
    · rw [if_neg hcd]
  refine ⟨q', hq', h.1, seg_congr h.2 (hcell _ (.inl rfl)) ?_ ?_ ?_⟩
  · intro a ha
    exact hcell (.next a) (.inr ⟨a, rfl, ha⟩)
  · intro a ha
    rw [hprev]
    by_cases hn : q.next x = some a
    · rw [if_pos hn, hi.forth a hn ha, hd]
    · rw [if_neg hn]
  · rw [hlast]
    by_cases hn : q.next x = none
    · rw [if_pos hn, hi.tail hn, hd]
    · rw [if_neg hn]

/-- **Removing twice in a row is removing once**: the second removal finds every link as it would write it. -/
theorem inert_of_remove {q q' : Tailq α} {x : α} (queued : α → Prop) (h : q.remove x = some q') :
    Inert q' queued x := by
  obtain ⟨d, hd⟩ : ∃ d, q.prev x = some d := by
    rw [← Option.ne_none_iff_exists']
    intro hn
    rw [remove_none_iff.2 hn] at h; cases h
  obtain ⟨q'', hq'', hload, hprev, hlast⟩ := remove_eq hd
  obtain rfl : q'' = q' := by simpa using hq''.symm.trans h
  have hpx : q''.prev x = some d := by
    rw [hprev]; split
    · rfl
    · exact hd
  have hnx : q''.next x = q.next x := by
    have := hload (.next x)
    simp only [load_next] at this
    rw [this]; split <;> rfl
  refine ⟨by simp [hpx], ?_, ?_, ?_⟩
  · intro c hc _
    obtain rfl : d = c := by simpa using hpx.symm.trans hc
    rw [hload, if_pos rfl, hnx]
  · intro y hy _
    rw [hprev, if_pos (hnx ▸ hy), hpx]
  · intro hn
    rw [hlast, if_pos (hnx ▸ hn), hpx]

omit [DecidableEq α] in
theorem Inert.congr {q : Tailq α} {queued queued' : α → Prop} {x : α} (h : ∀ a, queued a ↔ queued' a)
    (hi : Inert q queued x) : Inert q queued' x := by
  have : queued = queued' := funext (fun a => propext (h a))
  exact this ▸ hi

omit [DecidableEq α] in
theorem seg_det {q q' : Tailq α} : ∀ {xs : List α} {c : Cell α}, Seg q c xs → Seg q' c xs →
    q'.load c = q.load c ∧ (∀ a ∈ xs, q'.next a = q.next a ∧ q'.prev a = q.prev a) ∧ q'.last = q.last
  | [], _, h, h' => ⟨h'.1.trans h.1.symm, by simp, h'.2.trans h.2.symm⟩
  | x :: xs, _, h, h' => by
    obtain ⟨hload, hmem, hlast⟩ := seg_det h.2.2 h'.2.2
    refine ⟨h'.1.trans h.1.symm, ?_, hlast⟩
    intro a ha
    rcases List.mem_cons.1 ha with rfl | ha
    · exact ⟨hload, h'.2.1.trans h.2.1.symm⟩
    · exact hmem a ha

/-- **Only the removal of an inert element leaves the queue as it is.** -/
theorem inert_of_keeps {q q' : Tailq α} {xs : List α} {x : α} (h : Links q xs) (hq : q.remove x = some q')
    (h' : Links q' xs) : Inert q (· ∈ xs) x := by
  obtain ⟨d, hd⟩ : ∃ d, q.prev x = some d := by
    rw [← Option.ne_none_iff_exists']
    intro hn
    rw [remove_none_iff.2 hn] at hq; cases hq
  obtain ⟨q'', hq'', hload, hprev, hlast⟩ := remove_eq hd
  obtain rfl : q'' = q' := by simpa using hq''.symm.trans hq
  obtain ⟨dload, dmem, dlast⟩ := seg_det h.2 h'.2
  refine ⟨by simp [hd], ?_, ?_, ?_⟩
  · intro c hc hcell
    obtain rfl : d = c := by simpa using hd.symm.trans hc
    have hw : q''.load d = q.next x := by rw [hload, if_pos rfl]
    rw [← hw]
    rcases hcell with rfl | ⟨a, rfl, ha⟩
    · exact dload.symm
    · exact (dmem a ha).1.symm
  · intro y hy hm
    have hw : q''.prev y = some d := by rw [hprev, if_pos hy]
    rw [← (dmem y hm).2, hw, hd]
  · intro hn
    have hw : q''.last = some d := by rw [hlast, if_pos hn]
    rw [← dlast, hw, hd]

end Tailq
