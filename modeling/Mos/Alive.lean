import Mos.Procs
/-!
# Alive — the free list and the free environments

Whatever happens to the scheduler's list, `env_free_list` holds each of its environments once, they are free, and the
running environment is not.
-/
namespace Mos

namespace Procs

/-- **The free list has free environments, each once, and what runs is not free.** -/
structure Alive (p : Procs) : Prop where
  nodup : p.free.Nodup
  free : ∀ e ∈ p.free, p.status e = .free
  running : ∀ e, p.running = some e → p.status e ≠ .free

theorem setStatus_status (p : Procs) (e x : EnvIx) (st : EnvStatus) :
    (p.setStatus e st).status x = if x = e then st else p.status x := by
  simp only [setStatus, Function.update_apply]

theorem Alive.congr {p p' : Procs} (h : p.Alive) (hf : p'.free = p.free) (hr : p'.running = p.running)
    (hs : p'.status = p.status) : p'.Alive :=
  ⟨hf ▸ h.nodup, fun e he => (congrFun hs e).trans (h.free e (hf ▸ he)),
    fun e he => (congrFun hs e).trans_ne (h.running e (hr ▸ he))⟩

theorem Alive.setStatus {p : Procs} {e : EnvIx} {st : EnvStatus} (h : p.Alive) (hlive : p.status e ≠ .free)
    (hst : st ≠ .free) : (p.setStatus e st).Alive := by
  refine ⟨h.nodup, fun x hx => ?_, fun x hx => ?_⟩
  · rw [setStatus_status, if_neg (fun hxe : x = e => hlive (hxe ▸ h.free x hx))]
    exact h.free x hx
  · rw [setStatus_status]
    split
    · exact hst
    · exact h.running x hx

theorem Alive.picks {p p' : Procs} (h : p.Alive) (hp : p.Picks p') : p'.Alive := by
  cases hp with
  | stay e hr hrun => exact h
  | switch q e hq hf hrun =>
    refine ⟨h.nodup, h.free, fun x hx => ?_⟩
    cases hx
    rw [hrun]
    simp

theorem Alive.destroys {p p' : Procs} {e : EnvIx} (h : p.Alive) (hlive : p.status e ≠ .free) (hd : p.Destroys e p') :
    p'.Alive := by
  have hnd : (e :: p.free).Nodup := List.nodup_cons.2 ⟨fun he => hlive (h.free e he), h.nodup⟩
  have hfree : ∀ x ∈ e :: p.free, (p.setStatus e .free).status x = .free := by
    intro x hx
    rw [setStatus_status]
    split
    · rfl
    · rename_i hxe
      exact h.free x ((List.mem_cons.1 hx).resolve_left hxe)
  cases hd with
  | other q hq hr =>
    refine ⟨hnd, hfree, fun x hx => ?_⟩
    show (p.setStatus e .free).status x ≠ .free
    rw [setStatus_status, if_neg (fun hxe : x = e => hr (hxe ▸ hx))]
    exact h.running x hx
  | self q _ hq hr hpick =>
    have hidle : ({ p.freed e q with running := none } : Procs).Alive := ⟨hnd, hfree, fun x hx => by cases hx⟩
    exact hidle.picks hpick

theorem Alive.alloc {p : Procs} {e : EnvIx} {rest : List EnvIx} {st : EnvStatus} (h : p.Alive) (hf : p.free = e :: rest)
    (hst : st ≠ .free) : ({ p with free := rest }.setStatus e st).Alive := by
  obtain ⟨hnot, hnd⟩ := List.nodup_cons.1 (hf ▸ h.nodup)
  refine ⟨hnd, fun x hx => ?_, fun x hx => ?_⟩
  · rw [setStatus_status, if_neg (fun hxe : x = e => hnot (hxe ▸ hx))]
    exact h.free x (by rw [hf]; exact List.mem_cons_of_mem _ hx)
  · rw [setStatus_status]
    split
    · exact hst
    · exact h.running x hx

end Procs

theorem statusOfWord_ne_free {w : Word} {st : EnvStatus} (h : statusOfWord w = some st) : st ≠ .free := by
  unfold statusOfWord at h
  split at h
  · cases h; simp
  · split at h
    · cases h; simp
    · cases h

theorem alive_of_moves {k : Kernel} {a : Act} {p : Procs} (h : k.procs.Alive) (hm : Moves k a p) : p.Alive := by
  cases hm with
  | quiet => exact h
  | tick _ hp => exact h.picks hp
  | yield _ _ hp => exact h.picks hp
  | destroy cur e c v0 _ hc hv hd => exact h.destroys (victim_live (h.running cur hc) hv) hd
  | exofork cur e rest v0 hc hf => exact h.alloc hf (by simp)
  | setStatus cur e envid status v0 st q hc hid hst hq =>
    have hlive : k.procs.status e ≠ .free := envid2env_live (h.running cur hc) hid
    exact (h.setStatus hlive (statusOfWord_ne_free hst)).congr rfl rfl rfl
  | recv cur dstva v0 q _ hc hva hq hp =>
    have hblocked := h.setStatus (h.running cur hc) (by simp : EnvStatus.notRunnable ≠ .free)
    exact (@Procs.Alive.congr _ (({ k.procs with queue := q }.setStatus cur .notRunnable).setRecving cur true) hblocked
      rfl rfl rfl).picks hp
  | send cur e envid value srcva perm v0 q hc hva hid hr hq =>
    have hlive : k.procs.status e ≠ .free := envid2env_live (h.running cur hc) hid
    exact (h.setStatus hlive (by simp : EnvStatus.runnable ≠ .free)).congr rfl rfl rfl

/-! ## Boot -/

theorem envInit_procs {b : Board} {pages : Nat} {pm : Pmap} {k : Kernel} (h : envInit b pages pm = some k) :
    k.procs = { queue := Tailq.init ⟨none, none, fun _ => none, fun _ => none⟩, free := List.finRange nenv
                running := none, status := fun _ => .free, recving := fun _ => false } := by
  unfold envInit at h
  obtain ⟨⟨pp, pm₁⟩, -, h₁⟩ := Option.bind_eq_some_iff.1 h
  obtain ⟨pm₂, -, h₂⟩ := Option.bind_eq_some_iff.1 h₁
  obtain ⟨pm₃, -, rfl⟩ := Option.map_eq_some_iff.1 h₂
  simp [Kernel.procs, Env.zero]

/-- **What `env_init` establishes and `env_create` keeps holds of every booted kernel.** -/
theorem booted_procs (P : Procs → Prop)
    (hinit : P { queue := Tailq.init ⟨none, none, fun _ => none, fun _ => none⟩, free := List.finRange nenv
                 running := none, status := fun _ => .free, recving := fun _ => false })
    (hcreate : ∀ p e rest, P p → p.free = e :: rest →
      P { p.setStatus e .runnable with free := rest, queue := p.queue.insertHead e })
    {k : Kernel} (h : Booted k) : P k.procs := by
  obtain ⟨b, programs, hb⟩ := h
  unfold mipsInit at hb
  obtain ⟨⟨pages, pm⟩, -, h₁⟩ := Option.bind_eq_some_iff.1 hb
  obtain ⟨k₀, hk₀, hfold⟩ := Option.bind_eq_some_iff.1 h₁
  have hw : P k₀.procs := by
    rw [envInit_procs hk₀]
    exact hinit
  clear hk₀ hb h₁
  induction programs generalizing k₀ with
  | nil => cases hfold; exact hw
  | cons pr prs ih =>
    obtain ⟨k₁, hc, hrest⟩ := Option.bind_eq_some_iff.1 hfold
    refine ih k₁ hrest ?_
    rcases envCreate_procs hc with hp | ⟨e, rest, hf, hp⟩
    · rw [hp]
      exact hw
    · rw [hp]
      exact hcreate k₀.procs e rest hw hf

theorem alive_create {p : Procs} {e : EnvIx} {rest : List EnvIx} (h : p.Alive) (hf : p.free = e :: rest) :
    ({ p.setStatus e .runnable with free := rest, queue := p.queue.insertHead e } : Procs).Alive :=
  (h.alloc hf (by simp : EnvStatus.runnable ≠ .free)).congr rfl rfl rfl

theorem alive_init (q : Tailq EnvIx) :
    ({ queue := q, free := List.finRange nenv, running := none, status := fun _ => .free,
       recving := fun _ => false } : Procs).Alive := by
  refine ⟨?_, fun _ _ => rfl, fun _ hx => by cases hx⟩
  dsimp only
  exact List.nodup_finRange nenv

theorem booted_alive {k : Kernel} (h : Booted k) : k.procs.Alive :=
  booted_procs Procs.Alive (alive_init _) (fun _ _ _ hp hf => alive_create hp hf) h

end Mos
