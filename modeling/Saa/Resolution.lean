import Saa.Transitions

/-! # Every registration is resolved exactly once

`Entry::set_result` meets a clear entry whenever it is called, and an entry that left
the queue is either resolved or in the list of one thread that will resolve it. -/
namespace Saa

open Word Lib.Linked Lib.Trace

/-- The loops of `process_wait_queue`, `poison_lock_internal` and `Gate::wake_all` that
resolve detached entries, and the steps of a pass between detaching and resolving. -/
def Pc.Resolves : Pc → Prop
  | .update _ _ _ _ _ | .add _ _ _ _ _ => True
  | .resolve _ _ _ k | .finalize _ _ _ _ k => match k with
    | .pass _ _ _ | .leave _ | .poisoned | .woken | .acknowledge _ => True
    | .writeBack _ | .last _ => False
  | _ => False

/-- Following the links from where the thread stands leads to the entry. -/
def Pending (s : Cfg) (t : Tid) (a : Ptr) : Prop :=
  ∃ l, Chain 0 s.next (s.pc t).takePtr l ∧ a ∈ l

/-- The thread is about to store the result of the entry that its own call borrows. -/
def Immediate (s : Cfg) (t : Tid) (a : Ptr) : Prop :=
  s.slot a = .used t ∧ ∃ q r, s.pc t = .settle q r ∧ q.entry = a

/-- The entry was registered, and is out of the queue without having been removed by its
own drop. -/
def Left (v : View) (a : Ptr) : Prop :=
  v.stat a ≠ .idle ∧ v.stat a ≠ .queued ∧ v.stat a ≠ .unlinked

section
variable {kind : Kind} {s s' : Cfg} {v : View} {t : Tid} {a : Ptr}

theorem Inv.pending_iff (h : Inv kind s v) : Pending s t a ↔ v.stat a = .taken t := by
  have hl := h.loc t
  rw [← h.glob.taken]
  constructor
  · rintro ⟨l, hc, hm⟩
    rwa [hl.taken.unique hc]
  · exact fun hm => ⟨_, hl.taken, hm⟩

theorem Inv.resolves (h : Inv kind s v) (hk : ∀ n, kind ≠ .barrier n)
    (hst : v.stat a = .taken t) : (s.pc t).Resolves := by
  have hl := h.loc t
  have hne : (s.pc t).takePtr ≠ 0 := by
    intro hz
    have hm := (h.glob.taken t a).mpr hst
    rw [hl.taken_nil hz] at hm
    cases hm
  have hf := hl.fits
  revert hne hf
  cases s.pc t with
  | resolve _ _ _ k | finalize _ _ _ _ k =>
    have hno : ¬∃ n, kind = .barrier n := by
      rintro ⟨n, hn⟩
      exact hk n hn
    cases k <;> simp only [Pc.Fits, Pc.Resolves, implies_true] <;>
      exact fun _ hn => absurd hn hno
  | update | add => exact fun _ _ => trivial
  | _ => exact fun hne => absurd rfl hne

theorem Inv.set_once (h : Inv kind s v) (a : Ptr) : v.sets a ≤ 1 := by
  rw [h.glob.sets]
  cases v.stat a <;> simp [Stat.setCount]

theorem Inv.left_resolved (h : Inv kind s v) (hk : ∀ n, kind ≠ .barrier n) (hleft : Left v a) :
    ((s.state a).resultSet = true ∧ v.sets a = 1) ∨
    ∃! t, (s.pc t).Resolves ∧ Pending s t a := by
  have hse := h.glob.sets a
  cases hst : v.stat a with
  | idle => exact absurd hst hleft.1
  | queued => exact absurd hst hleft.2.1
  | unlinked => exact absurd hst hleft.2.2
  | taken t =>
    refine Or.inr ⟨t, ⟨h.resolves hk hst, h.pending_iff.mpr hst⟩, fun u ⟨_, hu⟩ => ?_⟩
    have := h.pending_iff.mp hu
    rw [hst] at this
    exact (Stat.taken.inj this).symm
  | answered t =>
    rw [hst] at hse
    exact Or.inl ⟨(h.glob.set a t hst).1, hse⟩
  | final =>
    rw [hst] at hse
    exact Or.inl ⟨(h.glob.final a hst).1, hse⟩

theorem Inv.settling (h : Inv kind s v) {q : Req} {r : ℕ} (hp : s.pc t = .settle q r) :
    v.stat q.entry = .idle ∧ s.slot q.entry = .used t ∧ s.state q.entry = .clear := by
  have hl := h.loc t
  rw [hp] at hl
  have hent : (Pc.settle q r).entry = some q.entry := if_neg hl.fits
  exact ⟨hl.stat _ hent, (hl.slot _).mp hent, (hl.built _ hent rfl).1⟩

theorem Took.sets {act : Action} {u : Tid} {r : ℕ}
    (ht : Took kind s v t act (.setResult u a r) s') :
    v.stat a = .taken t ∨ v.stat a = .idle ∧ Immediate s t a := by
  have hmv := ht.move
  generalize hp : s.pc t = p at hmv
  generalize s'.pc t = p' at hmv
  cases hmv with
  | gate _ hg => cases hg
  | settle =>
    obtain ⟨hidle, hslot, -⟩ := ht.inv.settling hp
    exact .inr ⟨hidle, hslot, _, _, hp, rfl⟩
  | set hm => exact .inl ((ht.inv.glob.taken t a).mp hm)

/-- In every run of a lock, a semaphore or a gate, a registration is resolved at most
once. `set_result` finds both flags clear, and its caller has taken the entry out of the queue
or is registering it with an immediate result, so that no entry is met which its own drop has
removed. An entry that left the queue is resolved or belongs to exactly one resolver. -/
theorem resolved_exactly_once {h : List Event} (hk : ∀ n, kind ≠ .barrier n)
    (hr : Reach kind free s h) :
    (∀ a, (view h).sets a ≤ 1) ∧
    (∀ act t a r s', step kind s act = some (.setResult t a r, s') →
      ((view h).stat a = .taken t ∨ (view h).stat a = .idle ∧ Immediate s t a) ∧
      (view h).sets a = 0 ∧ (view h).stat a ≠ .unlinked ∧
      (s.state a).resultSet = false ∧ (s.state a).finalized = false) ∧
    ∀ a, Left (view h) a → ((s.state a).resultSet = true ∧ (view h).sets a = 1) ∨
      ∃! t, (s.pc t).Resolves ∧ Pending s t a := by
  have hinv := reach_inv hk hr
  refine ⟨hinv.set_once, fun act t a r s' hs => ?_, fun a ha => hinv.left_resolved hk ha⟩
  have ht := took hinv (reach_inv hk (.step hr trivial hs)) hs
  obtain ⟨rfl, -, hclear, hst⟩ := ht.frame.set t a r rfl
  have hse := hinv.glob.sets a
  refine ⟨ht.sets, ?_, ?_, by rw [hclear]; rfl, by rw [hclear]; rfl⟩
  · rcases hst with hst | hst <;> rw [hse, hst] <;> rfl
  · rcases hst with hst | hst <;> rw [hst] <;> simp

end

theorem resolved_exactly_once_handover :
    ∃ s h, exec (system (.semaphore 1)) (Kind.initial (.semaphore 1)) [] handover = some (s, h) ∧
      (∀ a, (view h).sets a ≤ 1) ∧ Left (view h) 256 ∧
      (((s.state 256).resultSet = true ∧ (view h).sets 256 = 1) ∨
        ∃! t, (s.pc t).Resolves ∧ Pending s t 256) := by
  obtain ⟨s, h, hrun, -, -, -, hst, -⟩ := handover_run
  have hleft : Left (view h) 256 := by simp [Left, hst]
  obtain ⟨hone, -, hres⟩ := resolved_exactly_once (by simp)
    (Run.exec .init (admits_free ..) hrun)
  exact ⟨s, h, hrun, hone, hleft, hres 256 hleft⟩

end Saa
