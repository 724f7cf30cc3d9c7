import Mathlib.Data.Fintype.EquivFin
import Saa.Commands
import Saa.Commute
import Saa.Deadlock

/-! # Every waiter can be served

Nobody waits for something that cannot happen any more: from any state, ending the calls
that are under way and giving back what is in use brings every waiter its turn, in the
order of the line. -/
namespace Saa

open Word Lib.Linked Lib.Trace Lib.Greedy Lib.Refine Lib.Sweep

/-- One thread makes release calls, one after the other, and each of them returns `true`. -/
inductive Releases (kind : Kind) (t : Tid) : Cfg → List Event → Cfg → List Event → Prop where
  | done {s h} : Releases kind t s h s h
  | call {op s h s₁ h₁ s' h'} : op.unit ≠ none → Succeeds kind t op s h s₁ h₁ →
      Releases kind t s₁ h₁ s' h' → Releases kind t s h s' h'

/-- Thread `t` helps those who wait. It makes releases; at a gate it makes one `permit`; and on
a poisoned lock it clears the poison, lets the drops go on that were stuck there, and makes
releases. -/
inductive Helps (t : Tid) : Kind → Cfg → List Event → Cfg → List Event → Prop where
  | releases {kind s h s' h'} : Releases kind t s h s' h' → Helps t kind s h s' h'
  | permit {n s h s' h'} : Commanded t .permit s h n s' h' →
      Helps t .gate s h s' (.woke t n :: h')
  | clearPoison {s h s₁ s₂ s₃ g s' h'} :
      step .lock s (.call t .clearPoison) = some (.call t .clearPoison, s₁) →
      step .lock s₁ (.run t) = some (.clearPoison t, s₂) →
      Onward (system .lock) (Only Action.run) s₂
        (.clearPoison t :: .call t .clearPoison :: h) s₃ g →
      Releases .lock t s₃ (g ++ .clearPoison t :: .call t .clearPoison :: h) s' h' →
      Helps t .lock s h s' h'

section
variable {kind : Kind} {s s₁ s' : Cfg} {h h₁ h' : List Event} {t u : Tid} {a : Ptr} {op : Op}

theorem Granted.refl : Granted s h [] s h := by
  constructor <;> simp

theorem in_use (hk : kind.Grants) (hr : Reach kind free s h) (hn : ¬Locked s.word)
    (hq : (view h).queue ≠ []) : data s.word ≠ 0 := by
  intro hz
  obtain ⟨a, ha⟩ : ∃ a, (view h).queue.getLast? = some a := ⟨_, List.getLast?_eq_some_getLast hq⟩
  exact (reach_awake hk hr).2.head hn a ha (.inl hz)

theorem can_release (hk : kind.Grants) (ht : s.pc t = .idle) (hz : data s.word ≠ 0) :
    ∃ op opc s₁, op.unit = some opc ∧ opc.CanRelease s.word ∧ 0 < opc.acquiredCount ∧
      step kind s (.call t op) = some (.call t op, s₁) := by
  rcases hk with rfl | ⟨n, rfl⟩
  · by_cases hd : data s.word = DATA_MASK
    · exact ⟨.releaseLock, .exclusive, _, rfl, hd, by decide, by simp [step, callStep, ht]; rfl⟩
    · exact ⟨.releaseShare, .shared, _, rfl, ⟨Nat.one_le_iff_ne_zero.mpr hz, hd⟩, by decide,
        by simp [step, callStep, ht]; rfl⟩
  · exact ⟨.release, .semaphore 1, _, rfl, Nat.one_le_iff_ne_zero.mpr hz, by decide,
      by simp [step, callStep, ht]; rfl⟩

theorem Served.closer {held : ℕ} (hx : Served kind s h held (view h).queue.reverse s₁ h₁)
    (hlt : held < data s.word) :
    64 * (view h₁).queue.length + data s₁.word < 64 * (view h).queue.length + data s.word := by
  have hlen : (view h₁).queue.length = (view h).queue.length -
      ((kind.policy s.opcode).serve held (view h).queue.reverse).length := by
    have hleft := congrArg List.length hx.left
    rwa [List.length_reverse, Policy.rest, List.length_drop, List.length_reverse] at hleft
  have hd := data_lt s₁.word
  have hunits := hx.units
  cases hg : (kind.policy s.opcode).serve held (view h).queue.reverse with
  | nil =>
    rw [hg, load_nil, Nat.add_zero] at hunits
    rw [hg, List.length_nil] at hlen
    omega
  | cons b g =>
    have hsub : ((kind.policy s.opcode).serve held (view h).queue.reverse).Sublist _ :=
      serve_sublist
    have hle := hsub.length_le
    rw [hg, List.length_cons] at hlen hle
    rw [List.length_reverse] at hle
    omega

theorem all_resolved {v : View} (hi : Inv kind s v) (hnil : v.queue = [])
    (hq : Quiescent s) (a : Ptr) :
    v.stat a = .idle ∨ v.stat a = .final := by
  have howes : ∀ u, (s.pc u).takePtr = 0 ∧ (s.pc u).answering = none := by
    intro u
    rcases hq u with hp | ⟨q, retry, hp⟩ <;> rw [hp] <;> exact ⟨rfl, rfl⟩
  cases hst : v.stat a with
  | idle => exact .inl rfl
  | final => exact .inr rfl
  | queued =>
    have hm := (hi.glob.queued a).mpr hst
    rw [hnil] at hm
    cases hm
  | taken u =>
    have hm := (hi.glob.taken u a).mpr hst
    rw [(hi.loc u).taken_nil (howes u).1] at hm
    cases hm
  | answered u =>
    have hans := ((hi.loc u).answering a).mpr hst
    rw [(howes u).2] at hans
    cases hans
  | unlinked =>
    -- it was unlinked by its own drop, which then is not over
    exfalso
    cases hsl : s.slot a with
    | none => exact hi.glob.alive a (by rw [hst]; simp) hsl
    | pager => exact (hi.glob.pagers a hsl).2.1 hst
    | used u =>
      have hent := ((hi.loc u).slot a).mpr hsl
      have hadm := (hi.loc u).stat a hent
      rw [hst] at hadm
      rcases hq u with hp | ⟨q, retry, hp⟩ <;> rw [hp] at hent hadm
      · cases hent
      · exact hadm.2 rfl

/-- Releases empty the queue. -/
theorem drain_line (hk : kind.Grants) (hr : Reach kind free s h) (hq : Quiescent s)
    (ht : s.pc t = .idle) (hw : kind = .lock → s.word ≠ POISONED_STATE) :
    ∃ s' h', Releases kind t s h s' h' ∧ Reach kind free s' h' ∧ Quiescent s' ∧
      (view h').queue = [] ∧ Granted s h (view h).queue.reverse s' h' := by
  -- induction on the line and, for a line that stays, on the units in use
  generalize hn : 64 * (view h).queue.length + data s.word = n
  induction n using Nat.strong_induction_on generalizing s h with
  | _ n ih =>
    by_cases hnil : (view h).queue = []
    · refine ⟨s, h, .done, hr, hq, hnil, ?_⟩
      rw [hnil]
      exact .refl
    have hlk := hq.unlocked (reach_inv hk.not_barrier hr) hw
    obtain ⟨op, opc, s₀, hop, hcan, hpos, hs⟩ := can_release hk ht (in_use hk hr hlk hnil)
    obtain ⟨s₁, h₁, hend, hr₁, hq₁, -, -, hserved⟩ := release_call hk hr hq hop hs hcan hlk
    have hle := acquired_le_data hcan
    have hw₁ : kind = .lock → s₁.word ≠ POISONED_STATE := by
      intro _ hx
      apply hserved.unlocked
      rw [hx]
      decide
    obtain ⟨s', h', hx, hr', hq', hnil', hgr⟩ :=
      ih _ (hn ▸ hserved.closer (by omega)) hr₁ hq₁ hend.idle hw₁ rfl
    refine ⟨s', h', .call (by rw [hop]; simp) hend hx, hr', hq', hnil', ?_⟩
    rw [← serve_rest (P := kind.policy s.opcode) (m := data s.word - opc.acquiredCount)
      (l := (view h).queue.reverse), ← hserved.left]
    exact hserved.toGranted.trans hgr

/-- Releases alone empty the queue of a lock or a semaphore that is in no operation. Everybody
who waits is granted what they ask for, in the order in which they came, and nobody else hears
anything. Nobody is left suspended who cannot go on. -/
theorem drains (hk : kind.Grants) (hr : Reach kind free s h) (hq : Quiescent s)
    (ht : s.pc t = .idle) (hw : kind = .lock → s.word ≠ POISONED_STATE) :
    ∃ s' h', Releases kind t s h s' h' ∧ (view h').queue = [] ∧
      Granted s h (view h).queue.reverse s' h' ∧
      ∀ u q retry, s'.pc u = .await q retry → (s'.state q.entry).finalized = true := by
  obtain ⟨s', h', hx, hr', hq', hnil, hgr⟩ := drain_line hk hr hq ht hw
  refine ⟨s', h', hx, hnil, hgr, fun u q retry hp => ?_⟩
  have hi' := reach_inv hk.not_barrier hr'
  have hl := hi'.loc u
  rw [hp] at hl
  have hent : (Pc.await q retry).entry = some q.entry := by
    refine if_neg fun hv => ?_
    rcases hl.fits.1 with hx | hx <;> rw [hv] at hx <;> cases hx
  rcases all_resolved hi' hnil hq' q.entry with hst | hst
  · exact absurd hst (hl.stat q.entry hent).1
  · exact (hi'.glob.final q.entry hst).2

theorem onward_idle (hx : Onward (system kind) (Only Action.run) s h s' g) (ht : s.pc t = .idle) :
    s'.pc t = .idle := by
  induction hx with
  | done => exact ht
  | @step s₁ _ _ e s₂ _ hok hs ih =>
    obtain ⟨u, rfl⟩ := hok
    replace hs : step kind s₁ (.run u) = some (e, s₂) := hs
    by_cases hu : t = u
    · subst hu
      simp [step, runStep, ih] at hs
    · exact (step_pc hs hu).trans ih

theorem onward_reach (hx : Onward (system kind) (Only Action.run) s h s' g)
    (hr : Reach kind free s h) : Reach kind free s' (g ++ h) :=
  (onward_mono (fun _ _ _ _ => trivial) hx).run hr

theorem permit_helps (hr : Reach .gate free s h) (hq : Quiescent s) (ht : s.pc t = .idle) :
    ∃ s' h', Helps t .gate s h s' h' ∧ Reach .gate free s' h' ∧ Quiescent s' ∧
      (view h').queue = [] := by
  have hs : step .gate s (.call t .permit) =
      some (.call t .permit, s.goto t (.wakeAll none none .woken)) := by
    simp [step, callStep, ht]
  have hr₁ : Reach .gate free _ _ := .step (a := Action.call t .permit) hr trivial hs
  obtain ⟨s', h', hx, hidle, hnil, -⟩ := command_alone hr₁ (goto_pc_self ..)
  refine ⟨s', _, .permit ⟨⟨_, hs, hx⟩, hidle⟩, hr₁.alone hx, fun u => ?_, hnil⟩
  by_cases hu : u = t
  · exact .inl (hu ▸ hidle)
  · rw [alone_pc hu hx, goto_pc_of_ne _ _ _ hu]
    exact hq u

theorem clear_helps (hr : Reach .lock free s h) (hw : s.word = POISONED_STATE)
    (hc : ∀ u, (s.pc u).Rests ∨ ∃ a state, s.pc u = .dropLoop a state) (ht : s.pc t = .idle) :
    ∃ s' h', Helps t .lock s h s' h' ∧ Reach .lock free s' h' ∧ Quiescent s' ∧
      (view h').queue = [] := by
  have hs₁ : step .lock s (.call t .clearPoison) =
      some (.call t .clearPoison, s.goto t .clearPoison) := by
    simp [step, callStep, ht]
  have hs₂ : step .lock (s.goto t .clearPoison) (.run t) =
      some (.clearPoison t, { s.goto t .clearPoison with word := 0 }.goto t .idle) := by
    simp [step, runStep, clearPoisonStep, hw]
  have hr₁ : Reach .lock free _ _ := .step (a := Action.call t .clearPoison) hr trivial hs₁
  have hr₂ : Reach .lock free _ _ := .step (a := Action.run t) hr₁ trivial hs₂
  obtain ⟨s₃, g, hx, hq, hw₃⟩ := becomes_quiescent (by simp) hr₂
      (show 0 ≠ POISONED_STATE by decide) fun u => by
    by_cases hu : u = t
    · exact .inl (.inl (hu ▸ goto_pc_self ..))
    · rw [goto_pc_of_ne _ _ _ hu, goto_pc_of_ne _ _ _ hu]
      exact hc u
  obtain ⟨s', h', hrel, hr', hq', hnil, -⟩ := drain_line (.inl rfl) (onward_reach hx hr₂) hq
    (onward_idle hx (goto_pc_self ..)) fun _ => hw₃
  exact ⟨s', h', .clearPoison hs₁ hs₂ hx hrel, hr', hq', hnil⟩

/-- No entry is beyond help. From every reachable state of a lock, a semaphore or a gate, once
the calls that are under way have gone on, any thread that is in no call can help by itself:
with releases, each of which returns `true`, after one `clear_poison` where the lock is
poisoned; or with one `permit` at a gate. Then no thread is in the middle of a call any more,
and every registered entry has its result. -/
theorem nobody_stranded (hb : ∀ n, kind ≠ .barrier n) (hr : Reach kind free s h) :
    (∃ t, s.pc t = .idle) ∧ ∀ t, s.pc t = .idle → ∃ s₁ g s' h',
      Onward (system kind) (Only Action.run) s h s₁ g ∧ Helps t kind s₁ (g ++ h) s' h' ∧
      Quiescent s' ∧ ∀ a, (view h').stat a = .idle ∨ (view h').stat a = .final := by
  constructor
  · obtain ⟨l, hl⟩ := reach_support hr
    obtain ⟨t, ht⟩ := Infinite.exists_notMem_finset l.toFinset
    exact ⟨t, hl t (by simpa using ht)⟩
  intro t ht
  obtain ⟨s₁, g, hx, hc, hq⟩ := comes_to_rest hb hr
  have hr₁ := onward_reach hx hr
  have ht₁ := onward_idle hx ht
  obtain ⟨s', h', hhelp, hr', hq', hnil⟩ : ∃ s' h', Helps t kind s₁ (g ++ h) s' h' ∧
      Reach kind free s' h' ∧ Quiescent s' ∧ (view h').queue = [] := by
    by_cases hw : s₁.word = POISONED_STATE
    · obtain rfl := (reach_inv hb hr₁).poisoned_lock hw
      exact clear_helps hr₁ hw hc ht₁
    rcases grants_or_gate hb with hk | rfl
    · obtain ⟨s', h', hrel, hr', hq', hnil, -⟩ := drain_line hk hr₁ (hq hw) ht₁ fun _ => hw
      exact ⟨s', h', .releases hrel, hr', hq', hnil⟩
    · exact permit_helps hr₁ (hq hw) ht₁
  exact ⟨s₁, g, s', h', hx, hhelp, hq', all_resolved (reach_inv hb hr') hnil hq'⟩

end

/-- The pager that waits longer gets its permit first. -/
theorem drains_pagers :
    ∃ s h s' h', exec (system (.semaphore 1)) (Kind.initial (.semaphore 1)) [] twoPagers =
        some (s, h) ∧ Releases (.semaphore 1) 0 s h s' h' ∧ (view h').queue = [] ∧
      Granted s h [256, 384] s' h' := by
  obtain ⟨s, h, hrun, hqueue, hidle⟩ : ∃ s h,
      exec (system (.semaphore 1)) (Kind.initial (.semaphore 1)) [] twoPagers = some (s, h) ∧
      (view h).queue = [384, 256] ∧ ∀ t < 3, s.pc t = .idle := ⟨_, _, rfl, rfl, by decide⟩
  have hq := exec_quiescent (.inr ⟨1, rfl⟩) hrun (by decide) hidle
  obtain ⟨s', h', hx, hnil, hgr, -⟩ := drains (t := 0) (.inr ⟨1, rfl⟩)
    (Run.exec .init (admits_free ..) hrun) hq (hidle 0 (by decide)) (by simp)
  rw [hqueue] at hgr
  exact ⟨s, h, s', h', hrun, hx, hnil, hgr⟩

theorem nobody_stranded_metInDrop :
    ∃ s h, exec (system (.semaphore 1)) (Kind.initial (.semaphore 1)) [] metInDrop = some (s, h) ∧
      (view h).queue = [256] ∧ ¬Quiescent s ∧ ∃ s₁ g s' h',
        Onward (system (.semaphore 1)) (Only Action.run) s h s₁ g ∧
        Helps 2 (.semaphore 1) s₁ (g ++ h) s' h' ∧ Quiescent s' ∧
        ∀ a, (view h').stat a = .idle ∨ (view h').stat a = .final := by
  obtain ⟨s, h, hrun, hqueue, hidle, hdrop⟩ : ∃ s h,
      exec (system (.semaphore 1)) (Kind.initial (.semaphore 1)) [] metInDrop = some (s, h) ∧
      (view h).queue = [256] ∧ s.pc 2 = .idle ∧ s.pc 1 = .dropLoop 256 s.word :=
    ⟨_, _, rfl, rfl, rfl, rfl⟩
  refine ⟨s, h, hrun, hqueue, fun hall => ?_,
    (nobody_stranded (by simp) (Run.exec .init (admits_free ..) hrun)).2 2 hidle⟩
  rcases hall 1 with hp | ⟨q, retry, hp⟩ <;> rw [hdrop] at hp <;> cases hp

end Saa
