import Saa.Owners

/-! # Permits of a semaphore

Permits are neither lost nor created: the data field is what was withheld at the start,
plus what calls and granted entries acquired, less what callers released. -/
namespace Saa

open Word Lib.Linked Lib.Trace

/-- The permits that `with_permits` withholds. -/
def withheld (permits : ℕ) : ℕ := MAX_PERMITS - min permits MAX_PERMITS

structure Permits where
  ledger : Ledger
  /-- Permits acquired by successful calls. -/
  acquired : ℕ
  /-- Permits released by callers. -/
  released : ℕ

def Permits.initial : Permits := ⟨.initial, 0, 0⟩

def Permits.observe (p : Permits) (e : Event) : Permits where
  ledger := p.ledger.observe e
  acquired := p.acquired + p.ledger.gained e
  released := p.released + e.returned

def permits (h : List Event) : Permits := fold Permits.observe .initial h

@[simp] theorem permits_cons (e : Event) (h : List Event) :
    permits (e :: h) = (permits h).observe e := rfl

@[simp] theorem permits_ledger (h : List Event) : (permits h).ledger = ledger h := by
  induction h with
  | nil => rfl
  | cons e h ih => simp [Permits.observe, ih]

/-- Callers release only permits that were withheld at the start or acquired since. -/
def Accounted (n : ℕ) : Guard Cfg Action Event := fun s h act =>
  match act with
  | .run t => match s.pc t with
    | .releaseFast op | .releaseLoop (.caller _) op _ =>
      (permits h).released + op.acquiredCount ≤ withheld n + (permits h).acquired
    | _ => True
  | .call _ _ | .cancel _ => True

def returning (s : Cfg) : Action → Option Opcode
  | .run t => match s.pc t with
    | .releaseFast op | .releaseLoop (.caller _) op _ => some op
    | _ => none
  | .call _ _ | .cancel _ => none

theorem accounted_iff (n : ℕ) (s : Cfg) (h : List Event) (act : Action) :
    (∀ op ∈ returning s act, (permits h).released + op.acquiredCount ≤
      withheld n + (permits h).acquired) ↔ Accounted n s h act := by
  cases act with
  | run t =>
    simp only [returning, Accounted]
    split <;> simp
  | _ => simp [returning, Accounted]

instance (n : ℕ) (s : Cfg) (h : List Event) (act : Action) : Decidable (Accounted n s h act) :=
  decidable_of_iff _ (accounted_iff n s h act)

/-- The arithmetic of a step stays inside the data field. -/
def WithinData (s s' : Cfg) : Event → Prop
  | .acquire _ _ op => data s.word + op.acquiredCount ≤ MAX_PERMITS ∧
      s'.word = s.word + op.acquiredCount ∧ data s'.word = data s.word + op.acquiredCount ∧
      anchor s'.word = anchor s.word ∧ (Locked s'.word ↔ Locked s.word)
  | .release _ _ op => op.acquiredCount ≤ data s.word ∧
      data s'.word = data s.word - op.acquiredCount ∧ anchor s'.word = anchor s.word ∧
      (Locked s'.word ↔ Locked s.word ∨ anchor s.word ≠ 0)
  | .grant _ n => data s.word + n ≤ MAX_PERMITS ∧ data s'.word = data s.word + n ∧
      anchor s'.word = anchor s.word ∧ (Locked s'.word → Locked s.word)
  | .tailReset _ => data s.word ≤ s'.word ∧ s'.word ≤ MAX_PERMITS
  | _ => data s'.word = data s.word

section
variable {kind : Kind} {s s' : Cfg} {t : Tid} {a : Ptr} {act : Action} {e : Event} {n : ℕ}
  {l : Ledger} {h : List Event}

theorem Accounts.not_misreleases (ha : Accounts (.semaphore n) s l) : ¬Misreleases s act := by
  intro hm
  cases act with
  | run t =>
    have hl := ha.inv.loc t
    simp only [Misreleases] at hm
    cases hp : s.pc t with
    | releaseLoop o op state =>
      rw [hp] at hm hl
      cases o with
      | caller x => exact hm
      | entry a =>
        have hns : ¬Spent s a :=
          ha.inv.not_spent (Or.inr ((hl.slot a).mp rfl)) (by rw [hp]; simp [Pc.after])
        rcases (ha.credit.answer a (Or.inl (hl.stat a rfl)) hns).1 with hr | ⟨hlock, -⟩
        · rw [hm.1] at hr
          revert hr
          decide
        · cases hlock
    | _ => rw [hp] at hm; exact hm
  | call t op => exact hm
  | cancel t => exact hm

structure Budget (n : ℕ) (s : Cfg) (p : Permits) : Prop where
  sum : data s.word + p.released = withheld n + p.acquired + p.ledger.charge
  covered : p.released ≤ withheld n + p.acquired

theorem Budget.solvent {p : Permits} (hb : Budget n s p) (ha : Accounts (.semaphore n) s p.ledger) :
    Solvent s p.ledger := by
  intro a hmem
  obtain ⟨hacq, hfit⟩ := ha.credit.owns ha.inv ha.awake hmem
  have hle := le_total (o := p.ledger.ops) hmem
  have hs := hb.sum
  have hc := hb.covered
  unfold Ledger.charge at hs
  cases hop : p.ledger.ops a with
  | semaphore c =>
    rw [hop] at hle
    change c ≤ data s.word
    simp only [Opcode.acquiredCount] at hle
    omega
  | exclusive => rw [hop] at hfit; cases hfit
  | shared => rw [hop] at hfit; cases hfit
  | barrier b => exact trivial
  | wait c => exact trivial

theorem Took.returned (ht : Took (.semaphore n) s l.view t act e s') (hok : Accounted n s h act)
    (hc : (permits h).released ≤ withheld n + (permits h).acquired) :
    (permits h).released + e.returned ≤ withheld n + (permits h).acquired := by
  have hl := ht.inv.loc t
  have hm := ht.move
  generalize hp : s.pc t = p at hm hl
  generalize s'.pc t = p' at hm
  cases hm with
  | gate hg => cases hg
  | fast => simpa only [Accounted, hp, Event.returned] using hok
  | @release o op =>
    cases o with
    | caller x => simpa only [Accounted, hp, Event.returned] using hok
    | entry b => exact hc
  | @releasePass o op w =>
    cases o with
    | caller x => simpa only [Accounted, hp, Event.returned] using hok
    | entry b => exact hc
  | poisonFast => cases hl.fits
  | poison => cases hl.fits
  | _ => exact hc

theorem reach_budget (hr : Reach (.semaphore n) (Accounted n) s h) :
    Accounts (.semaphore n) s (ledger h) ∧ Budget n s (permits h) := by
  refine hr.invariant (P := fun s h => Accounts (.semaphore n) s (ledger h) ∧
    Budget n s (permits h)) ?_ ?_
  · refine ⟨initial_accounts _, ?_, Nat.zero_le _⟩
    have hlt := initial_word (.semaphore n)
    change data (Kind.initialWord (.semaphore n)) + 0 = Kind.initialWord (.semaphore n) + 0 + 0
    rw [data_eq]
    omega
  · rintro s h act e s' - ⟨ha, hb⟩ hok hs
    have hk : Kind.Grants (.semaphore n) := Or.inr ⟨n, rfl⟩
    have hsol : Solvent s (ledger h) := by
      have := hb.solvent (by rw [permits_ledger]; exact ha)
      rwa [permits_ledger] at this
    obtain ⟨ha', htook⟩ := step_accounts hk ha hsol hs
    have h₁ := balance hk htook ha.credit ha.not_misreleases
    have h₂ := htook.returned hok hb.covered
    have h₃ := hb.sum
    rw [permits_ledger] at h₃
    refine ⟨ha', ?_, ?_⟩ <;> simp only [permits_cons, Permits.observe, permits_ledger] <;> omega

theorem Took.anchor_kept (ht : Took kind s l.view t act e s')
    (hq : (l.view.observe e).queue = l.view.queue) : anchor s'.word = anchor s.word := by
  have hc := ht.inv.glob.chain
  have hc' := ht.inv'.glob.chain
  rw [hq] at hc'
  cases hl : l.view.queue with
  | nil => rw [hc.eq_nil_iff.mp hl, hc'.eq_nil_iff.mp hl]
  | cons b bs =>
    rw [hl] at hc hc'
    rw [hc.head, hc'.head]

theorem Took.within (ht : Took (.semaphore n) s l.view t act e s') : WithinData s s' e := by
  have hm : MAX_PERMITS = 63 := by decide
  have hlt' := data_lt s'.word
  have hnil : anchor s.word = 0 ↔ l.view.queue = [] := ht.inv.glob.chain.eq_nil_iff.symm
  have hunl : anchor s.word = 0 → ¬Locked s.word := fun hz =>
    ht.inv.unlocked_of_anchor hz (by simp)
  have hunl' : anchor s'.word = 0 → ¬Locked s'.word := fun hz =>
    ht.inv'.unlocked_of_anchor hz (by simp)
  have hef := ht.effect
  have hmv := ht.move
  have hl := ht.inv.loc t
  cases e with
  | acquire x o op =>
    obtain ⟨hlt, hfree, hw⟩ := hef
    have hlt' := free_lt hfree hlt
    refine ⟨?_, hw, ?_, ht.anchor_kept rfl, ?_⟩ <;> simp only [hw, data_eq, locked_iff] <;> omega
  | release x o op =>
    obtain ⟨hcan, hdata, hlk⟩ := hef
    have hanc := ht.anchor_kept rfl
    refine ⟨acquired_le_data hcan, hdata, hanc, ?_⟩
    by_cases hz : anchor s.word = 0
    · have h₁ := hunl hz
      have h₂ := hunl' (hanc.trans hz)
      simp [h₁, h₂, hz]
    · simp [hz, hlk fun hq => hz (hnil.mpr hq)]
  | grant x m =>
    obtain ⟨hh, -, -, hdata, -⟩ := hef
    exact ⟨by omega, hdata, ht.anchor_kept rfl, fun _ => ht.inv.word_locked hh⟩
  | tailReset x =>
    obtain ⟨-, hw, hlt, -⟩ := hef
    exact ⟨by omega, by omega⟩
  | push => exact hef.2.2.2.1
  | lockQueue => exact hef.2.2.2.2
  | unlink => exact hef.2.1
  | cut =>
    change data s'.word = data s.word
    rw [hef.2]
  | wakeAll => cases hef.1
  | reset => cases hef.1
  | countDown =>
    generalize s.pc t = p at hmv
    generalize s'.pc t = p' at hmv
    cases hmv with
    | gate hg => cases hg
    | countDown hn => obtain ⟨m, hn⟩ := hn; cases hn
  | last =>
    generalize s.pc t = p at hmv
    generalize s'.pc t = p' at hmv
    cases hmv with
    | gate hg => cases hg
    | last hn => obtain ⟨m, hn⟩ := hn; cases hn
  | writeBack =>
    generalize s.pc t = p at hmv
    generalize s'.pc t = p' at hmv
    cases hmv with
    | gate hg => cases hg
    | writeBack hn => obtain ⟨m, hn⟩ := hn; cases hn
  | poison =>
    generalize s.pc t = p at hmv hl
    generalize s'.pc t = p' at hmv
    cases hmv with
    | gate hg => cases hg
    | poisonFast => cases hl.fits
    | poison => cases hl.fits
  | clearPoison =>
    generalize s.pc t = p at hmv hl
    generalize s'.pc t = p' at hmv
    cases hmv with
    | gate hg => cases hg
    | clear => cases hl.fits
  | _ =>
    change data s'.word = data s.word
    exact congrArg data hef

theorem Took.dropped_free {x : Tid} (ht : Took kind s l.view t act (.dropped x a) s')
    (hk : kind.Grants) (hc : Credit kind s l) : a ∉ l.granted := by
  have hgone : ∀ b, (s.pc t).after = some (.finish b) → b ∉ l.granted := fun b hb =>
    hc.after t _ hb
  have hm := ht.move
  generalize s.pc t = p at hm hgone
  generalize s'.pc t = p' at hm
  cases hm with
  | gate hg => exact absurd hg hk.not_gate
  | finish => exact hgone _ rfl
  | dropIdle hsl hst =>
    intro hg
    obtain ⟨x, q, hx, rfl⟩ := (hc.source a hg).2.2 hst
    have hlx := ht.inv.loc x
    rw [hx] at hlx
    have := (hlx.slot q.entry).mp (if_neg hlx.fits)
    rw [hsl] at this
    cases this

/-- In every run of a semaphore whose callers release only permits accounted to them,
the data field is what was withheld and acquired less what was released, it never exceeds
63, a dropped entry keeps no permit, and no step carries out of the data field. -/
theorem permit_conservation (hr : Reach (.semaphore n) (Accounted n) s h) :
    data s.word + (permits h).released =
      withheld n + (permits h).acquired + total (ledger h).ops (ledger h).granted ∧
    data s.word ≤ MAX_PERMITS ∧
    ∀ act e s', step (.semaphore n) s act = some (e, s') → WithinData s s' e ∧
      ∀ t a, e = .dropped t a → a ∉ (ledger h).granted := by
  obtain ⟨ha, hb⟩ := reach_budget hr
  have hk : Kind.Grants (.semaphore n) := Or.inr ⟨n, rfl⟩
  have hs := hb.sum
  rw [permits_ledger] at hs
  have hsol : Solvent s (ledger h) := by
    have := hb.solvent (by rw [permits_ledger]; exact ha)
    rwa [permits_ledger] at this
  refine ⟨hs, data_le_mask _, fun act e s' hstep => ?_⟩
  obtain ⟨-, htook⟩ := step_accounts hk ha hsol hstep
  refine ⟨htook.within, ?_⟩
  rintro t a rfl
  exact htook.dropped_free hk ha.credit

end

/-- The only permit is handed over and the waiter is dropped before it takes the permit. -/
def abandoned : List Action :=
  [.call 0 (.acquire ⟨.permits 1, .tryOnly, 0⟩), .run 0, .run 0,
    .call 1 (.acquire ⟨.permits 1, .pager, 256⟩), .run 1, .run 1, .run 1, .run 1,
    .call 0 .release, .run 0, .run 0, .run 0, .run 0, .run 0, .run 0, .run 0, .run 0,
    .call 2 (.drop 256), .run 2, .run 2, .run 2, .run 2, .run 2]

theorem permit_conservation_abandoned :
    ∃ s h, execIf (system (.semaphore 1)) (Accounted 1) (Kind.initial (.semaphore 1)) []
        abandoned = some (s, h) ∧ h.head? = some (.dropped 2 256) ∧
      data s.word + (permits h).released =
        withheld 1 + (permits h).acquired + total (ledger h).ops (ledger h).granted := by
  obtain ⟨s, h, hrun, hd⟩ : ∃ s h, execIf (system (.semaphore 1)) (Accounted 1)
      (Kind.initial (.semaphore 1)) [] abandoned = some (s, h) ∧
      h.head? = some (.dropped 2 256) := ⟨_, _, rfl, rfl⟩
  exact ⟨s, h, hrun, hd, (permit_conservation (Run.execIf .init hrun)).1⟩

end Saa
