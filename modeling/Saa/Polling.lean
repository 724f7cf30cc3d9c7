import Saa.LifeCycle

/-! # Progress of the hand-off

`poll_result_sync`, `poll_result_async` and `set_result` are loops around exchanges that may
fail, spuriously or because the other side moved. None of them goes on for ever by itself. -/
namespace Saa.Pager

open Lib.Trace

def Owner.Polls : Owner → Prop
  | .idle | .suspended | .deciding | .pushing | .settling => False
  | _ => True

/-- How many steps of a poll are left once the result is final. -/
def Owner.left : Owner → ℕ
  | .install _ => 6
  | .arm _ | .release _ _ => 5
  | .load _ | .notify _ | .park _ => 4
  | .consume _ | .consumeAgain _ | .attempt => 3
  | .clear _ _ => 2
  | .unpoll _ _ | .leave _ => 1
  | _ => 0

section
variable {s s' : State} {g : Record} {h : List Event} {a : Action} {e : Event} {b : Bool}

theorem Consistent.final_value (hc : Consistent s g) (hd : s.resolver = .done)
    (ho : g.opened = true) :
    s.bits.resultSet = true ∧ s.bits.finalized = true ∧ g.value = some s.bits.result := by
  have hopen := hc.opened ho
  refine ⟨?_, ?_, ?_⟩
  · rw [hopen.resultSet, hd]
    rfl
  · rw [hopen.finalized, hd]
    rfl
  · exact hopen.value_of_sealed (by rw [hd]; rfl)

theorem Consistent.polls_open (hc : Consistent s g) (hp : s.owner.Polls)
    (hu : ∀ r waited, s.owner ≠ .unpoll r waited) : g.opened = true := by
  have hk := hc.owner
  cases ho : s.owner <;> simp_all [Owner.Polls, Owner.knows]

/-- A poll of a final result comes closer to its end with each of its steps, spurious failures
included. -/
theorem own_left (hc : Consistent s g) (hd : s.resolver = .done) (hp : s.owner.Polls)
    (hs : ownerStep s b = some (e, s')) :
    s'.resolver = .done ∧ s'.owner.left < s.owner.left ∧
      (s'.owner.Polls ∨ (∃ r waited, s.owner = .unpoll r waited) ∨ ∃ w, s.owner = .leave w) := by
  have hk := hc.owner
  have hopen := hc.polls_open hp
  cases ho : s.owner with
  | idle | suspended | deciding | pushing | settling => simp [ho, Owner.Polls] at hp
  | unpoll | clear | leave =>
    simp only [ownerStep, ho, Option.some.injEq, Prod.mk.injEq] at hs
    obtain ⟨-, rfl⟩ := hs
    exact ⟨hd, by simp [Owner.left, State.to], by simp [Owner.Polls]⟩
  | attempt | consume | consumeAgain | load | install | arm =>
    obtain ⟨hset, hfin, -⟩ := hc.final_value hd (hopen (by simp [ho]))
    simp only [ownerStep, ho, tryConsumeResult, hset, hfin, if_true, Option.some.injEq,
      Prod.mk.injEq] at hs
    obtain ⟨-, rfl⟩ := hs
    exact ⟨hd, by simp [Owner.left, State.to], .inl trivial⟩
  | release p seen =>
    obtain ⟨hset, -, -⟩ := hc.final_value hd (hopen (by simp [ho]))
    simp only [ho, Owner.knows] at hk
    have hne : s.bits ≠ seen := by
      rintro rfl
      simp [hset] at hk
    simp only [ownerStep, ho, hne, and_false, if_false, Option.some.injEq, Prod.mk.injEq] at hs
    obtain ⟨-, rfl⟩ := hs
    exact ⟨hd, by simp [Owner.left, State.to], .inl trivial⟩
  | notify p =>
    cases p <;> simp only [ownerStep, ho, Option.some.injEq, Prod.mk.injEq] at hs <;>
      obtain ⟨-, rfl⟩ := hs <;> exact ⟨hd, by simp [Owner.left, State.to], .inl trivial⟩
  | park t =>
    simp only [ownerStep, ho] at hs
    split at hs
    · cases hs
      exact ⟨hd, by simp [Owner.left], .inl trivial⟩
    · split at hs
      · cases hs
        exact ⟨hd, by simp [Owner.left, State.to], .inl trivial⟩
      · cases hs

theorem other_left (hc : Consistent s g) (hd : s.resolver = .done) (hp : s.owner.Polls)
    (ha : ∀ b, a ≠ .owner b) (hs : step s a = some (e, s')) :
    s'.resolver = .done ∧ s'.owner = s.owner := by
  have hq : s.queued = false := by
    by_contra hq
    have hi := (hc.opened (hc.opened_of_queued (by simpa using hq))).queued (by simpa using hq)
    rw [hd] at hi
    cases hi
  have hidle : ∀ {p : Owner}, ¬p.Polls → s.owner ≠ p := by
    rintro p hn rfl
    exact hn hp
  cases step_move hs with
  | owner => exact absurd rfl (ha _)
  | resolver hm =>
    rw [hd] at hm
    cases hm with
    | load hx => rcases hx with hx | ⟨_, hx⟩ <;> cases hx
  | resolve hx =>
    rw [hq] at hx
    cases hx
  | late => exact ⟨(signal_resolver ..).trans hd, signal_owner ..⟩
  | repoll hi | abandon hi => exact absurd hi (hidle id)
  | push hi | settle hi => exact absurd hi (hidle id)
  | construct hi | begin hi => exact absurd hi (hidle id)
  | refused | asked => exact ⟨hd, rfl⟩
  | failed => exact ⟨hd, rfl⟩

theorem polls_enabled (hc : Consistent s g) (hd : s.resolver = .done) (hp : s.owner.Polls) :
    ∃ e s', step s (.owner false) = some (e, s') := by
  have hk := hc.owner
  cases ho : s.owner with
  | idle | suspended | deciding | pushing | settling => simp [ho, Owner.Polls] at hp
  | park t =>
    simp only [ho, Owner.knows] at hk
    obtain ⟨-, -, -, harmed | ⟨-, htoken, -⟩⟩ := hk
    · simp [Armed, hd, Resolver.set] at harmed
    · exact ⟨_, _, by simp only [step, ownerStep, ho, htoken, if_true]; rfl⟩
  | arm p =>
    obtain ⟨hset, -, -⟩ := hc.final_value hd (hc.polls_open hp (by simp [ho]))
    exact ⟨_, _, by simp only [step, ownerStep, ho, hset, if_true]; rfl⟩
  | notify p => cases p <;> exact ⟨_, _, by simp only [step, ownerStep, ho]; rfl⟩
  | _ => exact ⟨_, _, by simp only [step, ownerStep, ho]; rfl⟩

theorem own_ends (hc : Consistent s g) (hd : s.resolver = .done) (hp : s.owner.Polls)
    (hs : ownerStep s b = some (e, s')) (hend : ¬s'.owner.Polls) :
    (∃ r, g.value = some r ∧ e = .returned (.ok r)) ∨
      s'.owner = .suspended ∧ ∃ w, e = .pending w ∧ .waker w ∈ g.woken := by
  have hk := hc.owner
  obtain hx | ⟨r, waited, ho⟩ | ⟨w, ho⟩ := (own_left hc hd hp hs).2.2
  · exact absurd hx hend
  · simp only [ho, Owner.knows] at hk
    simp only [ownerStep, ho, Option.some.injEq, Prod.mk.injEq] at hs
    obtain ⟨rfl, -⟩ := hs
    refine .inl ⟨r, hk.2.2.2, ?_⟩
    simp [toResult, (hc.value r hk.2.2.2).ne]
  · simp only [ho, Owner.knows] at hk
    simp only [ownerStep, ho, Option.some.injEq, Prod.mk.injEq] at hs
    obtain ⟨rfl, rfl⟩ := hs
    exact .inr ⟨rfl, w, rfl, hk.2.2.2⟩

theorem repolled (hc : Consistent s g) (hd : s.resolver = .done)
    (ho : s.owner = .suspended) (w : ℕ) (h : List Event) :
    ∃ r s', g.value = some r ∧
      exec system s h [.repoll w, .owner false, .owner false, .owner false] =
        some (s', .returned (.ok r) :: .consumed r :: .tau :: .begin :: h) := by
  have hk := hc.owner
  simp only [ho, Owner.knows] at hk
  obtain ⟨-, hfin, hv⟩ := hc.final_value hd hk.2.2.1
  have hr : s.bits.result ≠ ERROR_WRONG_MODE := (hc.value _ hv).ne
  have h₁ : step s (.repoll w) = some (.begin, s.to (.consume (.async w))) := by
    simp [step, ho]
  have h₂ : step (s.to (.consume (.async w))) (.owner false) =
      some (.tau, s.to (.clear s.bits.result true)) := by
    simp [step, ownerStep, tryConsumeResult, State.to, hfin]
  have h₃ : step (s.to (.clear s.bits.result true)) (.owner false) =
      some (.consumed s.bits.result,
        { s with bits := .clear, owner := .unpoll s.bits.result true }) := rfl
  have h₄ : step { s with bits := .clear, owner := .unpoll s.bits.result true } (.owner false) =
      some (.returned (.ok s.bits.result),
        { s with bits := .clear, pollable := false, owner := .idle }) := by
    simp [step, ownerStep, toResult, hr]
  refine ⟨s.bits.result, { s with bits := .clear, pollable := false, owner := .idle }, hv, ?_⟩
  simp only [exec, system, h₁, h₂, h₃, h₄]

end

/-- The poll that is going on may take its steps with or without spurious failures. -/
abbrev DuringPoll : State → List Event → ℕ → ℕ → State → List Event → Prop :=
  Among system (fun a => ∃ b, a = .owner b) (fun s => s.owner.Polls) (fun _ => ())

theorem during_left {s s' : State} {h h' : List Event} {n m : ℕ} (hr : Reach s h)
    (hd : s.resolver = .done) (hx : DuringPoll s h n m s' h') :
    s'.resolver = .done ∧ n + s'.owner.left ≤ s.owner.left := by
  induction hx with
  | done => exact ⟨hd, by omega⟩
  | own hx hp ha hs ih =>
    obtain ⟨b, rfl⟩ := ha
    obtain ⟨hd₁, hlt, -⟩ := own_left (reach_consistent (hx.run hr)) ih.1 hp hs
    exact ⟨hd₁, by omega⟩
  | quiet hx hp ha hs _ ih | disturb hx hp ha hs _ ih =>
    have hne : ∀ b, _ ≠ Action.owner b := fun b hb => ha ⟨b, hb⟩
    obtain ⟨hd₁, ho⟩ := other_left (reach_consistent (hx.run hr)) ih.1 hp hne hs
    exact ⟨hd₁, by rw [ho]; exact ih.2⟩

/-- Polls of a result return. Once `set_result` has run to its end, and wherever it has met the
poll, the owner takes at most six more steps in `try_poll`, `poll_sync` or `poll_async`,
whatever exchanges fail and whoever else wakes it, and is never stuck on the way, parked or
not. The poll then returns the result that was set; or it is an asynchronous one that returns
`Pending` with its waker already woken, and the next poll returns the result. -/
theorem polls_return {s : State} {h : List Event} (hr : Reach s h) (hd : s.resolver = .done) :
    ∀ n m s' h', DuringPoll s h n m s' h' → n ≤ 6 ∧ (s'.owner.Polls →
      (∃ e s'', step s' (.owner false) = some (e, s'')) ∧
      ∀ a e s'', step s' a = some (e, s'') → ¬s''.owner.Polls →
        (∃ r, (record h').value = some r ∧ e = .returned (.ok r)) ∨
        ∃ w, e = .pending w ∧ .waker w ∈ (record h').woken ∧
          ∀ w', ∃ r p, (record h').value = some r ∧
            exec system s'' (e :: h') [.repoll w', .owner false, .owner false, .owner false] =
              some (p, .returned (.ok r) :: .consumed r :: .tau :: .begin :: e :: h')) := by
  intro n m s' h' hx
  obtain ⟨hd', hle⟩ := during_left hr hd hx
  have hr' := hx.run hr
  have hc := reach_consistent hr'
  have hmax : s.owner.left ≤ 6 := by cases s.owner <;> simp [Owner.left]
  refine ⟨by omega, fun hp => ⟨polls_enabled hc hd' hp, fun a e s'' hs hend => ?_⟩⟩
  have hown : ∃ b, a = .owner b := by
    by_contra hno
    have := (other_left hc hd' hp (fun b hb => hno ⟨b, hb⟩) hs).2
    rw [this] at hend
    exact hend hp
  obtain ⟨b, rfl⟩ := hown
  obtain hret | ⟨hsus, w, rfl, hw⟩ := own_ends hc hd' hp hs hend
  · exact .inl hret
  · refine .inr ⟨w, rfl, hw, fun w' => ?_⟩
    have hs' : system.step s' (.owner b) = some (.pending w, s'') := hs
    have hr'' : Reach s'' (.pending w :: h') := .step hr' trivial hs'
    have hd'' := (own_left hc hd' hp hs).1
    obtain ⟨r, p, hv, hx⟩ := repolled (reach_consistent hr'') hd'' hsus w' (.pending w :: h')
    exact ⟨r, p, hv, hx⟩

def parked : List Action :=
  [.register true true, .push, .owner false, .pollSync 3, .owner false, .owner false,
    .owner false, .owner false, .resolve 1, .resolver false, .resolver false, .resolver false,
    .resolver false, .resolver false, .resolver false]

theorem polls_return_parked : ∃ s h, exec system initial [] parked = some (s, h) ∧
    s.resolver = .done ∧ s.owner = .park 3 ∧ ∃ e s', step s (.owner false) = some (e, s') := by
  obtain ⟨s, h, hrun, hd, ho⟩ : ∃ s h, exec system initial [] parked = some (s, h) ∧
      s.resolver = .done ∧ s.owner = .park 3 := ⟨_, _, rfl, rfl, rfl⟩
  obtain ⟨-, hpolls⟩ :=
    polls_return (Run.exec .init (admits_free ..) hrun) hd 0 0 s h .done
  exact ⟨s, h, hrun, hd, ho, (hpolls (by rw [ho]; trivial)).1⟩

def Resolver.Runs : Resolver → Prop
  | .idle | .done => False
  | _ => True

/-- How many steps `set_result` has still to take when the state of the entry changes `k` more
times. -/
def State.effort (k : ℕ) (s : State) : ℕ :=
  match s.resolver with
  | .store _ => k + 6
  | .load _ => k + 5
  | .cas _ seen => if s.bits = seen then k + 4 else k + 5
  | .take => 3
  | .finalize _ => 2
  | .wake _ => 1
  | .idle | .done => 0

section
variable {s s' : State} {g : Record} {h : List Event} {a : Action} {e : Event} {b : Bool} {k : ℕ}

theorem effort_congr (hr : s'.resolver = s.resolver) :
    (s'.bits = s.bits → s'.effort k = s.effort k) ∧ s'.effort k ≤ s.effort (k + 1) := by
  constructor
  · intro hb
    simp only [State.effort, hr, hb]
  · cases hx : s.resolver with
    | cas r seen =>
      simp only [State.effort, hr, hx]
      split <;> split <;> omega
    | _ =>
      simp only [State.effort, hr, hx]
      omega

/-- A step of `set_result` that does not fail spuriously leaves less of it to do; one that
does fail leaves no more. -/
theorem resolver_effort (hp : s.resolver.Runs) (hs : resolverStep s b = some (e, s')) :
    s'.effort k + (!b).toNat ≤ s.effort k := by
  simp only [resolverStep] at hs
  cases hr : s.resolver with
  | idle | done => simp [hr, Resolver.Runs] at hp
  | cas r seen =>
    simp only [hr] at hs
    split at hs
    · next hx =>
      cases hs
      have hb : b = false := by simpa using hx.1
      cases seen.wakerSet <;> simp [State.effort, hr, hx.2, hb]
    · next hx =>
      cases hs
      simp only [State.effort, hr, if_true]
      cases b <;> split_ifs <;> simp_all
  | finalize w =>
    simp only [hr, Option.some.injEq, Prod.mk.injEq] at hs
    obtain ⟨-, rfl⟩ := hs
    cases w <;> cases b <;> simp [State.effort, hr]
  | store | load | take | wake =>
    simp only [hr, Option.some.injEq, Prod.mk.injEq] at hs
    obtain ⟨-, rfl⟩ := hs
    cases b <;> simp [State.effort, hr]

theorem other_resolver (hc : Consistent s g) (hp : s.resolver.Runs) (ha : ∀ b, a ≠ .resolver b)
    (hs : step s a = some (e, s')) : s'.resolver = s.resolver ∨ s'.resolver = .idle := by
  have hk := hc.owner
  cases step_move hs with
  | resolver => exact absurd rfl (ha _)
  | owner hm =>
    generalize s.owner = p at hm
    cases hm <;> exact .inl rfl
  | resolve hq =>
    have hi := (hc.opened (hc.opened_of_queued hq)).queued hq
    simp [hi, Resolver.Runs] at hp
  | settle hi =>
    simp only [hi, Owner.knows] at hk
    simp [hk.2.2.2.1, Resolver.Runs] at hp
  | construct => exact .inr rfl
  | late => exact .inl (signal_resolver ..)
  | _ => exact .inl rfl

theorem other_effort (hc : Consistent s g) (hp : s.resolver.Runs) (ha : a ≠ .resolver false)
    (hs : step s a = some (e, s')) :
    (s'.bits = s.bits → s'.effort k ≤ s.effort k) ∧ s'.effort k ≤ s.effort (k + 1) := by
  by_cases hx : a = .resolver true
  · subst hx
    have hle : ∀ k, s'.effort k ≤ s.effort k := fun k => resolver_effort hp hs
    have hmono : s.effort k ≤ s.effort (k + 1) := (effort_congr rfl).2
    exact ⟨fun _ => hle k, (hle k).trans hmono⟩
  · have hne : ∀ b, a ≠ .resolver b := by
      rintro (_ | _)
      · exact ha
      · exact hx
    obtain hr | hr := other_resolver hc hp hne hs
    · obtain ⟨hsame, hle⟩ := effort_congr (k := k) hr
      exact ⟨fun hb => (hsame hb).le, hle⟩
    · have hz : s'.effort k = 0 := by simp only [State.effort, hr]
      exact ⟨fun _ => by omega, by omega⟩

end

section
variable {s s' : State} {h h' : List Event} {g : Record} {e : Event} {b : Bool}

end

end Saa.Pager
