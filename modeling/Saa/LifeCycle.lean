import Saa.Handoff

/-! # The life of a pager

What the owner of one pager sees over any number of registrations, and how the entry of
this model refines the one the primitives work with. -/
namespace Saa.Pager

open Lib.Trace

section Steps

variable {s s' : State} {g : Record} {e : Event} {h : List Event} {a : Action}

theorem step_slot (hs : step s a = some (e, s')) (ha : ∀ b, a ≠ .resolver b) :
    s'.slot = s.slot ∨ (∃ p, s.owner = .install p) ∨ s.owner = .idle ∧ s.pollable = false := by
  cases step_move hs with
  | resolver hm => exact absurd rfl (ha _)
  | owner hm =>
    generalize ho : s.owner = p at hm
    cases hm with
    | write => exact .inr (.inl ⟨_, rfl⟩)
    | _ => exact .inl rfl
  | construct hi hp => exact .inr (.inr ⟨hi, hp⟩)
  | late => exact .inl (signal_slot ..)
  | _ => exact .inl rfl

def Event.Touches : Event → Prop
  | .write _ | .construct _ => True
  | _ => False

theorem step_touches (hs : step s a = some (e, s')) (he : e.Touches) :
    (∃ p, s.owner = .install p) ∨ s.owner = .idle ∧ s.pollable = false := by
  cases step_move hs with
  | owner hm =>
    generalize ho : s.owner = p at hm
    cases hm with
    | write => exact .inl ⟨_, rfl⟩
    | _ => exact he.elim
  | resolver hm =>
    generalize s.resolver = p at hm
    cases hm <;> exact he.elim
  | construct hi hp => exact .inr ⟨hi, hp⟩
  | _ => exact he.elim

theorem Consistent.taking (hc : Consistent s g) (ht : s.resolver = .take) :
    s.bits.wakerSet = true ∧ g.opened = true := by
  obtain ⟨ho, hx⟩ := hc.open_of_unsealed (by simp [ht]) (by simp [ht, Resolver.sealed])
  have hc := hx.carries
  simp only [ht, Resolver.carries] at hc
  exact ⟨hc.2.1, ho⟩

theorem Consistent.untouched (hc : Consistent s g) (ht : s.resolver = .take) :
    (∀ p, s.owner ≠ .install p) ∧ (s.owner = .idle → s.pollable = true) := by
  obtain ⟨hw, ho⟩ := hc.taking ht
  have hk := hc.owner
  constructor
  · intro p hp
    simp [hp, Owner.knows, hw] at hk
  · intro hi
    simp only [hi, Owner.knows] at hk
    rw [hk.1, ← hk.2, ho]

end Steps

/-- No wake-up is lost: once `set_result` has completed, the waker of a latest poll that
returned `Pending`, and the thread of an owner that is parked, were woken since that poll
began. Between the step that sets the result with a handle seen in the slot and the step
that takes the handle, no other step touches the slot. -/
theorem no_lost_wake_up {s : State} {h : List Event} (hr : Reach s h) :
    (s.resolver = .done →
      (∀ w, (record h).pending = some w → .waker w ∈ (record h).woken) ∧
      ∀ t, s.owner = .park t → .thread t ∈ (record h).woken ∧ s.token t = true) ∧
    (s.resolver = .take → ∀ a e s', step s a = some (e, s') → (∀ b, a ≠ .resolver b) →
      s'.slot = s.slot ∧ ¬e.Touches) := by
  have hc := reach_consistent hr
  refine ⟨fun hd => ⟨fun w hw => ?_, fun t ht => ?_⟩, fun ht a e s' hs ha => ?_⟩
  · obtain ⟨-, -, h | h⟩ := hc.pending w hw
    · exact h
    · simp [Armed, hd, Resolver.set] at h
  · have hk := hc.owner
    simp only [ht, Owner.knows] at hk
    obtain ⟨-, -, -, h | h⟩ := hk
    · simp [Armed, hd, Resolver.set] at h
    · exact ⟨h.2.2, h.2.1⟩
  · obtain ⟨hi, hp⟩ := hc.untouched ht
    constructor
    · obtain h | ⟨p, h⟩ | ⟨ho, h⟩ := step_slot hs ha
      · exact h
      · exact absurd h (hi p)
      · simp [hp ho] at h
    · intro he
      obtain ⟨p, h⟩ | ⟨ho, h⟩ := step_touches hs he
      · exact hi p h
      · simp [hp ho] at h

def woken : List Action :=
  [.register true false, .push, .owner false, .pollAsync 7, .owner false, .owner false,
    .owner false, .owner false, .resolve 0, .resolver false, .resolver false, .resolver false,
    .resolver false, .resolver false, .resolver false]

theorem no_lost_wake_up_async : ∃ s h, exec system initial [] woken = some (s, h) ∧
    s.resolver = .done ∧ (record h).pending = some 7 ∧ .waker 7 ∈ (record h).woken := by
  obtain ⟨s, h, hrun, hd, hp⟩ : ∃ s h, exec system initial [] woken = some (s, h) ∧
      s.resolver = .done ∧ (record h).pending = some 7 := ⟨_, _, rfl, rfl, rfl⟩
  obtain ⟨hwoken, -⟩ := no_lost_wake_up (Run.exec .init (admits_free ..) hrun)
  exact ⟨s, h, hrun, hd, hp, (hwoken hd).1 7 hp⟩

/-- What one step may tell the owner of a pager whose past is `g`. -/
structure Lawful (s : State) (g : Record) (a : Action) (e : Event) (s' : State) : Prop where
  asked : ∀ b, e = .asked b → b = g.registered
  refused : ∀ admissible sync, a = .register admissible sync → g.registered = true →
    e = .refused ∧ s' = s
  registered : e = .registered → g.registered = false ∧ s'.pollable = true
  /-- One result is set for a registration. -/
  resolve : ∀ r, e = .resolve r → g.value = none ∧ g.opened = true
  /-- A result is consumed by a poll that returns it, -/
  consumed : ∀ r, e = .consumed r → g.value = some r ∧ ∃ waited, s'.owner = .unpoll r waited
  unpoll : ∀ r waited b, s.owner = .unpoll r waited → a = .owner b → e = .returned (.ok r)
  /-- to the registration it was set for. -/
  returned : ∀ r, e = .returned (.ok r) → g.registered = true ∧ g.value = some r ∧
    s'.pollable = false ∧ s'.bits = .clear
  /-- Every other poll leaves entry and registration alone. -/
  failed : ∀ x, e = .returned (.error x) → (x = .notRegistered ↔ g.registered = false) ∧
    s' = s.to .idle

section Steps

variable {s s' : State} {g : Record} {e : Event} {h : List Event} {a : Action}

theorem Open.value_of_sealed {v : Option ℕ} (ho : Open s v) (hs : s.resolver.sealed = true) :
    v = some s.bits.result := by
  have hc := ho.carries
  cases hr : s.resolver <;> simp_all [Resolver.carries, Resolver.sealed]

theorem Lawful.resolves {r : ℕ} (hv : g.value = none) (ho : g.opened = true)
    (hreg : ∀ x y, a ≠ .register x y) (hown : ∀ b, a ≠ .owner b) :
    Lawful s g a (.resolve r) s' where
  asked := by simp
  refused x y ha := absurd ha (hreg x y)
  registered := by simp
  resolve _ _ := ⟨hv, ho⟩
  consumed := by simp
  unpoll _ _ b _ ha := absurd ha (hown b)
  returned := by simp
  failed := by simp

theorem Lawful.returns {r : ℕ} {waited b : Bool} (hv : g.value = some r)
    (hg : g.registered = true) (ho : s.owner = .unpoll r waited) (hp : s'.pollable = false)
    (hb : s'.bits = .clear) : Lawful s g (.owner b) (.returned (.ok r)) s' where
  asked := by simp
  refused := by simp
  registered := by simp
  resolve := by simp
  consumed := by simp
  unpoll r' _ _ hu := by
    rw [ho] at hu
    cases hu
    intro _
    rfl
  returned r' hr := by
    cases hr
    exact ⟨hg, hv, hp, hb⟩
  failed := by simp

end Steps

/-- What the model of the primitives keeps of the state of an entry. -/
def Bits.entry (b : Bits) : EntryState := ⟨b.result, b.resultSet, b.finalized⟩

/-- The steps the model of the primitives has for an entry: nothing, `Cfg.setResult`,
`Cfg.setFinalized` and `Cfg.consume`. -/
inductive EntryStep (v : Option ℕ) : EntryState → EntryState → Prop where
  | same (e : EntryState) : EntryStep v e e
  | set {r : ℕ} : v = some r → EntryStep v .clear (EntryState.clear.set r)
  | setFinalized {e : EntryState} : v = some e.result → e.resultSet = true →
      EntryStep v e { e with finalized := true }
  | consume {e : EntryState} : v = some e.result → e.finalized = true → EntryStep v e .clear

/-- The fine-grained hand-off refines the one of the primitives: the flag of the waker, the
slot and the retries are invisible there. -/
theorem step_entry {s s' : State} {h : List Event} {a : Action} {e : Event} (hr : Reach s h)
    (hs : step s a = some (e, s')) : EntryStep (record h).value s.bits.entry s'.bits.entry := by
  have hc := reach_consistent hr
  have hk := hc.owner
  have hsame : s'.bits.entry = s.bits.entry →
      EntryStep (record h).value s.bits.entry s'.bits.entry := by
    intro hb
    rw [hb]
    exact .same _
  cases step_move hs with
  | resolver hm =>
    generalize hv : s.resolver = p at hm
    cases hm with
    | set =>
      obtain ⟨h₁, h₂, h₃, -, -, h₆⟩ :=
        (hc.open_of_unsealed (by simp [hv]) (by simp [hv, Resolver.sealed])).2
      simp only [hv, Resolver.set, Resolver.sealed, Resolver.carries] at h₁ h₂ h₃ h₆
      have hclear : s.bits.entry = .clear := by simp [Bits.entry, EntryState.clear, h₁, h₂, h₃]
      rw [hclear]
      convert EntryStep.set h₆.1 using 1
      simp [Bits.entry, EntryState.clear, EntryState.set, h₆.2]
    | finalize =>
      obtain ⟨h₁, -, -, -, -, h₆⟩ :=
        (hc.open_of_unsealed (by simp [hv]) (by simp [hv, Resolver.sealed])).2
      simp only [hv, Resolver.set, Resolver.carries] at h₁ h₆
      exact .setFinalized h₆ h₁
    | wake => exact hsame (congrArg Bits.entry (signal_bits ..))
    | store | load | take => exact hsame rfl
  | owner hm =>
    generalize ho : s.owner = p at hm
    cases hm with
    | clear =>
      simp only [ho, Owner.knows] at hk
      have hx := hc.opened hk.2.2.1
      exact .consume (hx.value_of_sealed hk.2.2.2.1) (hx.finalized.trans hk.2.2.2.1)
    | _ => exact hsame rfl
  | late => exact hsame (congrArg Bits.entry (signal_bits ..))
  | _ => exact hsame rfl

end Saa.Pager
