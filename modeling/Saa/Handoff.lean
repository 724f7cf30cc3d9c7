import Saa.Pager

/-! # The hand-off of a result

What the steps of the owner and of a resolver leave true of the entry of one pager, in
every interleaving: no wake-up is lost, and a result is returned once, to the
registration it was set for. -/
namespace Saa.Pager

open Lib.Trace

/-- What the history tells about the latest registration and the latest poll. -/
structure Record where
  /-- An entry was constructed and its result is not consumed. -/
  opened : Bool
  /-- `register_pager` returned `true` and no poll has returned the result. -/
  registered : Bool
  /-- The result set for the latest registration. -/
  value : Option ℕ
  /-- The handles woken since the latest poll began. -/
  woken : List Handle
  /-- The waker of the latest poll, if that returned `Pending`. -/
  pending : Option ℕ

def Record.next (g : Record) : Event → Record
  | .tau | .refused | .asked _ | .write _ => g
  | .construct _ => { g with opened := true, value := none, pending := none }
  | .registered => { g with registered := true }
  | .begin => { g with woken := [], pending := none }
  | .resolve r => { g with value := some r }
  | .wake w => { g with woken := w :: g.woken }
  | .pending w => { g with pending := some w }
  | .consumed _ => { g with opened := false }
  | .returned (.ok _) => { g with registered := false, pending := none }
  | .returned (.error _) => { g with pending := none }

def record : List Event → Record := fold Record.next ⟨false, false, none, [], none⟩

@[simp] theorem record_cons (e : Event) (h : List Event) :
    record (e :: h) = (record h).next e := rfl

def Resolver.set : Resolver → Bool
  | .idle | .store _ | .load _ | .cas _ _ => false
  | .take | .finalize _ | .wake _ | .done => true

def Resolver.sealed : Resolver → Bool
  | .wake _ | .done => true
  | _ => false

def Armed (s : State) (w : Handle) : Prop :=
  (s.resolver.set = false ∧ s.bits.wakerSet = true ∨ s.resolver = .take) ∧ s.slot = some w ∨
    s.resolver = .finalize (some w) ∨ s.resolver = .wake w

def Resolver.carries (v : Option ℕ) (s : State) : Resolver → Prop
  | .idle => v = none
  | .store r | .load r => v = some r
  | .cas r seen => v = some r ∧ seen.result = 0 ∧ seen.finalized = false
  | .take => v = some s.bits.result ∧ s.bits.wakerSet = true ∧ s.slot ≠ none
  | .finalize _ | .wake _ | .done => v = some s.bits.result

structure Open (s : State) (v : Option ℕ) : Prop where
  resultSet : s.bits.resultSet = s.resolver.set
  finalized : s.bits.finalized = s.resolver.sealed
  unset : s.resolver.set = false → s.bits.result = 0
  queued : s.queued = true → s.resolver = .idle
  armed : s.resolver.set = false → s.bits.wakerSet = true → s.slot ≠ none
  carries : s.resolver.carries v s

/-- The entry of a pager without registration: as a new one, but for a resolver that has
still to wake the owner. -/
structure Closed (s : State) : Prop where
  bits : s.bits = .clear
  queued : s.queued = false
  resolver : s.resolver = .idle ∨ s.resolver.sealed = true

def Owner.knows (g : Record) (s : State) : Owner → Prop
  | .idle => s.pollable = g.registered ∧ g.opened = g.registered
  | .deciding => s.pollable = false ∧ g.registered = false ∧ g.opened = true ∧
      s.resolver = .idle ∧ s.queued = false ∧ s.bits = .clear
  | .pushing => g.registered = false ∧ g.opened = true
  | .settling => g.registered = false ∧ g.opened = true ∧
      (s.pollable = true ∨ ∃ r, s.resolver = .store r)
  | .unpoll r _ => s.pollable = true ∧ g.registered = true ∧ g.opened = false ∧
      g.value = some r
  | p => s.pollable = true ∧ g.registered = true ∧ g.opened = true ∧ match p with
    | .release _ seen => seen.wakerSet = true ∧ seen.resultSet = false
    | .install _ => s.bits.wakerSet = false
    | .arm p => s.bits.wakerSet = false ∧ s.slot = some p.handle
    | .park t => Armed s (.thread t) ∨
        s.resolver = .done ∧ s.token t = true ∧ .thread t ∈ g.woken
    | .leave w => .waker w ∈ g.woken
    | .clear r _ => s.resolver.sealed = true ∧ s.bits.result = r
    | _ => True

/-- The invariant of one pager. -/
structure Consistent (s : State) (g : Record) : Prop where
  opened : g.opened = true → Open s g.value
  closed : g.opened = false → Closed s
  owner : s.owner.knows g s
  pending : ∀ w, g.pending = some w → (s.owner = .idle ∨ s.owner = .suspended) ∧
    g.opened = true ∧ (.waker w ∈ g.woken ∨ Armed s (.waker w))
  value : ∀ r, g.value = some r → r < ERROR_WRONG_MODE

section Owner

variable {s s' : State} {g : Record} {e : Event} {p : Owner} {m : Poll} {spurious : Bool}

@[simp] theorem Owner.knows_to (q : Owner) : p.knows g (s.to q) = p.knows g s := by
  cases p <;> rfl

theorem Consistent.busy (hc : Consistent s g) (hi : s.owner ≠ .idle)
    (hs : s.owner ≠ .suspended) : g.pending = none := by
  by_contra hp
  obtain ⟨w, hw⟩ := Option.ne_none_iff_exists'.mp hp
  obtain ho | ho := (hc.pending w hw).1
  · exact hi ho
  · exact hs ho

theorem Open.congr {v : Option ℕ} (ho : Open s v) (hb : s'.bits = s.bits)
    (hs : s'.slot = s.slot) (hr : s'.resolver = s.resolver) (hq : s'.queued = s.queued) :
    Open s' v := by
  have hc : s.resolver.carries v s' := by
    have hc := ho.carries
    cases h : s.resolver <;> simpa [Resolver.carries, h, hb, hs] using hc
  exact ⟨by rw [hb, hr, ho.resultSet], by rw [hb, hr, ho.finalized], by rw [hb, hr]; exact ho.unset,
    by rw [hq, hr]; exact ho.queued, by rw [hb, hr, hs]; exact ho.armed, by rw [hr]; exact hc⟩

theorem Consistent.move {g' : Record} {b : Bool} (hc : Consistent s g)
    (ho : g'.opened = g.opened) (hv : g'.value = g.value)
    (hp : p.knows g' { s with pollable := b, owner := p })
    (hw : ∀ w, g'.pending = some w → (p = .idle ∨ p = .suspended) ∧ g.opened = true ∧
      (.waker w ∈ g'.woken ∨ Armed s (.waker w))) :
    Consistent { s with pollable := b, owner := p } g' where
  opened := by
    intro h
    rw [hv]
    exact (hc.opened (ho ▸ h)).congr rfl rfl rfl rfl
  closed := by
    intro h
    obtain ⟨h₁, h₂, h₃⟩ := hc.closed (ho ▸ h)
    exact ⟨h₁, h₂, h₃⟩
  owner := hp
  pending := by
    intro w h
    rw [ho]
    exact hw w h
  value := by
    intro r h
    exact hc.value r (hv ▸ h)

theorem Consistent.rest {g' : Record} {b : Bool} (hc : Consistent s g)
    (ho : g'.opened = g.opened) (hv : g'.value = g.value) (hg : g'.pending = none)
    (hp : p.knows g' { s with pollable := b, owner := p }) :
    Consistent { s with pollable := b, owner := p } g' := by
  refine hc.move ho hv hp fun w hw => ?_
  rw [hg] at hw
  cases hw

theorem Consistent.to (hc : Consistent s g) (hg : g.pending = none) (hp : p.knows g s) :
    Consistent (s.to p) g :=
  hc.rest rfl rfl hg ((Owner.knows_to p).mpr hp)

theorem Consistent.knows (hc : Consistent s g) (ho : s.owner = p) : p.knows g s := ho ▸ hc.owner

structure Polling (s : State) (g : Record) : Prop where
  pollable : s.pollable = true
  registered : g.registered = true
  opened : g.opened = true
  pending : g.pending = none

theorem Consistent.tryConsumeResult {waited : Bool} {o : Event × State} (hc : Consistent s g)
    (hp : Polling s g) (ho : o = (e, s') → Consistent s' (g.next e))
    (hs : tryConsumeResult s waited o = (e, s')) : Consistent s' (g.next e) := by
  unfold Pager.tryConsumeResult at hs
  split at hs
  · next hf =>
    cases hs
    refine hc.to hp.pending ⟨hp.pollable, hp.registered, hp.opened, ?_, rfl⟩
    exact (hc.opened hp.opened).finalized ▸ hf
  · exact ho hs

theorem Open.release {v : Option ℕ} (ho : Open s v)
    (hb : s.bits.resultSet = false) (p : Owner) :
    Open { s with bits := { s.bits with wakerSet := false }, owner := p } v where
  resultSet := ho.resultSet
  finalized := ho.finalized
  unset := ho.unset
  queued := ho.queued
  armed := by simp
  carries := by
    have hc := ho.carries
    have hr := ho.resultSet
    cases hv : s.resolver <;> simp_all [Resolver.carries, Resolver.set]

theorem Open.install {v : Option ℕ} (ho : Open s v) (hb : s.bits.wakerSet = false)
    (w : Handle) (p : Owner) : Open { s with slot := some w, owner := p } v where
  resultSet := ho.resultSet
  finalized := ho.finalized
  unset := ho.unset
  queued := ho.queued
  armed := by simp
  carries := by
    have hc := ho.carries
    cases hv : s.resolver <;> simp_all [Resolver.carries]

theorem Open.arm {v : Option ℕ} (ho : Open s v) (hb : s.slot ≠ none) (p : Owner) :
    Open { s with bits := { s.bits with wakerSet := true }, owner := p } v where
  resultSet := ho.resultSet
  finalized := ho.finalized
  unset := ho.unset
  queued := ho.queued
  armed := fun _ _ => hb
  carries := by
    have hc := ho.carries
    cases hv : s.resolver <;> simp_all [Resolver.carries]

theorem Consistent.poll {g' : Record} (hc : Consistent s g) (ho : g.opened = true)
    (hs : Open s' g.value) (hg : g' = g) (hk : s'.owner.knows g s') (hp : g.pending = none) :
    Consistent s' g' := by
  subst hg
  refine ⟨fun _ => hs, ?_, hk, ?_, hc.value⟩
  · simp [ho]
  · simp [hp]

theorem Consistent.pushing (hc : Consistent s g) (ho : s.owner = .pushing) :
    Consistent { s with pollable := true, owner := .idle } (g.next .registered) := by
  obtain ⟨-, hopen⟩ := hc.knows ho
  exact hc.rest rfl rfl (hc.busy (by simp [ho]) (by simp [ho])) ⟨rfl, hopen⟩

theorem Consistent.settling (hc : Consistent s g) (ho : s.owner = .settling)
    (hd : s.resolver = .done) : Consistent (s.to .idle) (g.next .registered) := by
  obtain ⟨-, hopen, hpoll | ⟨r, hr⟩⟩ := hc.knows ho
  · exact hc.rest rfl rfl (hc.busy (by simp [ho]) (by simp [ho])) ⟨hpoll, hopen⟩
  · rw [hd] at hr
    cases hr

theorem Consistent.attempt (hc : Consistent s g) (ho : s.owner = .attempt) :
    Consistent (s.to .idle) (g.next (.returned (.error .notReady))) := by
  obtain ⟨hpoll, hreg, hopen, -⟩ := hc.knows ho
  exact hc.rest rfl rfl rfl ⟨hpoll.trans hreg.symm, hopen.trans hreg.symm⟩

/-- What the owner does next depends on the state it has loaded. -/
theorem Consistent.load (hc : Consistent s g) (hp : Polling s g) :
    Consistent (s.to (if s.bits.resultSet then .consumeAgain m
      else if s.bits.wakerSet then .release m s.bits else .install m)) g := by
  refine hc.to hp.pending ?_
  split
  · exact ⟨hp.pollable, hp.registered, hp.opened, trivial⟩
  · next hr =>
    split
    · next hw => exact ⟨hp.pollable, hp.registered, hp.opened, hw, by simpa using hr⟩
    · next hw => exact ⟨hp.pollable, hp.registered, hp.opened, by simpa using hw⟩

/-- The flag of an earlier poll is taken down before the slot is written. -/
theorem Consistent.release (hc : Consistent s g) (ho : s.owner = .release m s.bits) :
    Consistent { s with bits := { s.bits with wakerSet := false }, owner := .install m } g := by
  obtain ⟨hpoll, hreg, hopen, -, hr⟩ := hc.knows ho
  exact hc.poll hopen ((hc.opened hopen).release hr (.install m)) rfl
    ⟨hpoll, hreg, hopen, rfl⟩ (hc.busy (by simp [ho]) (by simp [ho]))

theorem Consistent.install (hc : Consistent s g) (ho : s.owner = .install m) :
    Consistent { s with slot := some m.handle, owner := .arm m } g := by
  obtain ⟨hpoll, hreg, hopen, hw⟩ := hc.knows ho
  exact hc.poll hopen ((hc.opened hopen).install hw m.handle (.arm m)) rfl
    ⟨hpoll, hreg, hopen, hw, rfl⟩ (hc.busy (by simp [ho]) (by simp [ho]))

/-- The flag is up: what the owner then knows decides where it may go. -/
theorem Consistent.arm (hc : Consistent s g) (ho : s.owner = .arm m)
    (hp : p.knows g { s with bits := { s.bits with wakerSet := true }, owner := p }) :
    Consistent { s with bits := { s.bits with wakerSet := true }, owner := p } g := by
  obtain ⟨-, -, hopen, -, hslot⟩ := hc.knows ho
  exact hc.poll hopen ((hc.opened hopen).arm (by simp [hslot]) p) rfl hp
    (hc.busy (by simp [ho]) (by simp [ho]))

theorem Consistent.armed (hc : Consistent s g) (ho : s.owner = .arm m)
    (hr : ¬s.bits.resultSet = true) (q : Owner) :
    Armed { s with bits := { s.bits with wakerSet := true }, owner := q } m.handle := by
  obtain ⟨-, -, hopen, -, hslot⟩ := hc.knows ho
  refine .inl ⟨.inl ⟨?_, rfl⟩, hslot⟩
  simpa [(hc.opened hopen).resultSet] using hr

theorem Consistent.suspend {w : ℕ} (hc : Consistent s g) (ho : s.owner = .arm (.async w))
    (hr : ¬s.bits.resultSet = true) :
    Consistent { s with bits := { s.bits with wakerSet := true }, owner := .suspended }
      (g.next (.pending w)) := by
  obtain ⟨hpoll, hreg, hopen, -, hslot⟩ := hc.knows ho
  have harmed := hc.armed ho hr .suspended
  exact {
    opened := fun _ => (hc.opened hopen).arm (by simp [hslot]) _
    closed := fun h => by
      change g.opened = false at h
      rw [hopen] at h
      cases h
    owner := ⟨hpoll, hreg, hopen, trivial⟩
    pending := by
      rintro w ⟨⟩
      exact ⟨.inr rfl, hopen, .inr harmed⟩
    value := hc.value }

theorem Consistent.leave {w : ℕ} (hc : Consistent s g) (ho : s.owner = .leave w) :
    Consistent (s.to .suspended) (g.next (.pending w)) := by
  obtain ⟨hpoll, hreg, hopen, hwoken⟩ := hc.knows ho
  refine hc.move rfl rfl ⟨hpoll, hreg, hopen, trivial⟩ ?_
  rintro w ⟨⟩
  exact ⟨.inr rfl, hopen, .inl hwoken⟩

theorem Consistent.unpark {t : ℕ} (hc : Consistent s g) (ho : s.owner = .park t) :
    Consistent { s with token := Function.update s.token t false, owner := .consume (.sync t) }
      g := by
  obtain ⟨hpoll, hreg, hopen, -⟩ := hc.knows ho
  exact hc.poll hopen ((hc.opened hopen).congr rfl rfl rfl rfl) rfl ⟨hpoll, hreg, hopen, trivial⟩
    (hc.busy (by simp [ho]) (by simp [ho]))

/-- The result is consumed, and the registration closed. -/
theorem Consistent.clear {r : ℕ} {waited : Bool} (hc : Consistent s g)
    (ho : s.owner = .clear r waited) :
    Consistent { s with bits := .clear, owner := .unpoll r waited } (g.next (.consumed r)) := by
  obtain ⟨hpoll, hreg, hopen, hseal, hres⟩ := hc.knows ho
  have hx := hc.opened hopen
  have hb := hc.busy (by simp [ho]) (by simp [ho])
  refine ⟨by simp [Record.next], fun _ => ⟨rfl, ?_, .inr hseal⟩, ⟨hpoll, hreg, rfl, ?_⟩, ?_,
    hc.value⟩
  · by_contra hq
    have hidle := hx.queued (by simpa using hq)
    simp [hidle, Resolver.sealed] at hseal
  · have hv := hx.carries
    cases hr : s.resolver <;> simp_all [Resolver.carries, Resolver.sealed, Record.next]
  · intro w hw
    change g.pending = some w at hw
    rw [hb] at hw
    cases hw

theorem Consistent.unpoll {r : ℕ} {waited : Bool} (hc : Consistent s g)
    (ho : s.owner = .unpoll r waited) :
    Consistent { s with pollable := false, owner := .idle }
      (g.next (.returned (toResult r waited))) := by
  obtain ⟨-, -, hopen, hval⟩ := hc.knows ho
  have hr : r ≠ ERROR_WRONG_MODE := (hc.value r hval).ne
  simp only [toResult, hr, and_false, if_false]
  exact hc.rest rfl rfl rfl ⟨rfl, hopen⟩

theorem Consistent.turn (hc : Consistent s g) (hp : Polling s g)
    (hq : p = .consume m ∨ p = .load m ∨ p = .notify m) : Consistent (s.to p) g := by
  refine hc.to hp.pending ?_
  rcases hq with rfl | rfl | rfl <;> exact ⟨hp.pollable, hp.registered, hp.opened, trivial⟩

theorem Consistent.polling (hc : Consistent s g) (hp : s.owner = .attempt ∨ s.owner.Loops) :
    Polling s g := by
  cases ho : s.owner with
  | attempt | consume | load | consumeAgain | release | notify | park =>
    obtain ⟨hpoll, hreg, hopen, -⟩ := hc.knows ho
    exact ⟨hpoll, hreg, hopen, hc.busy (by simp [ho]) (by simp [ho])⟩
  | _ => simp [ho, Owner.Loops] at hp

/-- One step of the owner. -/
theorem Consistent.ownerStep (hc : Consistent s g)
    (hs : ownerStep s spurious = some (e, s')) : Consistent s' (g.next e) := by
  unfold Pager.ownerStep at hs
  cases ho : s.owner with
  | idle | suspended | deciding =>
    rw [ho] at hs
    cases hs
  | pushing =>
    rw [ho] at hs
    cases hs
    exact hc.pushing ho
  | settling =>
    simp only [ho] at hs
    split at hs
    · next hd =>
      cases hs
      exact hc.settling ho hd
    · cases hs
  | attempt =>
    simp only [ho, Option.some.injEq] at hs
    refine hc.tryConsumeResult (hc.polling (.inl ho)) ?_ hs
    rintro ⟨⟩
    exact hc.attempt ho
  | consume m | consumeAgain m =>
    simp only [ho, Option.some.injEq] at hs
    have hp := hc.polling (.inr (by rw [ho]; trivial))
    refine hc.tryConsumeResult hp ?_ hs
    rintro ⟨⟩
    exact hc.turn (m := m) hp (by simp)
  | load =>
    rw [ho] at hs
    cases hs
    exact hc.load (hc.polling (.inr (by rw [ho]; trivial)))
  | release m seen =>
    simp only [ho, Option.some.injEq, Prod.mk.injEq] at hs
    obtain ⟨rfl, rfl⟩ := hs
    split
    · next hx =>
      obtain ⟨-, rfl⟩ := hx
      exact hc.release ho
    · exact hc.turn (hc.polling (.inr (by rw [ho]; trivial))) (.inr (.inr rfl))
  | install =>
    rw [ho] at hs
    cases hs
    exact hc.install ho
  | arm m =>
    obtain ⟨hpoll, hreg, hopen, -, -⟩ := hc.knows ho
    simp only [ho] at hs
    split at hs
    · cases hs
      exact hc.arm ho ⟨hpoll, hreg, hopen, trivial⟩
    · next hr =>
      cases m with
      | sync t =>
        cases hs
        exact hc.arm ho ⟨hpoll, hreg, hopen, .inl (hc.armed ho hr _)⟩
      | async w =>
        cases hs
        exact hc.suspend ho hr
  | notify m =>
    have hp := hc.polling (.inr (by rw [ho]; trivial))
    cases m with
    | sync t =>
      rw [ho] at hs
      cases hs
      exact hc.turn hp (.inl rfl)
    | async w =>
      rw [ho] at hs
      cases hs
      exact hc.rest rfl rfl hp.pending
        ⟨hp.pollable, hp.registered, hp.opened, List.mem_cons_self⟩
  | park t =>
    simp only [ho] at hs
    split at hs
    · cases hs
      exact hc.unpark ho
    · split at hs
      · cases hs
        exact hc.turn (hc.polling (.inr (by rw [ho]; trivial))) (.inl rfl)
      · cases hs
  | leave =>
    rw [ho] at hs
    cases hs
    exact hc.leave ho
  | clear =>
    rw [ho] at hs
    cases hs
    exact hc.clear ho
  | unpoll =>
    rw [ho] at hs
    cases hs
    exact hc.unpoll ho

end Owner

section Resolver

variable {s s' : State} {g g' : Record} {e : Event}

/-- What a step of anyone but the owner may do to the entry. -/
structure Rely (s s' : State) (g g' : Record) : Prop where
  owner : s'.owner = s.owner
  pollable : s'.pollable = s.pollable ∨
    s'.pollable = true ∧ g.opened = true ∧ s.resolver ≠ .idle
  store : ∀ r, s.resolver = .store r → s'.resolver = .store r ∨ s'.pollable = true
  wakerSet : s'.bits.wakerSet = s.bits.wakerSet
  slot : s.bits.wakerSet = false → s'.slot = s.slot
  unused : s.resolver = .idle → s.queued = false →
    s'.resolver = .idle ∧ s'.queued = false ∧ s'.bits = s.bits
  sealed : s.resolver.sealed = true → s'.resolver.sealed = true ∧ s'.bits = s.bits
  done : s.resolver = .done → s'.resolver = .done
  token : ∀ t, s.token t = true → s'.token t = true
  armed : ∀ w, Armed s w → Armed s' w ∨
    s'.resolver = .done ∧ w ∈ g'.woken ∧ ∀ t, w = .thread t → s'.token t = true
  woken : ∀ w, w ∈ g.woken → w ∈ g'.woken
  opened : g'.opened = g.opened
  registered : g'.registered = g.registered
  value : g.opened = false → g'.value = g.value
  pending : g'.pending = g.pending

theorem Owner.knows_rely {p : Owner} (hk : p.knows g s) (hr : Rely s s' g g') :
    p.knows g' s' := by
  have hpoll : s.pollable = true → s'.pollable = true := by
    intro h
    obtain h' | h' := hr.pollable
    · exact h'.trans h
    · exact h'.1
  cases p with
  | idle =>
    obtain ⟨h₁, h₂⟩ := hk
    refine ⟨?_, by rw [hr.opened, hr.registered, h₂]⟩
    rw [hr.registered]
    obtain h | ⟨h, ho, -⟩ := hr.pollable
    · exact h.trans h₁
    · rw [h, ← h₂, ho]
  | deciding =>
    obtain ⟨h₁, h₂, h₃, h₄, h₅, h₆⟩ := hk
    obtain ⟨k₁, k₂, k₃⟩ := hr.unused h₄ h₅
    refine ⟨?_, hr.registered.trans h₂, hr.opened.trans h₃, k₁, k₂, k₃.trans h₆⟩
    obtain h | h := hr.pollable
    · exact h.trans h₁
    · exact absurd h₄ h.2.2
  | pushing => exact ⟨hr.registered.trans hk.1, hr.opened.trans hk.2⟩
  | settling =>
    refine ⟨hr.registered.trans hk.1, hr.opened.trans hk.2.1, ?_⟩
    obtain h | ⟨r, h⟩ := hk.2.2
    · exact .inl (hpoll h)
    · obtain h | h := hr.store r h
      · exact .inr ⟨r, h⟩
      · exact .inl h
  | unpoll r waited =>
    obtain ⟨h₁, h₂, h₃, h₄⟩ := hk
    exact ⟨hpoll h₁, hr.registered.trans h₂, hr.opened.trans h₃, (hr.value h₃).trans h₄⟩
  | suspended | attempt | consume | load | consumeAgain | notify =>
    obtain ⟨h₁, h₂, h₃, -⟩ := hk
    exact ⟨hpoll h₁, hr.registered.trans h₂, hr.opened.trans h₃, trivial⟩
  | release p seen =>
    obtain ⟨h₁, h₂, h₃, h₄⟩ := hk
    exact ⟨hpoll h₁, hr.registered.trans h₂, hr.opened.trans h₃, h₄⟩
  | install p =>
    obtain ⟨h₁, h₂, h₃, h₄⟩ := hk
    exact ⟨hpoll h₁, hr.registered.trans h₂, hr.opened.trans h₃, hr.wakerSet.trans h₄⟩
  | arm p =>
    obtain ⟨h₁, h₂, h₃, h₄, h₅⟩ := hk
    exact ⟨hpoll h₁, hr.registered.trans h₂, hr.opened.trans h₃, hr.wakerSet.trans h₄,
      (hr.slot h₄).trans h₅⟩
  | park t =>
    obtain ⟨h₁, h₂, h₃, h₄⟩ := hk
    refine ⟨hpoll h₁, hr.registered.trans h₂, hr.opened.trans h₃, ?_⟩
    obtain h | ⟨hd, ht, hw⟩ := h₄
    · obtain h | ⟨hd, hw, ht⟩ := hr.armed _ h
      · exact .inl h
      · exact .inr ⟨hd, ht t rfl, hw⟩
    · exact .inr ⟨hr.done hd, hr.token t ht, hr.woken _ hw⟩
  | leave w =>
    obtain ⟨h₁, h₂, h₃, h₄⟩ := hk
    exact ⟨hpoll h₁, hr.registered.trans h₂, hr.opened.trans h₃, hr.woken _ h₄⟩
  | clear r waited =>
    obtain ⟨h₁, h₂, h₃, h₄, h₅⟩ := hk
    obtain ⟨k₁, k₂⟩ := hr.sealed h₄
    exact ⟨hpoll h₁, hr.registered.trans h₂, hr.opened.trans h₃, k₁, k₂ ▸ h₅⟩

theorem Consistent.rely (hc : Consistent s g) (hr : Rely s s' g g')
    (ho : g.opened = true → Open s' g'.value) (hcl : g.opened = false → Closed s')
    (hv : ∀ r, g'.value = some r → r < ERROR_WRONG_MODE) : Consistent s' g' where
  opened := fun h => ho (hr.opened ▸ h)
  closed := fun h => hcl (hr.opened ▸ h)
  owner := hr.owner ▸ Owner.knows_rely hc.owner hr
  pending := by
    intro w hw
    obtain ⟨h₁, h₂, h₃⟩ := hc.pending w (hr.pending ▸ hw)
    refine ⟨hr.owner ▸ h₁, hr.opened.trans h₂, ?_⟩
    obtain h | h := h₃
    · exact .inl (hr.woken _ h)
    · obtain h | h := hr.armed _ h
      · exact .inr h
      · exact .inl h.2.1
  value := hv

theorem Rely.signal (w : Handle) {r : Resolver} {late : List Handle}
    (hr : r = s.resolver ∨ s.resolver = .wake w ∧ r = .done) :
    Rely s { s.signal w with resolver := r, late := late } g (g.next (.wake w)) where
  owner := signal_owner s w
  pollable := .inl (signal_pollable s w)
  store := by
    rintro x hx
    obtain rfl | ⟨h, -⟩ := hr
    · exact .inl hx
    · simp [hx] at h
  wakerSet := by simp
  slot := fun _ => signal_slot s w
  unused := by
    rintro hi hq
    obtain rfl | ⟨h, -⟩ := hr
    · simp [hi, hq]
    · simp [hi] at h
  sealed := by
    intro hs
    obtain rfl | ⟨-, rfl⟩ := hr
    · simp [hs]
    · simp [Resolver.sealed]
  done := by
    intro hd
    obtain rfl | ⟨-, rfl⟩ := hr
    · exact hd
    · rfl
  token := by
    intro t ht
    simp [signal_token, ht]
  armed := by
    intro w' ha
    obtain rfl | ⟨hs, rfl⟩ := hr
    · left
      simpa [Armed] using ha
    · have hw : w = w' := by simpa [Armed, hs, Resolver.set] using ha
      subst hw
      exact .inr ⟨rfl, List.mem_cons_self, by simp +contextual [signal_token]⟩
  woken := fun _ h => List.mem_cons_of_mem _ h
  opened := rfl
  registered := rfl
  value := fun _ => rfl
  pending := rfl

theorem Consistent.open_of_unsealed (hc : Consistent s g) (hi : s.resolver ≠ .idle)
    (hs : s.resolver.sealed = false) : g.opened = true ∧ Open s g.value := by
  have ho : g.opened = true := by
    by_contra h
    obtain h | h := (hc.closed (by simpa using h)).resolver
    · exact hi h
    · simp [h] at hs
  exact ⟨ho, hc.opened ho⟩

theorem Consistent.unsealed (hc : Consistent s g) (hi : s.resolver ≠ .idle)
    (hn : s.resolver.sealed = false) (ho : Open s' g.value) (howner : s'.owner = s.owner)
    (hp : s'.pollable = s.pollable ∨ s'.pollable = true)
    (hstore : ∀ r, s.resolver = .store r → s'.pollable = true)
    (hw : s'.bits.wakerSet = s.bits.wakerSet) (hslot : s.bits.wakerSet = false → s'.slot = s.slot)
    (ht : s'.token = s.token) (ha : ∀ w, Armed s w → Armed s' w) : Consistent s' g := by
  have hopen := (hc.open_of_unsealed hi hn).1
  have hrely : Rely s s' g g := {
    owner := howner
    pollable := hp.imp_right fun h => ⟨h, hopen, hi⟩
    store := fun r hr => .inr (hstore r hr)
    wakerSet := hw
    slot := hslot
    unused := fun h => absurd h hi
    sealed := by simp [hn]
    done := fun h => by simp [h, Resolver.sealed] at hn
    token := fun t h => ht ▸ h
    armed := fun w h => .inl (ha w h)
    woken := fun _ h => h
    opened := rfl
    registered := rfl
    value := fun _ => rfl
    pending := rfl }
  exact hc.rely hrely (fun _ => ho) (by simp [hopen]) hc.value

theorem Consistent.resolverStep {spurious : Bool} (hc : Consistent s g)
    (hs : resolverStep s spurious = some (e, s')) : Consistent s' (g.next e) := by
  cases hr : s.resolver with
  | idle | done => simp [Pager.resolverStep, hr] at hs
  | store r =>
    simp only [Pager.resolverStep, hr, Option.some.injEq, Prod.mk.injEq] at hs
    obtain ⟨rfl, rfl⟩ := hs
    have hx := (hc.open_of_unsealed (by simp [hr]) (by simp [hr, Resolver.sealed])).2
    refine hc.unsealed (by simp [hr]) (by simp [hr, Resolver.sealed]) ?_ rfl (.inr rfl)
      (fun _ _ => rfl) rfl (fun _ => rfl) rfl ?_
    · obtain ⟨h₁, h₂, h₃, h₄, h₅, h₆⟩ := hx
      simp only [hr, Resolver.set, Resolver.sealed, Resolver.carries, reduceCtorEq] at *
      exact ⟨h₁, h₂, fun _ => h₃ trivial, by simpa using h₄, fun _ => h₅ trivial, h₆⟩
    · simp [Armed, hr, Resolver.set]
  | load r =>
    simp only [Pager.resolverStep, hr, Option.some.injEq, Prod.mk.injEq] at hs
    obtain ⟨rfl, rfl⟩ := hs
    have hx := (hc.open_of_unsealed (by simp [hr]) (by simp [hr, Resolver.sealed])).2
    refine hc.unsealed (by simp [hr]) (by simp [hr, Resolver.sealed]) ?_ rfl (.inl rfl)
      (by simp [hr]) rfl (fun _ => rfl) rfl ?_
    · obtain ⟨h₁, h₂, h₃, h₄, h₅, h₆⟩ := hx
      simp only [hr, Resolver.set, Resolver.sealed, Resolver.carries, reduceCtorEq] at *
      exact ⟨h₁, h₂, fun _ => h₃ trivial, by simpa using h₄, fun _ => h₅ trivial, h₆, h₃ trivial,
        h₂⟩
    · simp [Armed, hr, Resolver.set]
  | cas r seen =>
    have hx := (hc.open_of_unsealed (by simp [hr]) (by simp [hr, Resolver.sealed])).2
    obtain ⟨h₁, h₂, h₃, h₄, h₅, h₆⟩ := hx
    simp only [hr, Resolver.set, Resolver.sealed, Resolver.carries, reduceCtorEq]
      at h₁ h₂ h₃ h₄ h₅ h₆
    simp only [Pager.resolverStep, hr] at hs
    split at hs
    · next hb =>
      cases hs
      refine hc.unsealed (by simp [hr]) (by simp [hr, Resolver.sealed]) ?_ rfl (.inl rfl)
        (by simp [hr]) (by simp [hb.2]) (fun _ => rfl) rfl ?_
      · rw [← hb.2]
        split
        all_goals
          refine ⟨rfl, ?_, by simp [Resolver.set], by simpa using h₄, ?_, ?_⟩
          · simp_all [Resolver.sealed]
          · simp [Resolver.set]
          · simp_all [Resolver.carries]
      · intro w ha
        simp only [Armed, hr, Resolver.set, reduceCtorEq, or_false, true_and] at ha
        exact .inl ⟨.inr (by simp [← hb.2, ha.1]), ha.2⟩
    · cases hs
      refine hc.unsealed (by simp [hr]) (by simp [hr, Resolver.sealed]) ?_ rfl (.inl rfl)
        (by simp [hr]) rfl (fun _ => rfl) rfl ?_
      · exact ⟨h₁, h₂, fun _ => h₃ trivial, by simpa using h₄, fun _ => h₅ trivial, h₆.1,
          h₃ trivial, h₂⟩
      · simp [Armed, hr, Resolver.set]
  | take =>
    simp only [Pager.resolverStep, hr, Option.some.injEq, Prod.mk.injEq] at hs
    obtain ⟨rfl, rfl⟩ := hs
    obtain ⟨h₁, h₂, h₃, h₄, h₅, h₆⟩ :=
      (hc.open_of_unsealed (by simp [hr]) (by simp [hr, Resolver.sealed])).2
    simp only [hr, Resolver.set, Resolver.sealed, Resolver.carries, reduceCtorEq]
      at h₁ h₂ h₃ h₄ h₅ h₆
    refine hc.unsealed (by simp [hr]) (by simp [hr, Resolver.sealed]) ?_ rfl (.inl rfl)
      (by simp [hr]) rfl (by simp [h₆.2.1]) rfl ?_
    · exact ⟨h₁, h₂, by simp [Resolver.set], by simpa using h₄, by simp [Resolver.set], h₆.1⟩
    · simp +contextual [Armed, hr, Resolver.set]
  | finalize w =>
    simp only [Pager.resolverStep, hr, Option.some.injEq, Prod.mk.injEq] at hs
    obtain ⟨rfl, rfl⟩ := hs
    obtain ⟨h₁, h₂, h₃, h₄, h₅, h₆⟩ :=
      (hc.open_of_unsealed (by simp [hr]) (by simp [hr, Resolver.sealed])).2
    simp only [hr, Resolver.set, Resolver.sealed, Resolver.carries, reduceCtorEq]
      at h₁ h₂ h₃ h₄ h₅ h₆
    refine hc.unsealed (by simp [hr]) (by simp [hr, Resolver.sealed]) ?_ rfl (.inl rfl)
      (by simp [hr]) rfl (fun _ => rfl) rfl ?_
    · cases w with
      | none | some w =>
        exact ⟨h₁, rfl, by simp [Resolver.set], by simpa using h₄, by simp [Resolver.set], h₆⟩
    · intro w' ha
      simp only [Armed, hr, Resolver.set, reduceCtorEq, or_false, false_or, false_and,
        Resolver.finalize.injEq] at ha
      simp [Armed, ha]
  | wake w =>
    simp only [Pager.resolverStep, hr, Option.some.injEq, Prod.mk.injEq] at hs
    obtain ⟨rfl, rfl⟩ := hs
    refine hc.rely (.signal w (.inr ⟨hr, rfl⟩)) (fun h => ?_) (fun h => ?_) hc.value
    · obtain ⟨h₁, h₂, h₃, h₄, h₅, h₆⟩ := hc.opened h
      simp only [hr, Resolver.set, Resolver.sealed, Resolver.carries, reduceCtorEq]
        at h₁ h₂ h₃ h₄ h₅ h₆
      exact ⟨(signal_bits s w).symm ▸ h₁, (signal_bits s w).symm ▸ h₂, by simp [Resolver.set],
        by simpa using h₄, by simp [Resolver.set], (signal_bits s w).symm ▸ h₆⟩
    · obtain ⟨h₁, h₂, -⟩ := hc.closed h
      exact ⟨by simpa using h₁, by simpa using h₂, .inr rfl⟩

theorem Consistent.late {w : Handle} {late : List Handle} (hc : Consistent s g) :
    Consistent { s.signal w with late := late } (g.next (.wake w)) := by
  refine hc.rely (.signal w (.inl (signal_resolver s w))) (fun h => ?_) (fun h => ?_) hc.value
  · exact (hc.opened h).congr (signal_bits s w) (signal_slot s w) (signal_resolver s w)
      (signal_queued s w)
  · obtain ⟨h₁, h₂, h₃⟩ := hc.closed h
    exact ⟨by simpa using h₁, by simpa using h₂, by simpa using h₃⟩

theorem Consistent.opened_of_queued (hc : Consistent s g) (hq : s.queued = true) :
    g.opened = true := by
  by_contra h
  simp [(hc.closed (by simpa using h)).queued] at hq

theorem Consistent.resolve {r : ℕ} (hc : Consistent s g) (hq : s.queued = true)
    (hr : r < ERROR_WRONG_MODE) :
    Consistent { s with queued := false, resolver := .store r } (g.next (.resolve r)) := by
  have hopen := hc.opened_of_queued hq
  obtain ⟨h₁, h₂, h₃, h₄, h₅, h₆⟩ := hc.opened hopen
  have hi := h₄ hq
  simp only [hi, Resolver.set, Resolver.sealed, Resolver.carries] at h₁ h₂ h₃ h₅ h₆
  refine hc.rely ?_ (fun _ => ?_) (by simp [hopen]) ?_
  · exact {
      owner := rfl
      pollable := .inl rfl
      store := by simp [hi]
      wakerSet := rfl
      slot := fun _ => rfl
      unused := by simp [hq]
      sealed := by simp [hi, Resolver.sealed]
      done := by simp [hi]
      token := fun _ h => h
      armed := by simp [Armed, hi, Resolver.set]
      woken := fun _ h => h
      opened := rfl
      registered := rfl
      value := by simp [hopen]
      pending := rfl }
  · exact ⟨h₁, h₂, fun _ => h₃ trivial, by simp, fun _ => h₅ trivial, rfl⟩
  · simp [Record.next, hr]

end Resolver

section Calls

variable {s s' : State} {g : Record} {e : Event}

theorem Consistent.begin {p : Owner} (hc : Consistent s g) (hp : p.knows (g.next .begin) s) :
    Consistent (s.to p) (g.next .begin) := by
  refine hc.move rfl rfl ((Owner.knows_to p).mpr hp) ?_
  simp [Record.next]

theorem Consistent.failed {x : Error} (hc : Consistent s g) :
    Consistent s (g.next (.returned (.error x))) := by
  have hk : s.owner.knows (g.next (.returned (.error x))) s := by
    have hk := hc.owner
    cases ho : s.owner <;> simpa [Owner.knows, ho, Record.next] using hk
  refine hc.move rfl rfl hk ?_
  simp [Record.next]

theorem Consistent.register {admissible sync : Bool} (hc : Consistent s g) (hi : s.owner = .idle)
    (hs : register s admissible sync = (e, s')) : Consistent s' (g.next e) := by
  simp only [Pager.register] at hs
  split at hs
  · cases hs
    exact hc
  · next hn =>
    cases hs
    simp only [not_or, Bool.not_eq_true] at hn
    have hk := hc.owner
    simp only [hi, Owner.knows, hn.2] at hk
    obtain ⟨h₁, h₂, -⟩ := hc.closed (hk.2.trans hk.1.symm)
    refine ⟨fun _ => ?_, by simp [Record.next], ?_, by simp [Record.next], by simp [Record.next]⟩
    · refine ⟨?_, ?_, ?_, by simp [h₂], ?_, rfl⟩
      · simp [h₁, Bits.clear, Resolver.set]
      · simp [h₁, Bits.clear, Resolver.sealed]
      · simp [h₁, Bits.clear]
      · simp [h₁, Bits.clear]
    · exact ⟨hn.2, hk.1.symm, rfl, rfl, h₂, h₁⟩

theorem Consistent.known (hc : Consistent s g) (hi : s.owner = .idle) (hp : s.pollable = true) :
    g.registered = true ∧ g.opened = true := by
  have hk := hc.owner
  simp only [hi, Owner.knows] at hk
  exact ⟨hk.1 ▸ hp, hk.2.trans (hk.1 ▸ hp)⟩

theorem Consistent.push (hc : Consistent s g) (hi : s.owner = .deciding) :
    Consistent { s with owner := .pushing, queued := true } g := by
  have hk := hc.owner
  simp only [hi, Owner.knows] at hk
  obtain ⟨h₁, h₂, h₃, h₄, h₅, h₆⟩ := hk
  obtain ⟨k₁, k₂, k₃, -, k₅, k₆⟩ := hc.opened h₃
  refine ⟨fun _ => ⟨k₁, k₂, k₃, fun _ => h₄, k₅, ?_⟩, by simp [h₃], ⟨h₂, h₃⟩, ?_, hc.value⟩
  · simpa [Resolver.carries, h₄] using k₆
  · simp [hc.busy, hi]

theorem Consistent.settle {r : ℕ} (hc : Consistent s g) (hi : s.owner = .deciding)
    (hr : r < ERROR_WRONG_MODE) :
    Consistent { s with owner := .settling, resolver := .store r } (g.next (.resolve r)) := by
  have hk := hc.owner
  simp only [hi, Owner.knows] at hk
  obtain ⟨h₁, h₂, h₃, h₄, h₅, h₆⟩ := hk
  refine ⟨fun _ => ?_, by simp [Record.next, h₃], ⟨h₂, h₃, .inr ⟨r, rfl⟩⟩, ?_, ?_⟩
  · exact ⟨by simp [h₆, Bits.clear, Resolver.set], by simp [h₆, Bits.clear, Resolver.sealed],
      by simp [h₆, Bits.clear], by simp [h₅], by simp [h₆, Bits.clear], rfl⟩
  · simp [Record.next, hc.busy, hi]
  · simp [Record.next, hr]

theorem Consistent.step {a : Action} (hc : Consistent s g) (hs : step s a = some (e, s')) :
    Consistent s' (g.next e) := by
  have hk := hc.owner
  cases a with
  | register admissible sync =>
    simp only [Pager.step, Option.ite_none_right_eq_some, Option.some.injEq] at hs
    exact hc.register hs.1 hs.2
  | isRegistered =>
    simp only [Pager.step, Option.ite_none_right_eq_some, Option.some.injEq, Prod.mk.injEq] at hs
    obtain ⟨-, rfl, rfl⟩ := hs
    exact hc
  | tryPoll =>
    simp only [Pager.step, Pager.tryPoll, Option.ite_none_right_eq_some, Option.some.injEq] at hs
    obtain ⟨hi, hs⟩ := hs
    split at hs
    · cases hs
      exact hc.failed
    · next hp =>
      cases hs
      have hp : s.pollable = true := by simpa using hp
      obtain ⟨hreg, hopen⟩ := hc.known hi hp
      exact hc.begin ⟨hp, hreg, hopen, trivial⟩
  | pollSync t =>
    simp only [Pager.step, Pager.pollSync, Option.ite_none_right_eq_some, Option.some.injEq] at hs
    obtain ⟨hi, hs⟩ := hs
    split at hs
    · cases hs
      exact hc.failed
    next hp =>
    have hp : s.pollable = true := by simpa using hp
    obtain ⟨hreg, hopen⟩ := hc.known hi hp
    split at hs
    · cases hs
      exact hc.failed
    · cases hs
      exact hc.begin ⟨hp, hreg, hopen, trivial⟩
  | pollAsync w =>
    simp only [Pager.step, Pager.pollAsync, Option.ite_none_right_eq_some, Option.some.injEq] at hs
    obtain ⟨hi, hs⟩ := hs
    split at hs
    · cases hs
      exact hc.failed
    next hp =>
    have hp : s.pollable = true := by simpa using hp
    obtain ⟨hreg, hopen⟩ := hc.known hi hp
    split at hs
    · cases hs
      exact hc.failed
    · cases hs
      exact hc.begin ⟨hp, hreg, hopen, trivial⟩
  | repoll w =>
    simp only [Pager.step, Option.ite_none_right_eq_some, Option.some.injEq, Prod.mk.injEq] at hs
    obtain ⟨hi, rfl, rfl⟩ := hs
    simp only [hi, Owner.knows] at hk
    exact hc.begin hk
  | abandon =>
    simp only [Pager.step, Option.ite_none_right_eq_some, Option.some.injEq, Prod.mk.injEq] at hs
    obtain ⟨hi, rfl, rfl⟩ := hs
    simp only [hi, Owner.knows] at hk
    refine hc.move rfl rfl ⟨hk.1.trans hk.2.1.symm, hk.2.2.1.trans hk.2.1.symm⟩ ?_
    intro w hw
    exact ⟨.inl rfl, (hc.pending w hw).2⟩
  | push =>
    simp only [Pager.step, Option.ite_none_right_eq_some, Option.some.injEq, Prod.mk.injEq] at hs
    obtain ⟨hi, rfl, rfl⟩ := hs
    exact hc.push hi
  | settle r =>
    simp only [Pager.step, Option.ite_none_right_eq_some, Option.some.injEq, Prod.mk.injEq] at hs
    obtain ⟨⟨hi, hr⟩, rfl, rfl⟩ := hs
    exact hc.settle hi hr
  | owner spurious => exact hc.ownerStep hs
  | resolve r =>
    simp only [Pager.step, Option.ite_none_right_eq_some, Option.some.injEq, Prod.mk.injEq] at hs
    obtain ⟨⟨hq, hr⟩, rfl, rfl⟩ := hs
    exact hc.resolve hq hr
  | resolver spurious => exact hc.resolverStep hs
  | late =>
    simp only [Pager.step] at hs
    split at hs
    · cases hs
    · cases hs
      exact hc.late

theorem reach_consistent {h : List Event} (hr : Reach s h) : Consistent s (record h) := by
  refine Run.invariant (P := fun s h => Consistent s (record h)) ?_ ?_ hr
  · refine ⟨by simp [record], fun _ => ⟨rfl, rfl, .inl rfl⟩, ⟨rfl, rfl⟩, ?_, ?_⟩
    · simp [record]
    · simp [record]
  · intro s h a e s' _ hc _ hs
    exact hc.step hs

end Calls

end Saa.Pager
