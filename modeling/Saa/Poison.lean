import Saa.Verdict

/-! # Poisoning

A lock is poisoned from a successful `poison_lock` to the next `clear_poison`. Its word is
then the bare flag, which no other operation recognises as something to work on. -/
namespace Saa

open Word Lib.Linked Lib.Trace

/-- The latest successful one of `poison_lock` and `clear_poison` was a `poison_lock`. -/
def poisoned (h : List Event) : Bool :=
  fold (fun b e => match e with
    | .poison _ => true
    | .clearPoison _ => false
    | _ => b) false h

/-- The code the history binds each entry to. -/
structure Bound where
  view : View
  code : Ptr → Option ℕ

/-- A poisoning binds the whole queue to `POISONED`. The step that adds the count of an
entry to the word binds it to `ACQUIRED`. -/
def Bound.observe (b : Bound) (e : Event) : Bound where
  view := b.view.observe e
  code := match e with
    | .poison _ => fun a => if a ∈ b.view.queue then some POISONED else b.code a
    | .grant _ _ | .tailReset _ => fun a => if a ∈ b.view.served e then some ACQUIRED else b.code a
    | .acquire _ (.entry a) _ => Function.update b.code a (some ACQUIRED)
    | .push _ a _ | .consume _ a _ | .dropped _ a => Function.update b.code a none
    | _ => b.code

def bound (h : List Event) : Bound := fold Bound.observe ⟨.initial, fun _ => none⟩ h

@[simp] theorem bound_cons (e : Event) (h : List Event) : bound (e :: h) = (bound h).observe e :=
    rfl

@[simp] theorem bound_view (h : List Event) : (bound h).view = view h := by
  induction h with
  | nil => rfl
  | cons e h ih => simp [Bound.observe, ih]

section
variable {kind : Kind} {s s' : Cfg} {v : View} {h : List Event} {t : Tid} {a : Ptr} {r : ℕ}
  {act : Action} {e : Event}

theorem Took.release_word (h : Took kind s v t act e s') (hs : step kind s act = some (e, s'))
    (hk : kind ≠ .gate) {x : Tid} {o : Holder} {op : Opcode} (he : e = .release x o op)
    (hz : anchor s.word = 0 ∨ Locked s.word) : s'.word = s.word - op.acquiredCount := by
  have hmv := h.move
  generalize hp : s.pc t = p at hmv
  generalize s'.pc t = p' at hmv
  subst he
  cases hmv with
  | gate hg => exact absurd hg hk
  | fast =>
    simp only [step, runStep, hp, Option.some.injEq] at hs
    cases op <;> simp only [releaseFast] at hs <;> (try split at hs) <;> cases hs
    · next hw =>
      rw [hw]
      rfl
    · rfl
    · next hw =>
      rw [hw]
      exact (Nat.sub_self _).symm
  | release hcan =>
    simp only [step, runStep, hp, Option.some.injEq, releaseLoop, hcan, hz, not_true_eq_false,
      ne_eq, ↓reduceIte] at hs
    cases hs
    rfl
  | releasePass _ ha hn =>
    rcases hz with hz | hz
    · exact absurd hz ha
    · exact absurd hz hn

theorem Took.unlink_word (h : Took kind s v t act e s') (hs : step kind s act = some (e, s'))
    (hk : kind ≠ .gate) {x : Tid} (he : e = .unlink x a) (hq : v.queue = [a]) :
    s'.word = data s.word := by
  subst he
  have hz' : anchor s'.word = 0 := by
    apply h.inv'.glob.chain.eq_nil_iff.mp
    simp [View.observe, hq]
  have hchain := h.inv.glob.chain
  rw [hq] at hchain
  have hnext : s.next a = 0 := hchain.2.2
  have hremove : ∀ found state cur again, s.pc t = .remove a found state cur again →
      act = .run t → s'.word = data s.word := by
    rintro found state cur again hp rfl
    have hanch := h.inv.anchor_ne (t := t) (by rw [hp]; trivial)
    simp only [step, runStep, hp, Option.some.injEq, removeStep, hnext, ↓reduceIte] at hs
    split at hs
    · split at hs <;> cases hs
    split at hs
    · split at hs <;> cases hs
    split at hs
    · cases hs
      exact absurd hz' hanch
    split at hs
    · next hw =>
      cases hs
      rw [hw]
      rfl
    · cases hs
  have hmv := h.move
  generalize hp : s.pc t = p at hmv
  generalize s'.pc t = p' at hmv
  cases hmv with
  | gate hg => exact absurd hg hk
  | unlink => exact hremove _ _ _ _ hp rfl
  | unlinkOnly => exact hremove _ _ _ _ hp rfl

theorem Inv.not_poisoned (h : Inv kind s v) (hq : v.queue ≠ []) : s.word ≠ POISONED_STATE := by
  intro hw
  apply hq
  rw [h.glob.chain.eq_nil_iff, hw]
  decide

theorem Inv.holds_not_poisoned (h : Inv kind s v) (hh : (s.pc t).Holds) :
    s.word ≠ POISONED_STATE := by
  intro hw
  apply h.anchor_ne hh
  rw [hw]
  decide

theorem Inv.poisoned_iff (h : Inv kind s v) :
    s.word = POISONED_STATE ↔ Locked s.word ∧ anchor s.word = 0 := by
  constructor
  · intro hw
    rw [hw]
    decide
  · rintro ⟨hlk, ha⟩
    rcases h.locked hlk with ⟨u, hu⟩ | ⟨-, hw⟩
    · exact absurd ha (h.anchor_ne hu)
    · exact hw

theorem Took.poison_word (h : Took .lock s v t act e s') (hs : step .lock s act = some (e, s')) :
    s'.word = POISONED_STATE ↔ match e with
      | .poison _ => True
      | .clearPoison _ => False
      | _ => s.word = POISONED_STATE := by
  have hp : POISONED_STATE = 64 := rfl
  have hef := h.effect
  have hneither : s.word ≠ POISONED_STATE → s'.word ≠ POISONED_STATE →
      (s'.word = POISONED_STATE ↔ s.word = POISONED_STATE) := fun h₁ h₂ => iff_of_false h₂ h₁
  have hsame : s'.word = s.word → (s'.word = POISONED_STATE ↔ s.word = POISONED_STATE) := by
    intro hw
    rw [hw]
  cases e with
  | acquire x o op =>
    obtain ⟨hlt, hfree, hw⟩ := hef
    have hlt' := free_lt hfree hlt
    exact hneither (by omega) (by omega)
  | release x o op =>
    by_cases hz : anchor s.word = 0 ∨ Locked s.word
    · obtain ⟨ha, -, hlk⟩ := sub_fields (acquired_le_data hef.1)
      rw [← h.release_word hs (by simp) rfl hz] at ha hlk
      rw [h.inv'.poisoned_iff, h.inv.poisoned_iff, ha, hlk]
    · rw [not_or] at hz
      have hq : v.queue ≠ [] := fun hq => hz.1 (h.inv.glob.chain.eq_nil_iff.mp hq)
      exact hneither (h.inv.not_poisoned hq) (h.inv'.not_poisoned hq)
  | push x b op =>
    obtain ⟨-, -, ⟨q, hpc, rfl⟩, -⟩ := hef
    have hl := h.inv.loc x
    rw [hpc] at hl
    exact hneither (hl.fits.2 rfl) (h.inv'.not_poisoned (by simp [View.observe]))
  | countDown x b op =>
    obtain ⟨-, -, ⟨q, i, hpc, -, hg⟩, -⟩ := hef
    have hl := h.inv.loc x
    rw [hpc] at hl
    obtain ⟨-, n, hn⟩ := arrive_fits (hl.reqs q rfl).1 hg
    cases hn
  | last x b =>
    obtain ⟨⟨q, i, hpc, -, hg⟩, -⟩ := hef
    have hl := h.inv.loc x
    rw [hpc] at hl
    obtain ⟨-, n, hn⟩ := arrive_fits (hl.reqs q rfl).1 hg
    cases hn
  | writeBack x c =>
    obtain ⟨⟨q, hpc⟩, -⟩ := hef
    have hl := h.inv.loc x
    rw [hpc] at hl
    obtain ⟨n, hn⟩ := hl.fits
    cases hn
  | lockQueue x =>
    obtain ⟨-, hn, -, hq, -⟩ := hef
    exact hneither (h.inv.not_poisoned hq) (h.inv'.not_poisoned hq)
  | cut x b => exact hsame hef.2
  | tailReset x =>
    obtain ⟨hh, -, hlt, -⟩ := hef
    exact hneither (h.inv.holds_not_poisoned hh) (by omega)
  | grant x tr =>
    obtain ⟨hh, -⟩ := hef
    have hq : v.queue ≠ [] := fun hq => h.inv.anchor_ne hh (h.inv.glob.chain.eq_nil_iff.mp hq)
    exact hneither (h.inv.not_poisoned hq) (h.inv'.not_poisoned hq)
  | unlink x b =>
    obtain ⟨hh, -⟩ := hef
    refine hneither (h.inv.holds_not_poisoned hh) ?_
    by_cases hq : v.queue = [b]
    · rw [h.unlink_word hs (by simp) rfl hq]
      have := data_lt s.word
      omega
    · apply h.inv'.not_poisoned
      intro hnil
      rcases List.erase_eq_nil_iff.mp hnil with hnil | hnil
      · exact h.inv.anchor_ne hh (h.inv.glob.chain.eq_nil_iff.mp hnil)
      · exact hq hnil
  | poison x => exact iff_of_true hef.2.2 trivial
  | clearPoison x =>
    refine iff_of_false ?_ id
    rw [hef.2]
    decide
  | wakeAll => cases hef.1
  | reset => cases hef.1
  | _ => exact hsame hef

/-- Entries get the code they are bound to. -/
def Honours (s : Cfg) (b : Bound) : Prop := ∀ a r, b.code a = some r → Gets s b.view a r

theorem step_honours {b : Bound} (h : Took kind s b.view t act e s') (hk : kind.Grants)
    (hb : Honours s b) : Honours s' (b.observe e) := by
  intro a r hc
  have hold : b.code a = some r → (∀ x c, e ≠ .consume x a c) → (∀ x, e ≠ .dropped x a) →
      Gets s' (b.view.observe e) a r := by
    intro hc h₁ h₂
    refine h.gets (hb a r hc) fun hi => ?_
    rcases stat_ends hi with hi | ⟨x, c, he⟩ | ⟨x, he⟩ | ⟨x, he⟩
    · exact hi
    · exact absurd he (h₁ x c)
    · exact absurd he (h.no_retry hk.no_barrier x a)
    · exact absurd he (h₂ x)
  have hclear : ∀ d, Function.update b.code d none a = some r → b.code a = some r ∧ a ≠ d := by
    intro d hd
    by_cases had : a = d
    · rw [had, Function.update_self] at hd
      cases hd
    · rw [Function.update_of_ne had] at hd
      exact ⟨hd, had⟩
  have hif : ∀ (as : List Ptr) (c : ℕ), (if a ∈ as then some c else b.code a) = some r →
      a ∈ as ∧ c = r ∨ b.code a = some r := by
    intro as c hc
    split at hc
    · next hm => exact Or.inl ⟨hm, Option.some.inj hc⟩
    · exact Or.inr hc
  have hmv := h.move
  generalize s.pc t = p at hmv
  generalize hp' : s'.pc t = p' at hmv
  cases hmv with
  | gate hg => exact absurd hg hk.not_gate
  | last hn => exact absurd hn hk.no_barrier
  | countDown hn => exact absurd hn hk.no_barrier
  | writeBack hn => exact absurd hn hk.no_barrier
  | push => exact hold (hclear _ hc).1 (by simp) (by simp)
  | poll =>
    obtain ⟨hc, hne⟩ := hclear _ hc
    exact hold hc (by simp [hne.symm]) (by simp)
  | consume =>
    obtain ⟨hc, hne⟩ := hclear _ hc
    exact hold hc (by simp [hne.symm]) (by simp)
  | dropIdle =>
    obtain ⟨hc, hne⟩ := hclear _ hc
    exact hold hc (by simp) (by simp [hne.symm])
  | finish =>
    obtain ⟨hc, hne⟩ := hclear _ hc
    exact hold hc (by simp) (by simp [hne.symm])
  | @take _ q =>
    simp only [Bound.observe] at hc
    by_cases ha : a = q.entry
    · rw [ha, Function.update_self] at hc
      cases hc
      exact Or.inr (Or.inl ⟨t, q, hp', ha.symm⟩)
    · rw [Function.update_of_ne ha] at hc
      exact hold hc (by simp) (by simp)
  | update | add =>
    rcases hif (b.view.taken t) ACQUIRED hc with ⟨hm, rfl⟩ | hc
    · exact Or.inl ⟨t, (h.inv.glob.taken t a).mp hm, by rw [hp']; rfl⟩
    · exact hold hc (by simp) (by simp)
  | tailReset =>
    rcases hif b.view.queue ACQUIRED hc with ⟨hm, rfl⟩ | hc
    · refine Or.inl ⟨t, ?_, by rw [hp']; rfl⟩
      simp [Bound.observe, View.observe, View.detach, hm]
    · exact hold hc (by simp) (by simp)
  | poisonFast hw =>
    have hq : b.view.queue = [] := h.inv.glob.chain.eq_nil_iff.mpr (by rw [hw]; decide)
    rcases hif b.view.queue POISONED hc with ⟨hm, -⟩ | hc
    · rw [hq] at hm
      cases hm
    · exact hold hc (by simp) (by simp)
  | poison =>
    rcases hif b.view.queue POISONED hc with ⟨hm, rfl⟩ | hc
    · refine Or.inl ⟨t, ?_, by rw [hp']; rfl⟩
      simp [Bound.observe, View.observe, View.detach, hm]
    · exact hold hc (by simp) (by simp)
  | _ => exact hold hc (by simp) (by simp)

theorem reach_honours (hk : kind.Grants) (hr : Reach kind free s h) : Honours s (bound h) := by
  refine hr.invariant (P := fun s h => Honours s (bound h)) ?_ ?_
  · intro a r hc
    cases hc
  · intro s h act e s' hr ih hok hs
    have htook : Took kind s (bound h).view act.actor act e s' := by
      rw [bound_view]
      exact took (reach_inv hk.not_barrier hr) (reach_inv hk.not_barrier (.step hr hok hs)) hs
    exact step_honours htook hk ih

/-- The word tells whether the lock is poisoned. -/
theorem reach_poisoned (hr : Reach .lock free s h) :
    s.word = POISONED_STATE ↔ poisoned h = true := by
  refine hr.invariant (P := fun s h => s.word = POISONED_STATE ↔ poisoned h = true) ?_ ?_
  · decide
  · intro s h act e s' hr ih hok hs
    have hb : ∀ n, Kind.lock ≠ .barrier n := by simp
    have htook := took (reach_inv hb hr) (reach_inv hb (.step hr hok hs)) hs
    rw [htook.poison_word hs]
    cases e with
    | poison x => exact iff_of_true trivial rfl
    | clearPoison x => exact iff_of_false id (by simp [poisoned])
    | _ => exact ih

theorem Took.stuck (h : Took .lock s v t act e s') (hs : step .lock s act = some (e, s'))
    (hw : s.word = POISONED_STATE) (hc : ∀ x, e ≠ .clearPoison x) :
    s'.word = s.word ∧ (∀ x o op, e ≠ .acquire x o op) ∧ v.served e = [] ∧
      ∀ x b op, e ≠ .push x b op := by
  have hp : POISONED_STATE = 64 := rfl
  have hnil : v.queue = [] := by
    rw [h.inv.glob.chain.eq_nil_iff, hw]
    decide
  have hef := h.effect
  refine ⟨?_, ?_, ?_, ?_⟩
  · have hw' := h.poison_word hs
    cases e with
    | clearPoison x => exact absurd rfl (hc x)
    | poison x => exact (hw'.mpr trivial).trans hw.symm
    | _ => exact (hw'.mpr hw).trans hw.symm
  · rintro x o op rfl
    have hlt := hef.1
    omega
  · cases e with
    | grant x tr => exact absurd hw (h.inv.holds_not_poisoned hef.1)
    | tailReset x => exact hnil
    | _ => rfl
  · rintro x b op rfl
    obtain ⟨-, -, ⟨q, hpc, -⟩, -⟩ := hef
    have hl := h.inv.loc x
    rw [hpc] at hl
    exact hl.fits.2 rfl hw

/-- Poisoning is complete and sticky. In every run of a lock the word is the poisoned state
exactly when the latest of the successful calls of `poison_lock` and `clear_poison` is a
`poison_lock`, and no other word has the flag without an address. While the lock is
poisoned, no step but a `clear_poison` changes the word, nobody acquires directly or
through the queue, and nothing is pushed. An entry that was queued at the poisoning gets
`POISONED`, and one whose count was added before gets `ACQUIRED`: the code is on its way
or stored, and it arrives if the thread that carries it runs on. -/
theorem poisoning_complete_and_sticky (hr : Reach .lock free s h) :
    (s.word = POISONED_STATE ↔ poisoned h = true) ∧
    (Locked s.word → anchor s.word = 0 → poisoned h = true) ∧
    (poisoned h = true → ∀ act e s', step .lock s act = some (e, s') →
      (∀ t, e ≠ .clearPoison t) → s'.word = s.word ∧ (∀ t o op, e ≠ .acquire t o op) ∧
        (view h).served e = [] ∧ ∀ t a op, e ≠ .push t a op) ∧
    ∀ a r, (bound h).code a = some r → Gets s (view h) a r ∧
      ∃ t s' h', Solo .lock t s h s' h' ∧ (view h').stat a = .final ∧ (s'.state a).result = r := by
  have hb : ∀ n, Kind.lock ≠ .barrier n := by simp
  have hi := reach_inv hb hr
  have hword := reach_poisoned hr
  refine ⟨hword, ?_, ?_, ?_⟩
  · intro hlk ha
    exact hword.mp (hi.poisoned_iff.mpr ⟨hlk, ha⟩)
  · intro hpo act e s' hs hc
    have htook := took hi (reach_inv hb (.step hr trivial hs)) hs
    exact htook.stuck hs (hword.mpr hpo) hc
  · intro a r hc
    have hg := reach_honours (Or.inl rfl) hr a r hc
    rw [bound_view] at hg
    exact ⟨hg, hg.delivered hi⟩

end

/-- Thread 0 takes the lock, a pager of thread 1 waits for it, thread 0 poisons the lock. -/
def poisonedWaiter : List Action :=
  [.call 0 (.acquire ⟨.lock .exclusive, .tryOnly, 0⟩), .run 0, .run 0,
    .call 1 (.acquire ⟨.lock .waitExclusive, .pager, 256⟩), .run 1, .run 1, .run 1, .run 1,
    .call 0 .poisonLock, .run 0, .run 0]

theorem poisoning_complete_and_sticky_waiter :
    ∃ s h, exec (system .lock) Kind.lock.initial [] poisonedWaiter = some (s, h) ∧
      s.word = POISONED_STATE ∧ Gets s (view h) 256 POISONED := by
  obtain ⟨s, h, hrun, hpo, hcode⟩ : ∃ s h,
      exec (system .lock) Kind.lock.initial [] poisonedWaiter = some (s, h) ∧
      poisoned h = true ∧ (bound h).code 256 = some POISONED := ⟨_, _, rfl, rfl, rfl⟩
  obtain ⟨hword, -, -, hget⟩ := poisoning_complete_and_sticky (Run.exec .init (admits_free ..) hrun)
  exact ⟨s, h, hrun, hword.mpr hpo, (hget 256 _ hcode).1⟩

end Saa
