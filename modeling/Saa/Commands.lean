import Saa.Solo
import Saa.Tally

/-! # What the commands of a gate return

A command takes whatever waits when it gets to the word, tells everybody its verdict and
returns how many they were. -/
namespace Saa

open Word Lib.Linked Lib.Trace

/-- The values that the commands return. -/
inductive Answer where
  | count (woken : Except GateState ℕ)
  | state (prev : GateState) (woken : ℕ)
  deriving DecidableEq, Repr

/-- `permit`, `reject`, `open` and `seal`, from the pair that `wake_all` returns. -/
def Op.answer : Op → GateState → ℕ → Option Answer
  | .permit, prev, count | .reject, prev, count =>
    some (.count (if prev = .controlled then .ok count else .error prev))
  | .open, prev, count | .seal, prev, count => some (.state prev count)
  | _, _, _ => none

/-- The call that `Gate::drop` makes on the word that it reads. -/
def dropGate (word : ℕ) : Option Op := if anchor word = 0 then none else some .seal

section
variable {s : Cfg} {h : List Event} {t : Tid} {op : Op}

theorem command_alone {nx : Option GateState} {er : Option GateError}
    (hr : Reach .gate free s h) (hp : s.pc t = .wakeAll nx er .woken) :
    ∃ s' h', Solo .gate t s h s' (.woke t (view h).queue.length :: h') ∧ s'.pc t = .idle ∧
      (view h').queue = [] ∧
      GateState.ofUsize (data s'.word) = nx.getD (GateState.ofUsize (data s.word)) ∧
      (∀ a ∈ (view h).queue, (view h').stat a = .final ∧
        s'.state a = ⟨intoU8 (nx.getD (GateState.ofUsize (data s.word))) er, true, true⟩) ∧
      ∀ a ∉ (view h).queue, (view h').stat a = (view h).stat a ∧ s'.state a = s.state a := by
  obtain ⟨s₁, hs, hp₁, hcfg⟩ : ∃ s₁, step .gate s (.run t) =
      some (.wakeAll t (GateState.ofUsize (data s.word)), s₁) ∧
      s₁.pc t = .resolve (anchor s.word) (intoU8 (nx.getD (GateState.ofUsize (data s.word))) er) 0
        .woken ∧ s₁.state = s.state :=
    ⟨(wakeAllStep s t nx er .woken).2, by simp only [step, runStep, hp]; rfl, goto_pc_self .., rfl⟩
  have hi₁ := reach_inv (by simp) (.step (a := Action.run t) hr trivial hs)
  have htook : Took .gate s (view h) t (.run t) _ s₁ := took (reach_inv (by simp) hr) hi₁ hs
  obtain ⟨-, nx', er', k, hp', hstate⟩ := htook.woken_state rfl
  obtain rfl : nx = nx' := by
    rw [hp] at hp'
    injection hp'
  obtain ⟨s₂, h₂, hx, -, hp₂, -, hgive⟩ := resolve_alone hi₁ hp₁
  have htaken : (view (.wakeAll t (GateState.ofUsize (data s.word)) :: h)).taken t =
      (view h).queue := by simp [View.observe, View.detach]
  rw [htaken] at hp₂ hgive
  have hs₂ : step .gate s₂ (.run t) =
      some (.woke t (view h).queue.length, s₂.goto t .idle) := by
    simp [step, runStep, hp₂, resolveStep, Then.step]
  refine ⟨s₂.goto t .idle, h₂, .step hs (hx.trans (.step hs₂ .done)), goto_pc_self .., ?_, ?_, ?_,
    ?_⟩
  · exact hgive.queue
  · rw [goto_word, hgive.word]
    exact hstate
  · intro a ha
    obtain ⟨h₁, h₂⟩ := hgive.given a ha
    exact ⟨h₂, h₁⟩
  · intro a ha
    obtain ⟨h₁, h₂⟩ := hgive.others a ha
    refine ⟨h₂.trans ?_, h₁.trans (by rw [hcfg])⟩
    simp [View.observe, View.detach, ha]

/-- A command that is called in some state, and run alone to its end. -/
structure Commanded (t : Tid) (op : Op) (s : Cfg) (h : List Event) (n : ℕ) (s' : Cfg)
    (h' : List Event) : Prop where
  call : ∃ s₁, step .gate s (.call t op) = some (.call t op, s₁) ∧
    Solo .gate t s₁ (.call t op :: h) s' (.woke t n :: h')
  idle : s'.pc t = .idle

theorem Commands.enters {nx : Option GateState} {er : Option GateError} {k : Then}
    (hc : Commands op (.wakeAll nx er k)) (ht : s.pc t = .idle) : k = .woken ∧
    step .gate s (.call t op) = some (.call t op, s.goto t (.wakeAll nx er .woken)) := by
  cases hc <;> exact ⟨rfl, by simp [step, callStep, ht]⟩

theorem Commands.tells {nx : Option GateState} {er : Option GateError} {k : Then}
    (hc : Commands op (.wakeAll nx er k)) :
    op.tells = some (toResult (intoU8 (nx.getD .controlled) er)) := by
  cases hc <;> rfl

/-- The commands of a gate end, and do what they say. Called in any reachable state by a
thread that is in no call, and run alone, `permit`, `reject`, `open` and `seal` return the
answer for the state they found and the number of entries that were queued; all of these have
the result of the command then, no other entry is touched, and the queue is empty. The assertions of
`permit` and `reject` hold: what they return as an error was counted with nobody waiting. And
`Gate::drop` seals the gate if, and only if, somebody waits. -/
theorem gate_commands (hr : Reach .gate free s h) (ht : s.pc t = .idle) :
    (∀ op nx er k, Commands op (.wakeAll nx er k) → ∃ s' h' x,
      Commanded t op s h (view h).queue.length s' h' ∧
      op.answer (GateState.ofUsize (data s.word)) (view h).queue.length = some x ∧
      (∀ prev, x = .count (.error prev) → (view h).queue = []) ∧ (view h').queue = [] ∧
      GateState.ofUsize (data s'.word) = nx.getD (GateState.ofUsize (data s.word)) ∧
      (∀ a ∈ (view h).queue, (view h').stat a = .final ∧
        op.tells = some (toResult (s'.state a).result)) ∧
      ∀ a ∉ (view h).queue, (view h').stat a = (view h).stat a ∧ s'.state a = s.state a) ∧
    (dropGate s.word = some .seal ↔ (view h).queue ≠ []) := by
  have hgate := (reach_gating hr).queue
  constructor
  · intro op nx er k hc
    obtain ⟨rfl, hs⟩ := hc.enters ht
    have hr₁ : Reach .gate free _ (.call t op :: h) :=
      .step (a := Action.call t op) hr trivial hs
    obtain ⟨s', h', hx, hidle, hnil, hstate, hall, hothers⟩ :=
      command_alone hr₁ (goto_pc_self ..)
    obtain ⟨x, hans, herr⟩ : ∃ x,
        op.answer (GateState.ofUsize (data s.word)) (view h).queue.length = some x ∧
        ∀ prev, x = .count (.error prev) → GateState.ofUsize (data s.word) ≠ .controlled := by
      cases hc with
      | permit | reject =>
        refine ⟨_, rfl, fun prev hx => ?_⟩
        split at hx
        · cases hx
        · assumption
      | _ => exact ⟨_, rfl, fun prev hx => by cases hx⟩
    refine ⟨s', h', x, ⟨⟨_, hs, hx⟩, hidle⟩, hans, fun prev hx => ?_, hnil, hstate, ?_, hothers⟩
    · by_contra hne
      exact herr prev hx (hgate hne)
    · intro a ha
      obtain ⟨hst, hcode⟩ := hall a ha
      refine ⟨hst, ?_⟩
      rw [hcode, hc.tells, goto_word, hgate (List.ne_nil_of_mem ha)]
  · have hchain := (reach_inv (by simp) hr).glob.chain
    unfold dropGate
    split
    · next hz => simp [hchain.eq_nil_iff.mpr hz]
    · next hz => simpa using fun hnil => hz (hchain.eq_nil_iff.mp hnil)

end

def twoAtGate : List Action :=
  [.call 0 (.acquire ⟨.enter, .pager, 256⟩), .run 0, .run 0, .run 0, .run 0,
    .call 1 (.acquire ⟨.enter, .pager, 384⟩), .run 1, .run 1, .run 1, .run 1]

theorem gate_commands_twoAtGate :
    ∃ s h, exec (system .gate) Kind.gate.initial [] twoAtGate = some (s, h) ∧
      (view h).queue = [384, 256] ∧ ∃ s' h', Commanded 2 .reject s h 2 s' h' ∧
        toResult (s'.state 256).result = .error .rejected := by
  obtain ⟨s, h, hrun, hqueue, hidle⟩ : ∃ s h,
      exec (system .gate) Kind.gate.initial [] twoAtGate = some (s, h) ∧
      (view h).queue = [384, 256] ∧ s.pc 2 = .idle := ⟨_, _, rfl, rfl, rfl⟩
  obtain ⟨hall, -⟩ := gate_commands (Run.exec .init (admits_free ..) hrun) hidle
  obtain ⟨s', h', x, hx, -, -, -, -, hres, -⟩ := hall _ _ _ _ .reject
  rw [hqueue] at hx hres
  have htells := (hres 256 (by simp)).2
  exact ⟨s, h, hrun, hqueue, s', h', hx, (Option.some.inj htells).symm⟩

end Saa
