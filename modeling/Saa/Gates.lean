import Saa.Verdict

/-! # Gates and their commands

A gate is driven by `open`, `seal`, `permit`, `reject` and `reset`. The histories below
record which call each thread is in, so that a `wake_all` can be told by its command. -/
namespace Saa

open Word Lib.Linked Lib.Trace

def called : List Event → Tid → Option Op
  | [] => fun _ => none
  | .call t op :: h => Function.update (called h) t (some op)
  | _ :: h => called h

/-- What a command passes to `wake_all`; a dropped pager calls it, too. -/
def Op.wakes : Op → Option (Option GateState × Option GateError)
  | .permit => some (none, none)
  | .reject => some (none, some .rejected)
  | .open => some (some .opened, none)
  | .seal => some (some .sealed, some .sealed)
  | .drop _ => some (none, some .spuriousFailure)
  | _ => none

structure Gating (s : Cfg) (h : List Event) : Prop where
  push : ∀ t q w, s.pc t = .push q w → GateState.ofUsize (data w) = .controlled
  queue : (view h).queue ≠ [] → GateState.ofUsize (data s.word) = .controlled
  wakes : ∀ t nx er k, s.pc t = .wakeAll nx er k →
    ∃ op, called h t = some op ∧ op.wakes = some (nx, er)
  drops : ∀ t a, s.pc t = .gateDrop a → called h t = some (.drop a)

section
variable {s s' : Cfg} {v : View} {h hist : List Event} {t u : Tid} {a : Ptr} {act : Action}
  {e : Event}

theorem called_other (hu : ∀ op, e ≠ .call u op) : called (e :: h) u = called h u := by
  cases e with
  | call t op =>
    have hne : u ≠ t := by
      rintro rfl
      exact hu op rfl
    exact Function.update_of_ne hne _ _
  | _ => rfl

theorem enter_blocked {w : ℕ} (hb : pushWaitQueueEntry w = .blocked) :
    GateState.ofUsize (data w) = .controlled := by
  unfold pushWaitQueueEntry at hb
  split at hb
  · next hc => exact hc
  · cases hb
  · cases hb

theorem gate_goal {q : Req} (h : q.Fits .gate) : q.goal = .enter := by
  obtain ⟨goal, via, entry⟩ := q
  cases goal with
  | enter => rfl
  | _ => exact absurd h id

theorem Took.gate_word (h : Took .gate s v t act e s') :
    (∃ q, s.pc t = .push q s.word ∧ e = .push t q.entry (s.opcode q.entry)) ∨
    (∃ prev, e = .wakeAll t prev) ∨ (∃ prev, e = .reset t prev) ∨
    s'.word = s.word ∧ (v.observe e).queue = v.queue := by
  have hl := h.inv.loc t
  have hef := h.effect
  have hmv := h.move
  generalize s.pc t = p at hmv hl
  generalize s'.pc t = p' at hmv
  have hquiet : s'.word = s.word → (v.observe e).queue = v.queue →
      (∃ q, p = .push q s.word ∧ e = .push t q.entry (s.opcode q.entry)) ∨
      (∃ prev, e = .wakeAll t prev) ∨ (∃ prev, e = .reset t prev) ∨
      s'.word = s.word ∧ (v.observe e).queue = v.queue := fun h₁ h₂ =>
    Or.inr (Or.inr (Or.inr ⟨h₁, h₂⟩))
  cases hmv with
  | @push q => exact Or.inl ⟨q, rfl, rfl⟩
  | gate _ hg =>
    cases hg with
    | wakeAll => exact Or.inr (Or.inl ⟨_, rfl⟩)
    | reset => exact Or.inr (Or.inr (Or.inl ⟨_, rfl⟩))
    | _ => exact hquiet hef rfl
  | own htry | take htry =>
    have hgoal := gate_goal (hl.reqs _ htry.reqs).1
    rw [hgoal] at hef
    exact absurd hef.2.1 id
  | last hn => obtain ⟨n, hn⟩ := hn; cases hn
  | countDown hn => obtain ⟨n, hn⟩ := hn; cases hn
  | writeBack hn => obtain ⟨n, hn⟩ := hn; cases hn
  | fast =>
    rcases hl.fits with ⟨hx, -⟩ | ⟨n, c, hx, -⟩ <;> cases hx
  | release | releasePass => exact absurd rfl hl.fits
  | poisonFast | poison | clear => cases hl.fits
  | cut | tailReset | tailCut | update | add | lockQueue | unlink | unlinkOnly =>
    exact absurd rfl hl.fits
  | _ => exact hquiet hef rfl

theorem Commands.wakes {op : Op} {nx : Option GateState} {er : Option GateError} {k : Then}
    (h : Commands op (.wakeAll nx er k)) : op.wakes = some (nx, er) := by
  cases h <;> rfl

theorem GateState.ofUsize_toNat (g : GateState) : GateState.ofUsize (data g.toNat) = g := by
  cases g <;> decide

theorem Took.woken_state (h : Took .gate s v t act e s') {prev : GateState}
    (he : e = .wakeAll t prev) : prev = GateState.ofUsize (data s.word) ∧
      ∃ nx er k, s.pc t = .wakeAll nx er k ∧
        GateState.ofUsize (data s'.word) = nx.getD (GateState.ofUsize (data s.word)) := by
  subst he
  obtain ⟨-, hprev, nx, er, k, hp, hw⟩ := h.effect
  refine ⟨hprev, nx, er, k, hp, ?_⟩
  rw [hw]
  cases nx with
  | some g => exact g.ofUsize_toNat
  | none =>
    have hlt := data_lt s.word
    rw [Option.getD_none, data_eq (data s.word), Nat.mod_eq_of_lt hlt]

def Pc.Plain : Pc → Prop
  | .push _ _ | .wakeAll _ _ _ | .gateDrop _ => False
  | _ => True

theorem Took.gating_self (h : Took .gate s (view hist) t act e s') (hg : Gating s hist) :
    (∀ q w, s'.pc t = .push q w → GateState.ofUsize (data w) = .controlled) ∧
    (∀ nx er k, s'.pc t = .wakeAll nx er k →
      ∃ op, called (e :: hist) t = some op ∧ op.wakes = some (nx, er)) ∧
    ∀ a, s'.pc t = .gateDrop a → called (e :: hist) t = some (.drop a) := by
  have hl := h.inv.loc t
  have hmv := h.move
  generalize hp : s.pc t = p at hmv hl
  generalize s'.pc t = p' at hmv
  have hplain : p'.Plain → (∀ q w, p' = .push q w → GateState.ofUsize (data w) = .controlled) ∧
      (∀ nx er k, p' = .wakeAll nx er k →
        ∃ op, called (e :: hist) t = some op ∧ op.wakes = some (nx, er)) ∧
      ∀ a, p' = .gateDrop a → called (e :: hist) t = some (.drop a) := by
    intro hb
    refine ⟨?_, ?_, ?_⟩
    · rintro q w rfl
      exact absurd hb id
    · rintro nx er k rfl
      exact absurd hb id
    · rintro a rfl
      exact absurd hb id
  cases hmv with
  | @queue q state i hne hb htry =>
    refine ⟨fun q' w hx => ?_, fun nx er k hx => ?_, fun a hx => ?_⟩ <;> cases hx
    rw [gate_goal (hl.reqs q rfl).1] at hb
    exact enter_blocked hb
  | waitOnly hn => obtain ⟨n, hn⟩ := hn; cases hn
  | drop =>
    refine ⟨fun q w hx => ?_, fun nx er k hx => ?_, fun a hx => ?_⟩ <;> cases hx
    exact Function.update_self ..
  | cancel =>
    refine ⟨fun q w hx => ?_, fun nx er k hx => ?_, fun a hx => ?_⟩ <;> cases hx
    exact Function.update_self ..
  | @enter op _ hin =>
    cases hin with
    | gate _ hc =>
      refine ⟨fun q w hx => ?_, fun nx er k hx => ⟨op, Function.update_self .., ?_⟩, fun a hx => ?_⟩
      · subst hx
        cases hc
      · subst hx
        exact hc.wakes
      · subst hx
        cases hc
    | _ => next hx => cases hx
  | gate _ hm =>
    cases hm with
    | @spurious a =>
      refine ⟨fun q w hx => ?_, fun nx er k hx => ?_, fun a hx => ?_⟩ <;> cases hx
      exact ⟨.drop a, hg.drops t a hp, rfl⟩
    | _ => exact hplain trivial
  | unreleased => exact absurd rfl hl.fits
  | release => exact absurd rfl hl.fits
  | leave => exact absurd rfl hl.fits
  | _ => exact hplain trivial

theorem step_gating (h : Took .gate s (view hist) t act e s') (hg : Gating s hist) :
    Gating s' (e :: hist) := by
  obtain ⟨hpush, hwakes, hdrops⟩ := h.gating_self hg
  have hcall : ∀ u, u ≠ t → called (e :: hist) u = called hist u := by
    intro u hu
    apply called_other
    rintro op rfl
    have hmv := h.move
    generalize s.pc t = p at hmv
    generalize s'.pc t = p' at hmv
    cases hmv with
    | gate _ hm => cases hm
    | _ => exact hu rfl
  constructor
  · intro u q w hp
    by_cases hu : u = t
    · subst hu
      exact hpush q w hp
    · rw [h.frame.pc u hu] at hp
      exact hg.push u q w hp
  · intro hq
    rcases h.gate_word with ⟨q, hp, rfl⟩ | ⟨prev, rfl⟩ | ⟨prev, rfl⟩ | ⟨hw, hqueue⟩
    · rw [h.effect.2.2.2.1]
      exact hg.push t q _ hp
    · exact absurd rfl hq
    · obtain ⟨-, -, hprev, hne, -⟩ := h.effect
      exact absurd (hprev.trans (hg.queue hq)) hne
    · rw [view_cons, hqueue] at hq
      rw [hw]
      exact hg.queue hq
  · intro u nx er k hp
    by_cases hu : u = t
    · subst hu
      exact hwakes nx er k hp
    · rw [h.frame.pc u hu] at hp
      rw [hcall u hu]
      exact hg.wakes u nx er k hp
  · intro u a hp
    by_cases hu : u = t
    · subst hu
      exact hdrops a hp
    · rw [h.frame.pc u hu] at hp
      rw [hcall u hu]
      exact hg.drops u a hp

theorem reach_gating {ok : Guard Cfg Action Event} (hr : Reach .gate ok s h) : Gating s h := by
  refine hr.invariant (P := Gating) ?_ ?_
  · constructor
    · intro t q w hp
      cases hp
    · intro hq
      exact absurd rfl hq
    · intro t nx er k hp
      cases hp
    · intro t a hp
      cases hp
  · intro s h act e s' hr ih hok hs
    have hb : ∀ n, Kind.gate ≠ .barrier n := by simp
    exact step_gating (took (reach_inv hb hr) (reach_inv hb (.step hr hok hs)) hs) ih

end

/-- The specification: the state of a gate as its commands determine it. -/
def gateState : List Event → GateState
  | [] => .controlled
  | .wakeAll t _ :: h => match called h t with
    | some .open => .opened
    | some .seal => .sealed
    | _ => gateState h
  | .reset _ _ :: _ => .controlled
  | _ :: h => gateState h

/-- After the step the gate is in the state its commands determine, callers are queued
exactly when that state is controlled, and a `reset` returned what it should. -/
def Conforms : Guard Cfg Action Event := fun s h act => ∀ e s', step .gate s act = some (e, s') →
  GateState.ofUsize (data s'.word) = gateState (e :: h) ∧
  (pushWaitQueueEntry s'.word = .blocked ↔ gateState (e :: h) = .controlled) ∧
  ∀ t, act = .run t → s.pc t = .gateReset →
    e = if gateState h = .controlled then .refuse t 0 else .reset t (gateState h)

/-- A `reset` meets a gate that is not controlled. -/
def Resets (s : Cfg) : Action → Prop
  | .run t => s.pc t = .gateReset ∧ GateState.ofUsize (data s.word) ≠ .controlled
  | _ => False

section
variable {s s' : Cfg} {v : View} {h hist : List Event} {t u : Tid} {a : Ptr} {act : Action}
  {e : Event} {prev : GateState}

theorem enter_blocked_iff (w : ℕ) :
    pushWaitQueueEntry w = .blocked ↔ GateState.ofUsize (data w) = .controlled := by
  refine ⟨enter_blocked, fun hc => ?_⟩
  rw [pushWaitQueueEntry, hc]

theorem gateState_wakeAll {op : Op} {prev : GateState} {nx : Option GateState}
    {er : Option GateError} (hc : called h t = some op) (hw : op.wakes = some (nx, er)) :
    gateState (.wakeAll t prev :: h) = nx.getD (gateState h) := by
  simp only [gateState, hc]
  cases op <;> cases hw <;> rfl

theorem Took.wakeAll_actor (h : Took .gate s v t act (.wakeAll u prev) s') : u = t := by
  have hmv := h.move
  generalize s.pc t = p at hmv
  generalize s'.pc t = p' at hmv
  cases hmv with
  | gate _ hm =>
    cases hm
    rfl

theorem Took.reset_actor (h : Took .gate s v t act (.reset u prev) s') : act = .run t ∧ u = t := by
  have hmv := h.move
  generalize s.pc t = p at hmv
  generalize s'.pc t = p' at hmv
  cases hmv with
  | gate _ hm =>
    cases hm
    exact ⟨rfl, rfl⟩

/-- Every step but a `reset` with an effect follows the specification. -/
theorem Took.follows (h : Took .gate s (view hist) t act e s') (hg : Gating s hist)
    (hs : GateState.ofUsize (data s.word) = gateState hist) (hr : ∀ x prev, e ≠ .reset x prev) :
    GateState.ofUsize (data s'.word) = gateState (e :: hist) := by
  have hsame : (∀ x b op, e ≠ .push x b op) → (∀ x prev, e ≠ .wakeAll x prev) →
      s'.word = s.word := by
    intro hp hw
    rcases h.gate_word with ⟨q, -, he⟩ | ⟨prev, he⟩ | ⟨prev, he⟩ | ⟨hw, -⟩
    · exact absurd he (hp _ _ _)
    · exact absurd he (hw _ _)
    · exact absurd he (hr _ _)
    · exact hw
  cases e with
  | push x b op =>
    rw [h.effect.2.2.2.1]
    exact hs
  | wakeAll x prev =>
    obtain rfl := h.wakeAll_actor
    obtain ⟨-, nx, er, k, hp, hst⟩ := h.woken_state rfl
    obtain ⟨op, hc, hwk⟩ := hg.wakes x nx er k hp
    rw [hst, gateState_wakeAll hc hwk, hs]
  | reset x prev => exact absurd rfl (hr x prev)
  | _ =>
    rw [hsame (by simp) (by simp)]
    exact hs

theorem Took.reset_word (h : Took .gate s v t act (.reset u prev) s') :
    prev ≠ .controlled ∧ GateState.ofUsize (data s'.word) = prev := by
  obtain ⟨-, -, hprev, hne, hw⟩ := h.effect
  refine ⟨hne, ?_⟩
  have hlt : prev.toNat < 64 := by cases prev <;> decide
  rw [hw, (join_data s.word hlt).2.1]
  have hst := prev.ofUsize_toNat
  rwa [data_eq, Nat.mod_eq_of_lt hlt] at hst

theorem Took.reset_event (h : Took .gate s v t (.run t) e s') (hp : s.pc t = .gateReset) :
    e = if GateState.ofUsize (data s.word) = .controlled then .refuse t 0
      else .reset t (GateState.ofUsize (data s.word)) := by
  have hmv := h.move
  rw [hp] at hmv
  generalize s'.pc t = p' at hmv
  cases hmv with
  | own htry => rcases htry with hx | ⟨_, _, hx⟩ <;> cases hx
  | take htry => rcases htry with hx | ⟨_, _, hx⟩ <;> cases hx
  | gate _ hm =>
    cases hm with
    | unchanged hc => rw [if_pos hc]
    | reset hc => rw [if_neg hc]

/-- Without a `reset` that meets another state than controlled, the state bits are those
of the specification. -/
theorem reach_gateState (hr : Reach .gate (fun s _ act => ¬Resets s act) s h) :
    GateState.ofUsize (data s.word) = gateState h := by
  refine hr.invariant (P := fun s h => GateState.ofUsize (data s.word) = gateState h) rfl ?_
  intro s h act e s' hr ih hok hs
  have hb : ∀ n, Kind.gate ≠ .barrier n := by simp
  have htook := took (reach_inv hb hr) (reach_inv hb (.step hr hok hs)) hs
  apply htook.follows (reach_gating hr) ih
  rintro x prev rfl
  obtain ⟨-, hp, hprev, hne, -⟩ := htook.effect
  obtain ⟨ha, hx⟩ := htook.reset_actor
  rw [ha] at hok
  rw [hx] at hp
  exact hok ⟨hp, hprev ▸ hne⟩

/-- The state of a gate follows its commands, `reset` included, in exactly the runs in
which no `reset` meets a gate that is open or sealed. -/
theorem gate_follows_commands_iff :
    Reach .gate Conforms s h ↔ Reach .gate (fun s _ act => ¬Resets s act) s h := by
  have hb : ∀ n, Kind.gate ≠ .barrier n := by simp
  constructor
  · intro hr
    refine hr.guard fun s h act hr hconf hres => ?_
    cases act with
    | call x op => exact hres
    | cancel x => exact hres
    | run t =>
      obtain ⟨hp, hne⟩ := hres
      obtain ⟨e, s', hs⟩ : ∃ e s', step .gate s (.run t) = some (e, s') :=
        ⟨_, _, by simp only [step, runStep, hp]; rfl⟩
      have hr' : Reach .gate free s' (e :: h) := .step (a := Action.run t) hr.any trivial hs
      have htook := took (reach_inv hb hr) (reach_inv hb hr') hs
      have he := htook.reset_event hp
      rw [if_neg hne] at he
      subst he
      obtain ⟨hst, -⟩ := hconf _ _ hs
      rw [htook.reset_word.2] at hst
      exact hne hst
  · intro hr
    refine hr.guard fun s h act hr hok e s' hs => ?_
    have hr' : Reach .gate (fun s _ act => ¬Resets s act) s' (e :: h) := .step hr hok hs
    have htook := took (reach_inv hb hr) (reach_inv hb hr') hs
    have hst' := reach_gateState hr'
    refine ⟨hst', by rw [enter_blocked_iff, hst'], ?_⟩
    rintro t rfl hp
    rw [← reach_gateState hr]
    exact htook.reset_event hp

end

def sealedReset : List Action :=
  [.call 0 .seal, .run 0, .run 0, .call 0 .reset]

/-- After the `reset` the gate is still sealed. -/
theorem gate_reset_ignored :
    ∃ s h, exec (system .gate) Kind.gate.initial [] sealedReset = some (s, h) ∧
      Reach .gate free s h ∧ ¬Conforms s h (.run 0) := by
  obtain ⟨s, h, e, s', hrun, hs, hst, hspec⟩ : ∃ s h e s',
      exec (system .gate) Kind.gate.initial [] sealedReset = some (s, h) ∧
      step .gate s (.run 0) = some (e, s') ∧ GateState.ofUsize (data s'.word) = .sealed ∧
      gateState (e :: h) = .controlled := ⟨_, _, _, _, rfl, rfl, rfl, rfl⟩
  refine ⟨s, h, hrun, Run.exec .init (admits_free ..) hrun, fun hc => ?_⟩
  have hx := (hc e s' hs).1
  rw [hst, hspec] at hx
  cases hx

end Saa
