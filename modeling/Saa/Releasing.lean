import Saa.Walks

/-! # Release calls

A call of `release_lock`, `release_share`, `release` or `release_many`, from its beginning to
its return, with any steps of other threads in between. -/
namespace Saa

open Word Lib.Linked Lib.Trace

/-- What the release calls give back. -/
def Op.unit : Op → Option Opcode
  | .releaseLock => some .exclusive
  | .releaseShare => some .shared
  | .release => some (.semaphore 1)
  | .releaseMany count => some (.semaphore count)
  | _ => none

/-- The data fields that a release call can be served from. -/
def Op.Admits : Op → ℕ → Prop
  | .releaseLock, d => d = 63
  | .releaseShare, d => 1 ≤ d ∧ d ≤ 62
  | .release, d => 1 ≤ d
  | .releaseMany count, d => count ≤ d
  | _, _ => False

/-- What a release call takes off the data field. -/
def Op.amount : Op → ℕ
  | .releaseLock => 63
  | .releaseMany count => count
  | _ => 1

def decrements (t : Tid) (h : List Event) : ℕ :=
  h.countP fun e => match e with
    | .release u _ _ => u = t
    | _ => false

def refusals (t : Tid) (h : List Event) : ℕ :=
  h.countP fun e => match e with
    | .refuse u _ => u = t
    | _ => false

/-- Runs from the beginning of a call of thread `t` on, up to its return at the latest. -/
abbrev During (kind : Kind) (t : Tid) (s₁ : Cfg) : Cfg → List Event → Prop :=
  Run ⟨s₁, step kind⟩ (fun s _ _ => s.pc t ≠ .idle)

/-- How far a release call is. -/
inductive Releasing (t : Tid) (op : Opcode) (seen : ℕ → Prop) : Pc → ℕ → ℕ → Prop where
  | fast : Releasing t op seen (.releaseFast op) 0 0
  | loop {state : ℕ} : seen state → Releasing t op seen (.releaseLoop (.caller t) op state) 0 0
  | processing {p : Pc} : p.Processing → p.entry = none → Releasing t op seen p 1 0
  | released : Releasing t op seen .idle 1 0
  | refused : Releasing t op seen .idle 0 1

section
variable {kind : Kind} {s s' s₀ s₁ : Cfg} {v : View} {t u : Tid} {h h₀ : List Event} {e : Event}
  {act : Action} {op : Op} {opc : Opcode} {seen seen' : ℕ → Prop} {p p' : Pc} {n m : ℕ}

theorem Op.admits_iff (hop : op.unit = some opc) (w : ℕ) :
    op.Admits (data w) ↔ opc.CanRelease w := by
  have hd := data_lt w
  have hm : DATA_MASK = 63 := by decide
  cases op <;> cases hop
  · simp [Op.Admits, Opcode.CanRelease, hm]
  · simp only [Op.Admits, Opcode.CanRelease, hm]
    omega
  · rfl
  · rfl

theorem Op.amount_eq (hop : op.unit = some opc) : op.amount = opc.acquiredCount := by
  cases op <;> cases hop <;> rfl

theorem Releasing.mono (hx : Releasing t opc seen p n m) (hle : ∀ w, seen w → seen' w) :
    Releasing t opc seen' p n m := by
  cases hx with
  | fast => exact .fast
  | loop hs => exact .loop (hle _ hs)
  | processing hp he => exact .processing hp he
  | released => exact .released
  | refused => exact .refused

theorem Releasing.not_await (hx : Releasing t opc seen p n m) {q : Req} {retry : Bool} :
    p ≠ .await q retry := by
  rintro rfl
  cases hx with
  | processing hp => exact hp

theorem Inv.anchor_of_queue {v' : View} (hi : Inv kind s v) (hi' : Inv kind s' v')
    (hq : v'.queue = v.queue) : anchor s'.word = anchor s.word := by
  have hc := hi.glob.chain
  have hc' := hi'.glob.chain
  rw [hq] at hc'
  cases hv : v.queue with
  | nil =>
    rw [hv] at hc hc'
    exact (show _ = _ from hc').trans (show _ = _ from hc).symm
  | cons a l =>
    rw [hv] at hc hc'
    exact hc'.1.trans hc.1.symm

theorem release_first
    (hp : s.pc t = .releaseFast opc ∨ ∃ state, s.pc t = .releaseLoop (.caller t) opc state)
    (hs : step kind s (.run t) = some (e, s')) :
    (∃ o, e = .release t o opc ∧
      (s'.pc t = .idle ∨ (s'.pc t).Processing ∧ (s'.pc t).entry = none)) ∨
    (e = .tau ∧ s' = s.goto t (.releaseLoop (.caller t) opc s.word)) ∨
    (∃ state, s.pc t = .releaseLoop (.caller t) opc state ∧ ¬opc.CanRelease state ∧
      e = .refuse t 0 ∧ s' = s.goto t .idle) := by
  rcases hp with hp | ⟨state, hp⟩
  · simp only [step, runStep, hp, Option.some.injEq] at hs
    cases opc with
    | barrier | wait =>
      cases hs
      exact .inr (.inl ⟨rfl, rfl⟩)
    | exclusive | shared | semaphore =>
      simp only [releaseFast] at hs
      split at hs
      · cases hs
        exact .inl ⟨_, rfl, .inl (goto_pc_self _ _ _)⟩
      · cases hs
        exact .inr (.inl ⟨rfl, rfl⟩)
  · simp only [step, runStep, hp, Option.some.injEq] at hs
    unfold releaseLoop at hs
    split at hs
    · next hcan =>
      cases hs
      exact .inr (.inr ⟨state, hp, hcan, rfl, rfl⟩)
    split at hs
    · cases hs
      exact .inr (.inl ⟨rfl, rfl⟩)
    split at hs
    · cases hs
      exact .inl ⟨_, rfl, .inl (goto_pc_self _ _ _)⟩
    · cases hs
      refine .inl ⟨_, rfl, .inr ?_⟩
      rw [goto_pc_self]
      exact ⟨trivial, rfl⟩

theorem decrements_cons (t : Tid) (e : Event) (h : List Event) :
    decrements t (e :: h) = decrements t h + decrements t [e] := countP_newest ..

theorem refusals_cons (t : Tid) (e : Event) (h : List Event) :
    refusals t (e :: h) = refusals t h + refusals t [e] := countP_newest ..

theorem decrements_append (t : Tid) (g h : List Event) :
    decrements t (g ++ h) = decrements t g + decrements t h := List.countP_append

theorem refusals_append (t : Tid) (g h : List Event) :
    refusals t (g ++ h) = refusals t g + refusals t h := List.countP_append

theorem Took.no_decrement (ht : Took kind s v u act e s') (hu : u ≠ t) : decrements t [e] = 0 :=
  ht.not_named hu fun e he => by cases e <;> simp_all [Event.actor]

theorem Took.no_refusal (ht : Took kind s v u act e s') (hu : u ≠ t) : refusals t [e] = 0 :=
  ht.not_named hu fun e he => by cases e <;> simp_all [Event.actor]

/-- A thread that processes the queue for a release call goes on with it or returns, and
takes nothing more off the data field. -/
theorem processing_step (ht : Took kind s v t (.run t) e s') (hk : kind.Grants)
    (hp : (s.pc t).Processing) (he : (s.pc t).entry = none) :
    (decrements t [e] = 0 ∧ refusals t [e] = 0) ∧
    (s'.pc t = .idle ∨ (s'.pc t).Processing ∧ (s'.pc t).entry = none) ∧
    data s.word ≤ data s'.word := by
  have hmv := ht.move
  have hef := ht.effect
  have hstay : s'.word = s.word → data s.word ≤ data s'.word := fun hw => by rw [hw]
  generalize s.pc t = p at hmv hp he
  generalize s'.pc t = p' at hmv
  cases hmv with
  | gate hg => exact absurd hg hk.not_gate
  | walk | walked | relink | relinked | back | backTail | missed | pass =>
    exact ⟨⟨rfl, rfl⟩, .inr ⟨trivial, he⟩, hstay hef⟩
  | cut | tailCut => exact ⟨⟨rfl, rfl⟩, .inr ⟨trivial, he⟩, hstay hef.2⟩
  | tailReset =>
    obtain ⟨-, hw, hlt, -⟩ := hef
    refine ⟨⟨rfl, rfl⟩, .inr ⟨trivial, he⟩, ?_⟩
    rw [data_eq s'.word]
    omega
  | update | add =>
    obtain ⟨-, -, -, hd, -⟩ := hef
    exact ⟨⟨rfl, rfl⟩, .inr ⟨trivial, he⟩, by omega⟩
  | @set _ _ _ k _ | @finalize _ _ _ _ k =>
    cases k with
    | pass | leave => exact ⟨⟨rfl, rfl⟩, .inr ⟨trivial, he⟩, hstay hef⟩
    | _ => exact hp.elim
  | @leave _ _ k _ =>
    cases k with
    | returned => exact ⟨⟨rfl, rfl⟩, .inl rfl, hstay hef⟩
    | _ => cases he
  | own htry | take htry => rcases htry with rfl | ⟨_, _, rfl⟩ <;> exact hp.elim
  | _ => exact hp.elim

/-- The words that thread `t` has come across since its call began. -/
def Seen (kind : Kind) (t : Tid) (s₁ : Cfg) (h : List Event) (w : ℕ) : Prop :=
  ∃ s₂ h₂, During kind t s₁ s₂ h₂ ∧ h₂ <:+ h ∧ s₂.word = w

theorem Seen.later {w : ℕ} (hx : Seen kind t s₁ h w) : Seen kind t s₁ (e :: h) w := by
  obtain ⟨s₂, h₂, hd, hsub, hw⟩ := hx
  exact ⟨s₂, h₂, hd, hsub.trans (List.suffix_cons e h), hw⟩

theorem during_took {h₁ : List Event} (hk : kind.Grants) (hr : Reach kind free s₁ h₁)
    (hx : During kind t s₁ s h) (hs : step kind s act = some (e, s')) :
    Took kind s (view (h ++ h₁)) act.actor act e s' := by
  have hr' : Reach kind free s (h ++ h₁) := hr.resume hx
  exact took (reach_inv hk.not_barrier hr') (reach_inv hk.not_barrier (.step hr' trivial hs)) hs

/-- In every interleaving, a release call follows its stages. -/
theorem during_releasing {h₁ : List Event} (hk : kind.Grants) (hr : Reach kind free s₁ h₁)
    (hp : s₁.pc t = .releaseFast opc) (hx : During kind t s₁ s h) :
    Releasing t opc (Seen kind t s₁ h) (s.pc t) (decrements t h) (refusals t h) := by
  induction hx with
  | init => exact hp ▸ .fast
  | @step s h act e s' hx hbusy hs ih =>
    have ht := during_took hk hr hx hs
    rw [decrements_cons, refusals_cons]
    by_cases hu : act.actor = t
    swap
    · rw [ht.no_decrement hu, ht.no_refusal hu, ht.frame.pc t (Ne.symm hu)]
      exact ih.mono fun _ => Seen.later
    obtain rfl : act = .run t := run_only hbusy (fun _ _ => ih.not_await) hs hu
    have ht : Took kind s (view (h ++ h₁)) t (.run t) e s' := ht
    have hfirst :
        (s.pc t = .releaseFast opc ∨ ∃ state, s.pc t = .releaseLoop (.caller t) opc state) →
        Releasing t opc (Seen kind t s₁ (e :: h)) (s'.pc t) (0 + decrements t [e])
          (0 + refusals t [e]) := by
      intro hp
      rcases release_first hp hs with ⟨o, rfl, hidle | ⟨hpr, hen⟩⟩ | ⟨rfl, rfl⟩ |
        ⟨_, -, -, rfl, rfl⟩
      · rw [hidle]
        simpa [decrements, refusals] using Releasing.released
      · simpa [decrements, refusals] using Releasing.processing hpr hen
      · rw [goto_pc_self]
        exact .loop ⟨s, h, hx, List.suffix_cons _ h, rfl⟩
      · rw [goto_pc_self]
        simpa [decrements, refusals] using Releasing.refused
    generalize decrements t h = n at ih ⊢
    generalize refusals t h = m at ih ⊢
    generalize hpc : s.pc t = p at ih
    cases ih with
    | fast => exact hfirst (.inl hpc)
    | loop => exact hfirst (.inr ⟨_, hpc⟩)
    | processing hpr hen =>
      obtain ⟨⟨hd, hf⟩, hnext, -⟩ := processing_step ht hk (hpc ▸ hpr) (hpc ▸ hen)
      rw [hd, hf]
      rcases hnext with hidle | ⟨hpr', hen'⟩
      · rw [hidle]
        exact .released
      · exact .processing hpr' hen'
    | released | refused => exact absurd hpc hbusy

theorem release_begins (hop : op.unit = some opc)
    (hs : step kind s₀ (.call t op) = some (e, s₁)) :
    (e = .refuse t 0 ∧ s₁ = s₀ ∧ ∀ w, ¬op.Admits (data w)) ∨
    (e = .call t op ∧ s₁ = s₀.goto t (.releaseFast opc)) := by
  simp only [step, callStep] at hs
  split at hs
  · cases hs
  cases op <;> cases hop <;> cases kind <;> simp only [reduceCtorEq] at hs
  case releaseMany.refl.semaphore count permits =>
    split at hs
    · cases hs
      exact .inr ⟨rfl, rfl⟩
    · next hc =>
      cases hs
      refine .inl ⟨rfl, rfl, fun w hle => ?_⟩
      have hd := data_lt w
      simp only [Op.Admits] at hle
      omega
  all_goals
    cases hs
    exact .inr ⟨rfl, rfl⟩

/-- What a step of the call does before anything is released: it releases the amount of the
call, or it changes nothing; and it refuses only a word that was seen. -/
theorem Took.unreleased (ht : Took kind s v t (.run t) e s') (hop : op.unit = some opc)
    (hs : step kind s (.run t) = some (e, s'))
    (hp : s.pc t = .releaseFast opc ∨ ∃ state, s.pc t = .releaseLoop (.caller t) opc state)
    (hseen : ∀ state, s.pc t = .releaseLoop (.caller t) opc state → seen state) :
    (decrements t [e] = 1 → op.Admits (data s.word) ∧
      data s'.word + op.amount = data s.word ∧ anchor s'.word = anchor s.word) ∧
    (decrements t [e] = 0 → s' = s.goto t (s'.pc t)) ∧
    (refusals t [e] = 1 → ∃ w, seen w ∧ ¬op.Admits (data w)) := by
  rcases release_first hp hs with ⟨o, rfl, -⟩ | ⟨rfl, rfl⟩ | ⟨state, hpc, hcan, rfl, rfl⟩
  · obtain ⟨hcan, hd, -⟩ := ht.effect
    have hle := acquired_le_data hcan
    refine ⟨fun _ => ⟨(Op.admits_iff hop _).mpr hcan, ?_, ?_⟩, ?_, ?_⟩
    · rw [hd, Op.amount_eq hop]
      omega
    · exact ht.inv.anchor_of_queue ht.inv' rfl
    · simp [decrements]
    · simp [refusals]
  · simp [decrements, refusals]
  · refine ⟨by simp [decrements], by simp, fun _ => ⟨state, hseen state hpc, ?_⟩⟩
    rwa [Op.admits_iff hop]

/-- Release calls are atomic. A call is refused at once, or it goes on as follows, whatever
the other threads do in between. It returns `true` after exactly one decrement and `false`
after none. The decrement takes the amount of the call off a data field that admits it and
leaves the address alone; it is the first step of the call that changes anything, and no later
one takes anything off. And the call answers `false` only when it has come across a word whose
data field does not admit it. -/
theorem release_calls_atomic (hk : kind.Grants) (hr : Reach kind free s₀ h₀)
    (hop : op.unit = some opc) (hs₀ : step kind s₀ (.call t op) = some (e, s₁)) :
    (e = .refuse t 0 ∧ s₁ = s₀ ∧ ∀ w, ¬op.Admits (data w)) ∨
    (e = .call t op ∧ ∀ s h, During kind t s₁ s h →
      (s.pc t = .idle → refusals t h = 0 ∧ decrements t h = 1 ∨
        refusals t h = 1 ∧ decrements t h = 0) ∧
      ∀ e s', step kind s (.run t) = some (e, s') →
        (decrements t [e] = 1 → decrements t h = 0 ∧ op.Admits (data s.word) ∧
          data s'.word + op.amount = data s.word ∧ anchor s'.word = anchor s.word) ∧
        (decrements t [e] = 0 → data s.word ≤ data s'.word ∧
          (decrements t h = 0 → s' = s.goto t (s'.pc t))) ∧
        (refusals t [e] = 1 → ∃ w, Seen kind t s₁ h w ∧ ¬op.Admits (data w))) := by
  rcases release_begins hop hs₀ with hno | ⟨rfl, hs₁⟩
  · exact .inl hno
  refine .inr ⟨rfl, fun s h hx => ?_⟩
  have hr₁ : Reach kind free s₁ (.call t op :: h₀) := .step (a := Action.call t op) hr trivial hs₀
  have hst := during_releasing hk hr₁ (by rw [hs₁, goto_pc_self]) hx
  constructor
  · intro hidle
    rw [hidle] at hst
    generalize decrements t h = n at hst
    generalize refusals t h = m at hst
    cases hst with
    | released => exact .inl ⟨rfl, rfl⟩
    | refused => exact .inr ⟨rfl, rfl⟩
    | processing hp => exact hp.elim
  intro e s' hs
  have ht : Took kind s (view (h ++ .call t op :: h₀)) t (.run t) e s' := during_took hk hr₁ hx hs
  generalize decrements t h = n at hst
  generalize refusals t h = m at hst
  generalize hpc : s.pc t = p at hst
  cases hst with
  | fast =>
    obtain ⟨h₁, h₂, h₃⟩ := ht.unreleased hop hs (.inl hpc) fun state hx => by
      rw [hpc] at hx
      cases hx
    refine ⟨fun hd => ⟨rfl, h₁ hd⟩, fun hd => ⟨?_, fun _ => h₂ hd⟩, h₃⟩
    rw [h₂ hd, goto_word]
  | loop hseen =>
    obtain ⟨h₁, h₂, h₃⟩ := ht.unreleased hop hs (.inr ⟨_, hpc⟩) fun state hx => by
      rw [hpc] at hx
      cases hx
      exact hseen
    refine ⟨fun hd => ⟨rfl, h₁ hd⟩, fun hd => ⟨?_, fun _ => h₂ hd⟩, h₃⟩
    rw [h₂ hd, goto_word]
  | processing hpr hen =>
    obtain ⟨⟨hd, hf⟩, -, hle⟩ := processing_step ht hk (hpc ▸ hpr) (hpc ▸ hen)
    rw [hd, hf]
    exact ⟨by simp, fun _ => ⟨hle, by simp⟩, by simp⟩
  | released | refused => simp [step, runStep, hpc] at hs

end

/-- Thread 0 holds the only permit of a semaphore while two threads wait, and gives it back. -/
theorem release_calls_atomic_lined :
    ∃ s₀ h₀ s₁ s, exec (system (.semaphore 1)) (Kind.initial (.semaphore 1)) []
        (lined.take 13) = some (s₀, h₀) ∧
      step (.semaphore 1) s₀ (.call 0 .release) = some (.call 0 .release, s₁) ∧
      step (.semaphore 1) s₁ (.run 0) = some (.tau, s) ∧
      ∀ e s', step (.semaphore 1) s (.run 0) = some (e, s') → decrements 0 [e] = 1 →
        data s'.word + 1 = data s.word ∧ anchor s'.word = anchor s.word := by
  obtain ⟨s₀, h₀, s₁, s, hrun, hcall, hload⟩ : ∃ s₀ h₀ s₁ s,
      exec (system (.semaphore 1)) (Kind.initial (.semaphore 1)) [] (lined.take 13) =
        some (s₀, h₀) ∧
      step (.semaphore 1) s₀ (.call 0 .release) = some (.call 0 .release, s₁) ∧
      step (.semaphore 1) s₁ (.run 0) = some (.tau, s) := ⟨_, _, _, _, rfl, rfl, rfl⟩
  refine ⟨s₀, h₀, s₁, s, hrun, hcall, hload, fun e s' hs hd => ?_⟩
  rcases release_calls_atomic (.inr ⟨1, rfl⟩) (Run.exec .init (admits_free ..) hrun) rfl hcall with
    ⟨hx, -⟩ | ⟨-, hall⟩
  · cases hx
  · have hbusy : s₁.pc 0 ≠ .idle := by
      intro hidle
      simp [step, runStep, hidle] at hload
    obtain ⟨-, hown⟩ := hall s [.tau] (.step (a := Action.run 0) .init hbusy hload)
    obtain ⟨-, -, hsub, hanchor⟩ := (hown e s' hs).1 hd
    exact ⟨hsub, hanchor⟩

end Saa
