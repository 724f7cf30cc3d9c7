import Saa.Barrier
import Saa.Walks

/-! # Calls get on

How far a call gets on its own and under the interference of others. An acquiring call
starts over only when the word was changed under it. -/
namespace Saa

open Word Lib.Linked Lib.Trace

section
variable {kind : Kind} {s s' : Cfg} {h h' : List Event} {t u : Tid} {q : Req} {act : Action}
  {e : Event} {m : ℕ}

theorem runStep_pc (hs : runStep kind s t = some (e, s')) (hu : u ≠ t) : s'.pc u = s.pc u := by
  have hgoto : ∀ (x : Cfg) (p : Pc), x.pc = s.pc → (x.goto t p).pc u = s.pc u := fun x p hx =>
    goto_frame_pc x hx p u hu
  have hleave : ∀ (x : Cfg) (q : Req), x.pc = s.pc → (x.leave t q).pc u = s.pc u := fun x q hx =>
    leave_frame_pc x hx q u hu
  have hacq : ∀ q new, (acquired s t q new).2.pc u = s.pc u := by
    intro q new
    unfold acquired
    split
    · exact hgoto _ _ rfl
    · exact hleave _ _ rfl
  unfold runStep at hs
  cases hpc : s.pc t <;> simp only [hpc, Option.some.injEq, reduceCtorEq] at hs
  all_goals
    obtain ⟨-, h₂⟩ := Prod.ext_iff.mp hs
    change _ = s' at h₂
    subst h₂
  case start =>
    unfold startStep
    split
    · exact hacq _ _
    split
    · exact hacq _ _
    · exact hgoto _ _ rfl
  case attempt q state spin =>
    unfold attemptStep
    split
    · unfold countDown
      split
      · exact hgoto _ _ (construct_pc ..)
      split
      · split <;> exact hgoto _ _ rfl
      · split <;> exact hgoto _ _ rfl
    split
    · split
      · exact hacq _ _
      · exact hgoto _ _ rfl
    · unfold answered
      split
      · exact hgoto _ _ rfl
      · exact hleave _ _ rfl
    · split
      · exact hgoto _ _ rfl
      unfold blocked
      split
      · exact hleave _ _ rfl
      split
      · exact hgoto _ _ rfl
      · exact hgoto _ _ (construct_pc ..)
  case await =>
    unfold awaitStep
    split
    · split
      · exact hgoto _ _ (construct_pc ..)
      · exact hleave _ _ rfl
    · rfl
  case pushed =>
    simp only [pushedStep]
    split
    · exact hleave _ _ rfl
    · exact hgoto _ _ rfl
  case settled =>
    simp only [settledStep]
    split
    · exact hleave _ _ rfl
    · exact hgoto _ _ rfl
  case releaseFast op =>
    cases op <;> simp only [releaseFast] <;> (try split) <;> exact hgoto _ _ rfl
  case resolve cur r n k =>
    unfold resolveStep
    split
    · cases k <;> exact hgoto _ _ rfl
    · exact hgoto _ _ rfl
  case remove =>
    unfold removeStep
    repeat' split
    all_goals exact hgoto _ _ rfl
  case acknowledge =>
    unfold acknowledgeStep
    split
    · exact hgoto _ _ rfl
    · rfl
  case complete =>
    unfold completeStep
    split
    · exact hgoto _ _ rfl
    · rfl
  case push =>
    unfold tryPushWaitQueueEntry
    split <;> exact hgoto _ _ rfl
  case gateReset =>
    simp only [gateResetStep]
    split <;> exact hgoto _ _ rfl
  case releaseLoop | poisonFast | poisonLoop | clearPoison | gateDrop | walk | relink | back |
      tailReset | update | dropLoop =>
    simp only [releaseLoop, poisonFast, poisonLockInternal, clearPoisonStep, gateDropStep,
      walkStep, relinkStep, backStep, tailResetStep, updateStep, forceRemove]
    repeat' split
    all_goals exact hgoto _ _ rfl
  all_goals exact hgoto _ _ rfl

theorem acquireCall_pc (hs : acquireCall s t q = some (e, s')) (hu : u ≠ t) :
    s'.pc u = s.pc u := by
  cases acquireCall_begun hs with
  | refused => rfl
  | tryOnly | bare => exact goto_frame_pc _ rfl _ u hu
  | fresh => exact goto_frame_pc _ (construct_pc ..) _ u hu

theorem callStep_pc {op : Op} (hs : callStep kind s t op = some (e, s')) (hu : u ≠ t) :
    s'.pc u = s.pc u := by
  have hgoto : ∀ (x : Cfg) (p : Pc), x.pc = s.pc → (x.goto t p).pc u = s.pc u := fun x p hx =>
    goto_frame_pc x hx p u hu
  unfold callStep at hs
  split at hs
  · cases hs
  split at hs
  · split at hs
    · exact acquireCall_pc hs hu
    · cases hs
  · unfold pollCall at hs
    repeat' split at hs
    all_goals cases hs
    all_goals rfl
  · unfold dropCall at hs
    repeat' split at hs
    all_goals cases hs
    · exact hgoto _ _ rfl
    · rfl
  case h_9 =>
    split at hs
    · cases hs
      exact hgoto _ _ rfl
    · cases hs
      rfl
  case h_15 => cases hs
  all_goals
    cases hs
    exact hgoto _ _ rfl

theorem step_pc (hs : step kind s act = some (e, s')) (hu : u ≠ act.actor) :
    s'.pc u = s.pc u := by
  cases act with
  | run t => exact runStep_pc hs hu
  | call t op => exact callStep_pc hs hu
  | cancel t =>
    simp only [step, cancelStep] at hs
    split at hs
    · split at hs
      · split at hs
        · cases hs
          exact goto_frame_pc _ rfl _ u hu
        · cases hs
          exact leave_frame_pc _ rfl _ u hu
      · cases hs
    · cases hs

def stale (w state : ℕ) : ℕ := if state = w then 0 else 1

/-- Steps that an acquiring call can still take when `m` changes of the word are to come: a
round has a load, at most `MAX_SPIN_COUNT` attempts and a push, and another round follows
only on a stale snapshot. -/
def Pc.effort (w m : ℕ) : Pc → ℕ
  | .start _ => 133 * m + 132
  | .attempt _ state i => 133 * (m + stale w state) + (131 - min i MAX_SPIN_COUNT)
  | .push _ state => 133 * (m + stale w state) + 1
  | _ => 0

theorem stale_self (w : ℕ) : stale w w = 0 := if_pos rfl

theorem stale_of_ne {w state : ℕ} (h : w ≠ state) : stale w state = 1 := if_neg (Ne.symm h)

theorem stale_le {w state : ℕ} : stale w state ≤ 1 := by
  unfold stale
  split <;> omega

theorem leave_effort {x : Cfg} {w : ℕ} : ((x.leave t q).pc t).effort w m = 0 := by
  rw [leave_pc, Function.update_self]
  rfl

theorem acquired_effort {new w : ℕ} : ((acquired s t q new).2.pc t).effort w m = 0 := by
  unfold acquired
  split
  · rw [goto_pc_self]
    rfl
  · exact leave_effort

theorem start_effort : ((startStep s t q).2.pc t).effort (startStep s t q).2.word m <
    (Pc.start q).effort s.word m := by
  unfold startStep
  split
  · rw [acquired_effort]
    simp [Pc.effort]
  split
  · rw [acquired_effort]
    simp [Pc.effort]
  · rw [goto_pc_self, goto_word]
    simp [Pc.effort, stale_self]

theorem attempt_pos {state i w : ℕ} : 1 < (Pc.attempt q state i).effort w m := by
  have hm : MAX_SPIN_COUNT = 128 := rfl
  simp only [Pc.effort]
  omega

theorem reload_effort {state i j : ℕ} (hw : s.word ≠ state) :
    (Pc.attempt q s.word j).effort s.word m < (Pc.attempt q state i).effort s.word m := by
  have hm : MAX_SPIN_COUNT = 128 := rfl
  simp only [Pc.effort, stale_self, stale_of_ne hw]
  omega

theorem queue_effort {state i w : ℕ} :
    (Pc.push q state).effort w m < (Pc.attempt q state i).effort w m := by
  have hm : MAX_SPIN_COUNT = 128 := rfl
  simp only [Pc.effort]
  omega

theorem attempt_effort {state i : ℕ} :
    ((attemptStep s t q state i).2.pc t).effort (attemptStep s t q state i).2.word m <
      (Pc.attempt q state i).effort s.word m := by
  have hpos := (@attempt_pos q m state i s.word).trans' Nat.one_pos
  unfold attemptStep
  split
  · unfold countDown
    split
    · rw [goto_pc_self, goto_word, construct_word]
      exact queue_effort
    split
    · split
      · rw [goto_pc_self]
        exact hpos
      · next hw =>
        rw [goto_pc_self, goto_word]
        exact reload_effort hw
    split
    · rw [goto_pc_self]
      exact hpos
    · next hw =>
      rw [goto_pc_self]
      exact reload_effort hw
  split
  · split
    · rw [acquired_effort]
      exact hpos
    · next hw =>
      rw [goto_pc_self, goto_word]
      exact reload_effort hw
  · unfold answered
    split
    · rw [goto_pc_self]
      exact hpos
    · rw [leave_effort]
      exact hpos
  · split
    · next hspin =>
      have hm : MAX_SPIN_COUNT = 128 := rfl
      rw [goto_pc_self, goto_word]
      simp only [Pc.effort]
      omega
    · unfold blocked
      split
      · rw [leave_effort]
        exact hpos
      split
      · rw [goto_pc_self, goto_word]
        exact queue_effort
      · rw [goto_pc_self, goto_word, construct_word]
        exact queue_effort

theorem acquiring_cases {p : Pc} (hp : p.phase = .acquiring) :
    (∃ q, p = .start q) ∨ (∃ q state i, p = .attempt q state i) ∨ ∃ q state, p = .push q state := by
  cases p with
  | start q => exact .inl ⟨q, rfl⟩
  | attempt q state i => exact .inr (.inl ⟨q, state, i, rfl⟩)
  | push q state => exact .inr (.inr ⟨q, state, rfl⟩)
  | resolve _ _ _ k | finalize _ _ _ _ k => cases k <;> cases hp
  | _ => cases hp

/-- Every step of an acquiring call uses up effort. -/
theorem own_effort (hp : (s.pc t).phase = .acquiring) (hs : step kind s (.run t) = some (e, s')) :
    (s'.pc t).effort s'.word m < (s.pc t).effort s.word m := by
  simp only [step, runStep] at hs
  rcases acquiring_cases hp with ⟨q, hpc⟩ | ⟨q, state, i, hpc⟩ | ⟨q, state, hpc⟩ <;>
    rw [hpc] at hs ⊢ <;> obtain rfl : _ = s' := congrArg Prod.snd (Option.some.inj hs)
  · exact start_effort
  · exact attempt_effort
  · unfold tryPushWaitQueueEntry
    split
    · rw [goto_pc_self]
      simp [Pc.effort]
    · next hw =>
      rw [goto_pc_self]
      simp only [Pc.effort, stale_of_ne hw]
      omega

theorem other_effort (hs : step kind s act = some (e, s')) (hu : t ≠ act.actor) :
    (s'.word = s.word → (s'.pc t).effort s'.word m = (s.pc t).effort s.word m) ∧
    (s'.pc t).effort s'.word m ≤ (s.pc t).effort s.word (m + 1) := by
  rw [step_pc hs hu]
  refine ⟨fun hw => by rw [hw], ?_⟩
  cases s.pc t with
  | attempt q state i =>
    have := @stale_le s'.word state
    simp only [Pc.effort]
    omega
  | push q state =>
    have := @stale_le s'.word state
    simp only [Pc.effort]
    omega
  | start q =>
    simp only [Pc.effort]
    omega
  | _ => exact Nat.le_refl _

variable (kind) in
theorem acquiring_enabled (hp : (s.pc t).phase = .acquiring) :
    ∃ e s', step kind s (.run t) = some (e, s') ∧ (s'.pc t).phase ∈ Phase.acquiring.next := by
  simp only [step, runStep]
  rcases acquiring_cases hp with ⟨q, hpc⟩ | ⟨q, state, i, hpc⟩ | ⟨q, state, hpc⟩ <;> rw [hpc]
  · have hm : Move (.barrier 0) s .initial t (.run t) (.start q) _ _ := startStep_move
    exact ⟨(startStep s t q).1, (startStep s t q).2, rfl, hm.phase (by simp)⟩
  · have hm : Move (.barrier 0) s .initial t (.run t) (.attempt q state i) _ _ :=
      attemptStep_move fun _ => ⟨0, rfl⟩
    exact ⟨(attemptStep s t q state i).1, (attemptStep s t q state i).2, rfl, hm.phase (by simp)⟩
  · have hm : Move (.barrier 0) s .initial t (.run t) (.push q state) _ _ :=
      tryPushWaitQueueEntry_move
    exact ⟨(tryPushWaitQueueEntry s t q state).1, (tryPushWaitQueueEntry s t q state).2, rfl,
      hm.phase (by simp)⟩

/-- Alone, an acquiring call returns, queues, or becomes the last arriver of a barrier. -/
theorem acquiring_alone (hp : (s.pc t).phase = .acquiring) : ∃ s' h',
    Solo kind t s h s' h' ∧ (s'.pc t).phase ∈ [.idle, .waiting, .arriving] := by
  -- induction on the effort
  generalize hn : (s.pc t).effort s.word 0 = n
  induction n using Nat.strong_induction_on generalizing s h with
  | _ n ih =>
    obtain ⟨e, s₁, hs, hnext⟩ := acquiring_enabled kind hp
    have hlt : (s₁.pc t).effort s₁.word 0 < (s.pc t).effort s.word 0 := own_effort hp hs
    by_cases hp₁ : (s₁.pc t).phase = .acquiring
    · obtain ⟨s', h', hx, hend⟩ := ih _ (hn ▸ hlt) (h := e :: h) hp₁ rfl
      exact ⟨s', h', .step hs hx, hend⟩
    · refine ⟨s₁, e :: h, .step hs .done, ?_⟩
      simp only [Phase.next, List.mem_cons, List.not_mem_nil, or_false] at hnext ⊢
      tauto

theorem effort_lt {w : ℕ} (hp : (s.pc t).phase = .acquiring) :
    (s.pc t).effort w m < 133 * (m + 2) ∧
    ((∃ q, s.pc t = .start q) → (s.pc t).effort w m < 133 * (m + 1)) := by
  rcases acquiring_cases hp with ⟨q, hpc⟩ | ⟨q, state, i, hpc⟩ | ⟨q, state, hpc⟩ <;>
    rw [hpc] <;> simp only [Pc.effort]
  · omega
  · have := @stale_le w state
    exact ⟨by omega, fun ⟨_, hx⟩ => by cases hx⟩
  · have := @stale_le w state
    exact ⟨by omega, fun ⟨_, hx⟩ => by cases hx⟩

/-- Acquiring calls end under finite interference, in every primitive: in any interleaving in
which the others change the word `m` times, a call takes less than `133 * (m + 1)` steps
from its first access until it returns, has an entry in the queue or knows its result (less
than `133 * (m + 2)` from its middle). It is never stuck on the way, so that it gets there
when it is left alone. -/
theorem acquiring_terminates (hr : Reach kind free s h) (hp : (s.pc t).phase = .acquiring) :
    (∀ n m s' h', Among (system kind) (·.actor = t) (fun s => (s.pc t).phase = .acquiring)
      Cfg.word s h n m s' h' →
      n < 133 * (m + 2) ∧ ((∃ q, s.pc t = .start q) → n < 133 * (m + 1))) ∧
    ∃ s' h', Solo kind t s h s' h' ∧ (s'.pc t).phase ∈ [.idle, .waiting, .arriving] := by
  refine ⟨?_, acquiring_alone hp⟩
  intro n m s' h' hx
  have hrun : ∀ {s act e s'}, (s.pc t).phase = .acquiring → act.actor = t →
      step kind s act = some (e, s') → act = .run t := by
    intro s act e s' hp ha hs
    refine run_only (fun hpc => ?_) (fun q retry hpc => ?_) hs ha
    · rw [hpc] at hp
      cases hp
    · rw [hpc] at hp
      cases hp
  have hle := hx.bound (c := fun m s _ => (s.pc t).effort s.word m)
    (fun _ hb ha hs => own_effort hb (hrun hb ha hs ▸ hs))
    (fun _ hb ha hs hw => ((other_effort hs (Ne.symm ha)).1 hw).le)
    (fun _ hb ha hs => (other_effort hs (Ne.symm ha)).2) hr 0
  obtain ⟨hlt, hstart⟩ := @effort_lt s t m s.word hp
  rw [Nat.add_zero] at hle
  exact ⟨by omega, fun hq => by have := hstart hq; omega⟩

end

def arriving : List Action :=
  [.call 0 (.acquire ⟨.arrive, .sync, 256⟩), .run 0, .run 0, .run 0,
    .call 1 (.acquire ⟨.arrive, .sync, 512⟩), .run 1, .run 1, .run 1,
    .call 2 (.acquire ⟨.arrive, .sync, 768⟩)]

theorem acquiring_terminates_arriving :
    ∃ s h, exec (system (.barrier 3)) (Kind.initial (.barrier 3)) [] arriving = some (s, h) ∧
      (s.pc 2).phase = .acquiring ∧
      ∃ s' h', Solo (.barrier 3) 2 s h s' h' ∧ (s'.pc 2).phase ∈ [.idle, .waiting, .arriving] := by
  obtain ⟨s, h, hrun, hp⟩ : ∃ s h,
      exec (system (.barrier 3)) (Kind.initial (.barrier 3)) [] arriving = some (s, h) ∧
      (s.pc 2).phase = .acquiring := ⟨_, _, rfl, rfl⟩
  have hr := Run.exec .init (admits_free ..) hrun
  exact ⟨s, h, hrun, hp, (acquiring_terminates hr hp).2⟩

section
variable {kind : Kind} {s s' : Cfg} {h h' : List Event} {t : Tid} {e : Event} {v : View} {p p' : Pc}

/-- Where the work at the queue can end. -/
def Pc.outlets : Pc → List After
  | .remove a found _ _ _ => [.finish a, .complete a found]
  | p => p.after.toList

theorem Move.outlets (hm : Move kind s v t (.run t) p e p') (hk : kind.Grants) (hp : p.AtQueue) :
    p'.AtQueue ∧ p'.outlets ⊆ p.outlets ∨ ∃ k ∈ p.outlets, p' = k.pc := by
  have hsame : ∀ {k : After}, p'.AtQueue → p'.outlets = [k] → p.outlets = [k] →
      p'.AtQueue ∧ p'.outlets ⊆ p.outlets ∨ ∃ k ∈ p.outlets, p' = k.pc := by
    intro k h₁ h₂ h₃
    exact .inl ⟨h₁, by rw [h₂, h₃]; exact List.Subset.refl _⟩
  cases hm with
  | gate hg => exact absurd hg hk.not_gate
  | walk | walked | relink | relinked | back | backTail | cut | tailReset | tailCut | update
  | missed | add | pass => exact hsame trivial rfl rfl
  | @set _ _ _ k | @finalize _ _ _ _ k =>
    cases k with
    | pass | leave => exact hsame trivial rfl rfl
    | _ => exact hp.elim
  | @leave _ _ k => exact .inr ⟨k, List.mem_singleton_self _, rfl⟩
  | seek => exact .inl ⟨trivial, List.Subset.refl _⟩
  | missing =>
    refine .inl ⟨trivial, ?_⟩
    simp [Pc.outlets, Pc.after]
  | unlink =>
    refine .inl ⟨trivial, ?_⟩
    simp [Pc.outlets, Pc.after]
  | unlinkOnly => exact .inr ⟨.finish _, by simp [Pc.outlets], rfl⟩
  | own htry | take htry => rcases htry with rfl | ⟨_, _, rfl⟩ <;> exact hp.elim
  | _ => exact hp.elim

theorem leaves_queue (hk : kind.Grants) (hr : Reach kind free s h) (hp : (s.pc t).AtQueue) :
    ∃ s' h', Solo kind t s h s' h' ∧ ∃ k ∈ (s.pc t).outlets, s'.pc t = k.pc := by
  -- induction on the budget
  generalize hn : budget t 0 s (view h) = n
  induction n using Nat.strong_induction_on generalizing s h with
  | _ n ih =>
    obtain ⟨e, s₁, hs⟩ : ∃ e s', step kind s (.run t) = some (e, s') := atQueue_enabled hp
    have hi := reach_inv hk.not_barrier hr
    have hr₁ : Reach kind free s₁ (e :: h) := .step (a := Action.run t) hr trivial hs
    have hlt := own_budget (m := 0) hk hi hp hs
    rcases (step_move hi hs : Move kind s (view h) t (.run t) _ e _).outlets hk hp with
      ⟨hp₁, hsub⟩ | ⟨k, hk', hpc⟩
    · obtain ⟨s', h', hx, k, hk', hpc⟩ := ih _ (hn ▸ hlt) hr₁ hp₁ rfl
      exact ⟨s', h', .step hs hx, k, hsub hk', hpc⟩
    · exact ⟨s₁, e :: h, .step hs .done, k, hk', hpc⟩

end
end Saa
