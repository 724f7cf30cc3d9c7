import Saa.Passes

/-! # The queue invariant of whole runs

`step_inv` is the induction step for every action of every primitive. Locks,
semaphores and gates need nothing else; a barrier needs that its last arriver does not
write the word while a dropped entry is being removed. -/
namespace Saa

open Word Lib.Linked Lib.Trace

/-- The last arriver of a barrier replaces the word although its queue is locked. -/
def Intrudes (s : Cfg) : Action → Prop
  | .run t => match s.pc t with
    | .attempt q state _ => q.goal = .arrive ∧ data state = 1 ∧ s.word = state ∧ Locked s.word
    | .writeBack _ _ => Locked s.word
    | _ => False
  | .call _ _ | .cancel _ => False

section
variable {kind : Kind} {s s' : Cfg} {v : View} {t : Tid} {a : Action} {e : Event}

theorem runStep_inv (h : Inv kind s v) (hi : ¬Intrudes s (.run t))
    (hwb : ∀ q c, s.pc t = .writeBack q c → c < 64) (hs : runStep kind s t = some (e, s')) :
    Inv kind s' (v.observe e) := by
  unfold Intrudes at hi
  unfold runStep at hs
  cases hpc : s.pc t <;> simp only [hpc, Option.some.injEq, reduceCtorEq] at hs hi
  all_goals
    obtain ⟨h₁, h₂⟩ := Prod.ext_iff.mp hs
    change _ = e at h₁
    change _ = s' at h₂
    subst h₁ h₂
  case start => exact startStep_inv h hpc
  case attempt => exact attemptStep_inv h hpc fun h₁ h₂ h₃ h₄ => hi ⟨h₁, h₂, h₃, h₄⟩
  case push => exact push_inv h hpc
  case pushed => exact pushedStep_inv h hpc
  case settle => exact settle_inv h hpc
  case settled => exact settledStep_inv h hpc
  case await => exact awaitStep_inv h hpc
  case writeBack q c => exact writeBackStep_inv h hpc hi (hwb q c hpc)
  case releaseFast => exact releaseFast_inv h hpc
  case releaseLoop => exact releaseLoop_inv h hpc
  case poisonFast => exact poisonFast_inv h hpc
  case poisonLoop => exact poisonLockInternal_inv h hpc
  case clearPoison => exact clearPoisonStep_inv h hpc
  case wakeAll => exact wakeAllStep_inv h hpc
  case gateReset => exact gateResetStep_inv h hpc
  case gateDrop => exact gateDropStep_inv h hpc
  case acknowledge => exact acknowledgeStep_inv h hpc
  case walk => exact walkStep_inv h hpc
  case relink => exact relinkStep_inv h hpc
  case back => exact backStep_inv h hpc
  case tailReset => exact tailResetStep_inv h hpc
  case update => exact updateStep_inv h hpc
  case add => exact addStep_inv h hpc
  case resolve => exact resolveStep_inv h hpc
  case finalize => exact finalizeStep_inv h hpc
  case remove => exact removeStep_inv h hpc
  case dropLoad => exact dropLoad_inv h hpc
  case dropLoop => exact forceRemove_inv h hpc
  case complete => exact completeStep_inv h hpc
  case finish => exact finishStep_inv h hpc

theorem step_inv (h : Inv kind s v) (hi : ¬Intrudes s a)
    (hwb : ∀ t q c, s.pc t = .writeBack q c → c < 64) (hs : step kind s a = some (e, s')) :
    Inv kind s' (v.observe e) := by
  cases a with
  | call t op => exact callStep_inv h hs
  | run t => exact runStep_inv h hi (hwb t) hs
  | cancel t => exact cancelStep_inv h hs

theorem initial_word (kind : Kind) : kind.initialWord < 64 := by
  have hm : DATA_MASK = 63 := by decide
  cases kind <;> simp only [Kind.initialWord, MAX_PERMITS, MAX_TASKS, hm] <;> omega

theorem initial_inv (kind : Kind) : Inv kind kind.initial .initial := by
  obtain ⟨ha, hn⟩ := anchor_of_lt (initial_word kind)
  refine ⟨.of ha ?_ ?_ ?_ fun a => ?_, fun t => ?_, fun hw => absurd hw hn, ?_⟩
  · simp [View.initial]
  · simp [View.initial]
  · simp [View.initial]
  · constructor <;> simp [View.initial, Kind.initial, Stat.setCount]
  · exact .ofIdle (fun a => by simp [Kind.initial]) (fun a => by simp [View.initial]) rfl
  · exact fun t u ht _ => absurd ht id

theorem Inv.not_intrudes (h : Inv kind s v) (hk : ∀ n, kind ≠ .barrier n) : ¬Intrudes s a := by
  cases a with
  | run t =>
    have hl := h.loc t
    simp only [Intrudes]
    cases hp : s.pc t with
    | attempt q state spin =>
      rw [hp] at hl
      rintro ⟨hg, -⟩
      obtain ⟨-, n, hn⟩ := arrive_fits (hl.reqs q rfl).1 hg
      exact hk n hn
    | writeBack q c =>
      rw [hp] at hl
      obtain ⟨n, hn⟩ := hl.fits
      exact absurd hn (hk n)
    | _ => exact id
  | _ => exact id

theorem Inv.no_writeBack (h : Inv kind s v) (hk : ∀ n, kind ≠ .barrier n) {q : Req} {c : ℕ} :
    s.pc t ≠ .writeBack q c := by
  intro hp
  have hl := h.loc t
  rw [hp] at hl
  obtain ⟨n, hn⟩ := hl.fits
  exact hk n hn

/-- The queue invariant holds in every run of a lock, a semaphore or a gate. -/
theorem reach_inv {ok : Guard Cfg Action Event} {h : List Event} (hk : ∀ n, kind ≠ .barrier n)
    (hr : Reach kind ok s h) : Inv kind s (view h) := by
  refine hr.invariant (P := fun s h => Inv kind s (view h)) (initial_inv kind) ?_
  intro s h a e s' _ hi _ hs
  exact step_inv hi (hi.not_intrudes hk) (fun t q c hp => absurd hp (hi.no_writeBack hk)) hs

end

/-- Thread 0 takes the only permit, thread 1 queues for it, and thread 0 hands it over:
the schedule ends when the entry is detached and not resolved yet. -/
def handover : List Action :=
  [.call 0 (.acquire ⟨.permits 1, .tryOnly, 0⟩), .run 0, .run 0,
    .call 1 (.acquire ⟨.permits 1, .sync, 256⟩), .run 1, .run 1, .run 1, .run 1,
    .call 0 .release, .run 0, .run 0, .run 0, .run 0, .run 0]

theorem handover_run :
    ∃ s h, exec (system (.semaphore 1)) (Kind.initial (.semaphore 1)) [] handover = some (s, h) ∧
      s.pc 0 = .resolve 256 0 0 (.leave .returned) ∧ (view h).queue = [] ∧
      (view h).taken 0 = [256] ∧ (view h).stat 256 = .taken 0 ∧ (view h).stat 384 = .idle :=
  ⟨_, _, rfl, rfl, rfl, rfl, rfl, rfl⟩

end Saa
