import Saa.Flow

/-! # Every step is an edge

One lemma for each function of the machine, and what a step is known to do besides. -/
namespace Saa

open Word Lib.Linked

section
variable {kind : Kind} {s s' x : Cfg} {v : View} {t : Tid} {q : Req} {act : Action} {e : Event}

theorem acquireCall_move (h : Inv kind s v) (hidle : s.pc t = .idle) (hf : q.Fits kind)
    (hs : acquireCall s t q = some (e, s')) :
    Move kind s v t (.call t (.acquire q)) (s.pc t) e (s'.pc t) := by
  rw [hidle]
  cases acquireCall_begun hs with
  | refused =>
    rw [hidle]
    exact .rejected
  | tryOnly htoo hv =>
    rw [goto_pc_self]
    exact .acquire hf htoo fun hne => absurd hv hne
  | bare htoo _ _ _ hsl =>
    rw [goto_pc_self]
    exact .acquire hf htoo fun _ => ⟨h.glob.idle_of_none hsl, by simp [hsl]⟩
  | fresh htoo _ _ hor =>
    rw [goto_pc_self]
    refine .acquire hf htoo fun _ => ?_
    rcases hor with ⟨hsl, -⟩ | ⟨hsl, hpoll⟩
    · exact ⟨h.glob.idle_of_none hsl, by simp [hsl]⟩
    · exact ⟨h.glob.idle_of_unpolled hsl hpoll, by simp [hsl]⟩

theorem callStep_move (h : Inv kind s v) {op : Op} (hs : callStep kind s t op = some (e, s')) :
    Move kind s v t (.call t op) (s.pc t) e (s'.pc t) := by
  unfold callStep at hs
  split at hs
  · cases hs
  next hidle =>
  rw [not_not] at hidle
  have hin : ∀ {p : Pc}, Entrance kind op p →
      Move kind s v t (.call t op) (s.pc t) (.call t op) ((s.goto t p).pc t) := by
    intro p hp
    rw [hidle, goto_pc_self]
    exact .enter hp
  split at hs
  · split at hs
    · next hf => exact acquireCall_move h hidle hf hs
    · cases hs
  · unfold pollCall at hs
    split at hs
    swap
    · cases hs
    next hsl =>
    split at hs
    · next hc =>
      cases hs
      change Move kind s v t _ (s.pc t) _ (s.pc t)
      rw [hidle]
      exact .poll hsl (h.glob.final_of ((h.glob.pagers _ hsl).2.2.1.mp hc.1) hc.2)
    · cases hs
      rw [hidle]
      exact .rejected
  · unfold dropCall at hs
    split at hs
    swap
    · cases hs
    next hsl =>
    split at hs
    · next hp =>
      cases hs
      rw [hidle, goto_pc_self]
      exact .drop hsl ((h.glob.pagers _ hsl).2.2.1.mp hp)
    · next hnp =>
      cases hs
      change Move kind s v t _ (s.pc t) _ (s.pc t)
      rw [hidle]
      refine .dropIdle hsl ?_
      by_contra hi
      exact hnp ((h.glob.pagers _ hsl).2.2.1.mpr hi)
  · cases hs
    exact hin (.releaseLock rfl)
  · cases hs
    exact hin (.releaseShare rfl)
  · cases hs
    exact hin (.poisonLock rfl)
  · cases hs
    exact hin (.clearPoison rfl)
  · cases hs
    exact hin (.release rfl)
  · split at hs
    · cases hs
      exact hin (.releaseMany rfl)
    · cases hs
      rw [hidle]
      exact .rejected
  · cases hs
    exact hin (.gate rfl .permit)
  · cases hs
    exact hin (.gate rfl .reject)
  · cases hs
    exact hin (.gate rfl .open)
  · cases hs
    exact hin (.gate rfl .seal)
  · cases hs
    exact hin (.gate rfl .reset)
  · cases hs

theorem cancelStep_move (h : Inv kind s v) (hs : cancelStep kind s t = some (e, s')) :
    Move kind s v t (.cancel t) (s.pc t) e (s'.pc t) := by
  unfold cancelStep at hs
  split at hs
  swap
  · cases hs
  next q retry hpc =>
  have hl := h.loc t
  rw [hpc] at hl
  split at hs
  swap
  · cases hs
  next hv =>
  rw [if_pos (hl.flagged q.entry (if_neg (by rw [hv]; simp)) rfl)] at hs
  cases hs
  rw [hpc, goto_pc_self]
  exact .cancel hv

theorem acquired_move {p : Pc} {new : ℕ} (hd : Trying p q) :
    Move kind s v t (.run t) p (acquired s t q new).1 ((acquired s t q new).2.pc t) := by
  by_cases hv : q.via = .pager
  · simp only [acquired, hv, goto_pc_self]
    exact .take hd hv
  · have hown : acquired s t q new =
        (.acquire t (.caller t) q.goal.opcode, { s with word := new }.leave t q) := by
      unfold acquired
      split
      · next he => exact absurd he hv
      · rfl
    rw [hown, leave_pc, Function.update_self]
    exact .own hd hv

theorem startStep_move : Move kind s v t (.run t) (.start q) (startStep s t q).1
    ((startStep s t q).2.pc t) := by
  unfold startStep
  split
  · exact acquired_move (.inl rfl)
  split
  · exact acquired_move (.inl rfl)
  · rw [goto_pc_self]
    exact .load

theorem countDown_move {state i : ℕ} (hn : ∃ n, kind = .barrier n) (hg : q.goal = .arrive) :
    Move kind s v t (.run t) (.attempt q state i) (countDown s t q state).1
      ((countDown s t q state).2.pc t) := by
  unfold countDown
  split
  · next h₀ =>
    rw [goto_pc_self]
    exact .waitOnly hn hg h₀
  next h₀ =>
  split
  · next h₁ =>
    split
    · next hw =>
      subst hw
      rw [goto_pc_self]
      exact .last hn hg h₁
    · next hw =>
      rw [goto_pc_self]
      exact .reload hw
  next h₁ =>
  split
  · next hw =>
    subst hw
    rw [goto_pc_self]
    exact .countDown hn hg (by omega)
  · next hw =>
    rw [goto_pc_self]
    exact .reload hw

theorem answered_move {state i r : ℕ} (hg : q.goal ≠ .arrive)
    (hr : q.goal.attempt state = .done r) :
    Move kind s v t (.run t) (.attempt q state i) (answered s t q r).1
      ((answered s t q r).2.pc t) := by
  unfold answered
  split
  · next hv =>
    rw [goto_pc_self]
    exact .answer hg hr hv
  · rw [leave_pc, Function.update_self]
    exact .refuse hg

theorem blocked_move {state i : ℕ} (hg : q.goal ≠ .arrive) (hb : q.goal.attempt state = .blocked) :
    Move kind s v t (.run t) (.attempt q state i) (blocked s t q state).1
      ((blocked s t q state).2.pc t) := by
  unfold blocked
  split
  · rw [leave_pc, Function.update_self]
    exact .refuse hg
  next htry =>
  split
  · rw [goto_pc_self]
    exact .queue hg hb htry
  · rw [goto_pc_self]
    exact .queue hg hb htry

theorem attemptStep_move {state i : ℕ} (hn : q.goal = .arrive → ∃ n, kind = .barrier n) :
    Move kind s v t (.run t) (.attempt q state i) (attemptStep s t q state i).1
      ((attemptStep s t q state i).2.pc t) := by
  unfold attemptStep
  split
  · next hg => exact countDown_move (hn hg) hg
  next hg =>
  split
  · split
    · exact acquired_move (.inr ⟨state, i, rfl⟩)
    · next hw =>
      rw [goto_pc_self]
      exact .reload hw
  · next hr => exact answered_move hg hr
  · next hb =>
    split
    · rw [goto_pc_self]
      exact .spin hg
    · exact blocked_move hg hb

theorem tryPushWaitQueueEntry_move {state : ℕ} :
    Move kind s v t (.run t) (.push q state) (tryPushWaitQueueEntry s t q state).1
      ((tryPushWaitQueueEntry s t q state).2.pc t) := by
  unfold tryPushWaitQueueEntry
  split
  · next hw =>
    subst hw
    rw [goto_pc_self]
    exact .push
  · next hw =>
    rw [goto_pc_self]
    exact .again hw

theorem pushedStep_move {retry : Bool} :
    Move kind s v t (.run t) (.pushed q retry) (pushedStep s t q retry).1
      ((pushedStep s t q retry).2.pc t) := by
  simp only [pushedStep]
  split
  · next hv =>
    rw [leave_pc, Function.update_self]
    exact .registered hv
  · next hv =>
    rw [goto_pc_self]
    exact .wait hv

theorem settledStep_move :
    Move kind s v t (.run t) (.settled q) (settledStep s t q).1 ((settledStep s t q).2.pc t) := by
  simp only [settledStep]
  split
  · next hv =>
    rw [leave_pc, Function.update_self]
    exact .settled hv
  · next hv =>
    rw [goto_pc_self]
    exact .settledWait hv

theorem awaitStep_move (h : Inv kind s v) {retry : Bool} (hpc : s.pc t = .await q retry) :
    Move kind s v t (.run t) (.await q retry) (awaitStep s t q retry).1
      ((awaitStep s t q retry).2.pc t) := by
  have hl := h.loc t
  rw [hpc] at hl
  have hqe : q.held = some q.entry := if_neg (by rcases hl.fits.1 with hv | hv <;> rw [hv] <;> simp)
  unfold awaitStep
  split
  · next hf =>
    have hfin := h.glob.final_of (hl.stat q.entry hqe).1 hf
    split
    · next hr =>
      subst hr
      rw [goto_pc_self]
      exact .retry (arrive_fits (hl.reqs q rfl).1 (hl.fits.2 rfl)).2 hfin
    · next hr =>
      rw [Bool.not_eq_true] at hr
      subst hr
      rw [leave_pc, Function.update_self]
      exact .consume hfin
  · next hf =>
    rw [hpc]
    exact .pending (by simpa using hf)

theorem releaseFast_move {op : Opcode} :
    Move kind s v t (.run t) (.releaseFast op) (releaseFast s t op).1
      ((releaseFast s t op).2.pc t) := by
  cases op with
  | exclusive | shared | semaphore =>
    simp only [releaseFast]
    split
    · rw [goto_pc_self]
      exact .fast
    · rw [goto_pc_self]
      exact .slow
  | barrier | wait =>
    simp only [releaseFast]
    rw [goto_pc_self]
    exact .slow

theorem releaseLoop_move {o : Holder} {op : Opcode} {state : ℕ} :
    Move kind s v t (.run t) (.releaseLoop o op state) (releaseLoop s t o op state).1
      ((releaseLoop s t o op state).2.pc t) := by
  unfold releaseLoop
  split
  · next hc =>
    rw [goto_pc_self]
    exact .unreleased hc
  next hc =>
  rw [not_not] at hc
  split
  · next hw =>
    rw [goto_pc_self]
    exact .reRelease hc hw
  next hw =>
  rw [not_not] at hw
  subst hw
  split
  · next hz =>
    rw [goto_pc_self]
    exact .release hc hz
  · next hz =>
    rw [not_or] at hz
    rw [goto_pc_self]
    exact .releasePass hc hz.1 hz.2 rfl

theorem poisonFast_move :
    Move kind s v t (.run t) .poisonFast (poisonFast s t).1 ((poisonFast s t).2.pc t) := by
  unfold poisonFast
  split
  · next hw =>
    rw [goto_pc_self]
    exact .poisonFast hw
  · rw [goto_pc_self]
    exact .poisonSlow

theorem poisonLockInternal_move {state : ℕ} :
    Move kind s v t (.run t) (.poisonLoop state) (poisonLockInternal s t state).1
      ((poisonLockInternal s t state).2.pc t) := by
  unfold poisonLockInternal
  split
  · rw [goto_pc_self]
    exact .poisonRefuse
  split
  · rw [goto_pc_self]
    exact .poisonReload
  split
  · next hw =>
    subst hw
    rw [goto_pc_self]
    exact .poison
  · rw [goto_pc_self]
    exact .poisonReload

theorem clearPoisonStep_move :
    Move kind s v t (.run t) .clearPoison (clearPoisonStep s t).1
      ((clearPoisonStep s t).2.pc t) := by
  unfold clearPoisonStep
  split
  · rw [goto_pc_self]
    exact .clear
  · rw [goto_pc_self]
    exact .clearRefuse

theorem gateResetStep_move :
    GateMove s v t .gateReset (gateResetStep s t).1 ((gateResetStep s t).2.pc t) := by
  simp only [gateResetStep]
  split
  · next hc =>
    rw [goto_pc_self]
    exact .unchanged hc
  · next hc =>
    rw [goto_pc_self]
    exact .reset hc

theorem gateDropStep_move (h : Inv kind s v) {a : Ptr} (hpc : s.pc t = .gateDrop a) :
    GateMove s v t (.gateDrop a) (gateDropStep s t a).1 ((gateDropStep s t a).2.pc t) := by
  have hl := h.loc t
  rw [hpc] at hl
  unfold gateDropStep
  split
  · next hf =>
    rw [goto_pc_self]
    exact .consumed (h.glob.final_of (hl.stat a rfl).1 hf)
  · next hf =>
    rw [goto_pc_self]
    exact .spurious fun hst => hf (h.glob.final a hst).2

theorem acknowledgeStep_move (h : Inv kind s v) {a : Ptr} (hpc : s.pc t = .acknowledge a) :
    GateMove s v t (.acknowledge a) (acknowledgeStep s t a).1 ((acknowledgeStep s t a).2.pc t) := by
  have hl := h.loc t
  rw [hpc] at hl
  unfold acknowledgeStep
  split
  · next hf =>
    rw [goto_pc_self]
    exact .acknowledged (h.glob.final_of (hl.stat a rfl).1 hf)
  · rw [hpc]
    exact .unanswered

theorem walkStep_move (h : Inv kind s v) {state : ℕ} {cur : Ptr} {k : After}
    (hpc : s.pc t = .walk state cur k) :
    Move kind s v t (.run t) (.walk state cur k) (walkStep s t state cur k).1
      ((walkStep s t state cur k).2.pc t) := by
  have hl := h.loc t
  rw [hpc] at hl
  obtain ⟨newer, done, rest, hs, -⟩ := hl.hold
  unfold walkStep
  rw [if_neg (h.snap_ne hs (a := cur) (by simp))]
  split
  · next hn =>
    rw [goto_pc_self]
    exact .walked hn
  · next hn =>
    rw [goto_pc_self]
    exact .walk hn

theorem relinkStep_move (h : Inv kind s v) {state : ℕ} {head cur : Ptr} {k : After}
    (hpc : s.pc t = .relink state head cur k) :
    Move kind s v t (.run t) (.relink state head cur k) (relinkStep s t state head cur k).1
      ((relinkStep s t state head cur k).2.pc t) := by
  have hl := h.loc t
  rw [hpc] at hl
  obtain ⟨newer, done, rest, hs, -⟩ := hl.hold
  unfold relinkStep
  rw [if_neg (h.snap_ne hs (a := cur) (by simp))]
  split
  · next hn =>
    rw [goto_pc_self]
    exact .relink hn.1
  · rw [goto_pc_self]
    exact .relinked

theorem backStep_move (h : Inv kind s v) {state tr : ℕ} {head cur resolved : Ptr} {k : After}
    (hpc : s.pc t = .back state head cur tr resolved k) :
    Move kind s v t (.run t) (.back state head cur tr resolved k)
      (backStep kind s t state head cur tr resolved k).1
      ((backStep kind s t state head cur tr resolved k).2.pc t) := by
  have hl := h.loc t
  rw [hpc] at hl
  obtain ⟨newer, rest, granted, hs, -⟩ := hl.hold
  unfold backStep
  rw [if_neg (h.snap_ne hs (a := cur) (by simp))]
  split
  · next hg =>
    split
    · next hp =>
      rw [goto_pc_self]
      exact .back hg hp
    · next hp =>
      rw [goto_pc_self]
      exact .backTail hg (not_not.mp hp)
  · next hg =>
    rw [goto_pc_self]
    exact .cut hg

theorem tailResetStep_move {state tr : ℕ} {cur resolved : Ptr} {k : After} :
    Move kind s v t (.run t) (.tailReset state cur tr resolved k)
      (tailResetStep s t state cur tr resolved k).1
      ((tailResetStep s t state cur tr resolved k).2.pc t) := by
  unfold tailResetStep
  split
  · next hw =>
    subst hw
    rw [goto_pc_self]
    exact .tailReset
  · next hw =>
    rw [goto_pc_self]
    exact .tailCut hw

theorem updateStep_move {state tr : ℕ} {head resolved : Ptr} {k : After} :
    Move kind s v t (.run t) (.update state head tr resolved k)
      (updateStep s t state head tr resolved k).1
      ((updateStep s t state head tr resolved k).2.pc t) := by
  unfold updateStep
  split
  · next hd =>
    rw [goto_pc_self]
    exact .update hd
  · next hd =>
    rw [goto_pc_self]
    exact .missed hd

theorem resolveStep_move (h : Inv kind s v) {cur : Ptr} {r n : ℕ} {k : Then}
    (hpc : s.pc t = .resolve cur r n k) :
    Move kind s v t (.run t) (.resolve cur r n k) (resolveStep s t cur r n k).1
      ((resolveStep s t cur r n k).2.pc t) := by
  have hl := h.loc t
  rw [hpc] at hl
  unfold resolveStep
  split
  · next hz =>
    subst hz
    have hnil := hl.taken_nil rfl
    cases k with
    | pass state head k =>
      obtain ⟨newer, seg, hs, -, hlast⟩ := hl.hold
      have hhead : head ≠ 0 := h.snap_ne hs (List.mem_of_getLast? hlast)
      simp only [Then.step, passStart, if_neg hhead, goto_pc_self]
      exact .pass hnil
    | leave k =>
      simp only [Then.step, goto_pc_self]
      exact .leave hnil
    | poisoned =>
      simp only [Then.step, goto_pc_self]
      exact .poisoned
    | woken =>
      simp only [Then.step, goto_pc_self]
      exact .gate hl.fits (.woken hnil)
    | acknowledge a =>
      simp only [Then.step, goto_pc_self]
      exact .gate hl.fits (.woke hnil)
    | writeBack q =>
      simp only [Then.step, goto_pc_self]
      exact .counted hl.fits hnil
    | last q =>
      simp only [Then.step, goto_pc_self]
      exact .arrived hl.fits hnil
  · next hz =>
    obtain ⟨l, htk⟩ := hl.taken.mem_head hz
    rw [goto_pc_self]
    exact .set (by rw [htk]; exact List.mem_cons_self ..)

theorem removeStep_move (h : Inv kind s v) {a cur : Ptr} {found state : ℕ} {again : Bool}
    (hpc : s.pc t = .remove a found state cur again) :
    Move kind s v t (.run t) (.remove a found state cur again)
      (removeStep s t a found state cur again).1
      ((removeStep s t a found state cur again).2.pc t) := by
  have hl := h.loc t
  rw [hpc] at hl
  have hh : (s.pc t).Holds := by rw [hpc]; trivial
  have hef := removeStep_effect h hpc
  have hanch := h.anchor_ne hh
  obtain ⟨newer, seg, hs, hna, ⟨done, rest, rfl, -⟩ | ⟨rfl, rfl, hseg⟩⟩ := hl.hold
  swap
  · have hnq : v.stat a ≠ .queued := by
      rw [ne_eq, ← h.glob.queued, hs.split, List.mem_append]
      exact fun hm => hm.elim hna hseg
    simp only [removeStep, ↓reduceIte, Bool.false_eq_true, removed, hs.locked, passStart,
      goto_pc_self]
    exact .missing hnq
  have hcur := h.snap_ne hs (a := cur) (by simp)
  by_cases hca : cur = a
  swap
  · simp only [removeStep, if_neg hcur, ne_eq, hca, not_false_eq_true, ↓reduceIte]
    split <;> rw [goto_pc_self] <;> exact .seek
  subst hca
  have hst : v.stat cur = .queued := (h.glob.queued cur).mp (hs.mem (by simp))
  have hout : ∀ {w : ℕ}, (¬Locked w → v.queue = [cur]) → Move kind s v t (.run t)
      (.remove cur found state cur again) (.unlink t cur) (removed cur found w true) := by
    intro w hw
    by_cases hlk : Locked w
    · simp only [removed, hlk, ↓reduceIte, passStart]
      exact .unlink hst hlk
    · simp only [removed, hlk, ↓reduceIte, After.pc]
      exact .unlinkOnly (hw hlk)
  unfold removeStep at hef ⊢
  rw [if_neg hcur, if_neg (by simp)] at hef ⊢
  dsimp only at hef ⊢
  split at hef
  · next hz =>
    rw [if_pos hz]
    simp only [goto_pc_self]
    exact hout fun hn => absurd hs.locked hn
  next hz =>
  rw [if_neg hz]
  by_cases hw : s.word = state
  · rw [if_pos hw] at hef ⊢
    simp only [goto_pc_self]
    exact hout hef.2.2
  · rw [if_neg hw, if_neg hanch]
    simp only [goto_pc_self]
    exact .seek

theorem forceRemove_move {a : Ptr} {state : ℕ} :
    Move kind s v t (.run t) (.dropLoop a state) (forceRemove s t a state).1
      ((forceRemove s t a state).2.pc t) := by
  unfold forceRemove
  split
  · next hlk =>
    rw [goto_pc_self]
    exact .dropReload (.inl hlk)
  next hlk =>
  split
  · next hz =>
    rw [goto_pc_self]
    exact .dropGone hlk hz
  next hz =>
  split
  · next hw =>
    subst hw
    rw [goto_pc_self]
    exact .lockQueue hlk hz
  · next hw =>
    rw [goto_pc_self]
    exact .dropReload (.inr ⟨hz, hw⟩)

theorem completeStep_move (h : Inv kind s v) {a : Ptr} {state : ℕ}
    (hpc : s.pc t = .complete a state) :
    Move kind s v t (.run t) (.complete a state) (completeStep s t a state).1
      ((completeStep s t a state).2.pc t) := by
  have hl := h.loc t
  rw [hpc] at hl
  unfold completeStep
  split
  · next hf =>
    rw [goto_pc_self]
    exact .complete (h.glob.final_of (hl.stat a rfl).1 hf)
  · next hf =>
    rw [hpc]
    exact .unresolved (by simpa using hf)

theorem Move.of_some {p : Pc} {x : Event × Cfg} (hm : Move kind s v t act p x.1 (x.2.pc t))
    (hs : some x = some (e, s')) : Move kind s v t act p e (s'.pc t) := by
  cases hs
  exact hm

theorem runStep_move (h : Inv kind s v) (hs : runStep kind s t = some (e, s')) :
    Move kind s v t (.run t) (s.pc t) e (s'.pc t) := by
  have hl := h.loc t
  have hf := hl.fits
  unfold runStep at hs
  cases hpc : s.pc t <;> rw [hpc] at hl hf <;> simp only [hpc, reduceCtorEq] at hs
  case start => exact startStep_move.of_some hs
  case attempt q state i =>
    exact Move.of_some (attemptStep_move fun hg => (arrive_fits (hl.reqs q rfl).1 hg).2) hs
  case push => exact tryPushWaitQueueEntry_move.of_some hs
  case pushed => exact pushedStep_move.of_some hs
  case settle =>
    refine Move.of_some ?_ hs
    rw [goto_pc_self]
    exact .settle
  case settled => exact settledStep_move.of_some hs
  case await => exact (awaitStep_move h hpc).of_some hs
  case writeBack =>
    refine Move.of_some ?_ hs
    simp only [writeBackStep, goto_pc_self]
    exact .writeBack hf
  case releaseFast => exact releaseFast_move.of_some hs
  case releaseLoop => exact releaseLoop_move.of_some hs
  case poisonFast => exact poisonFast_move.of_some hs
  case poisonLoop => exact poisonLockInternal_move.of_some hs
  case clearPoison => exact clearPoisonStep_move.of_some hs
  case wakeAll =>
    refine Move.of_some ?_ hs
    simp only [wakeAllStep, goto_pc_self]
    exact .gate hf.1 .wakeAll
  case gateReset => exact Move.of_some (.gate hf gateResetStep_move) hs
  case gateDrop => exact Move.of_some (.gate hf (gateDropStep_move h hpc)) hs
  case acknowledge => exact Move.of_some (.gate hf (acknowledgeStep_move h hpc)) hs
  case walk => exact (walkStep_move h hpc).of_some hs
  case relink => exact (relinkStep_move h hpc).of_some hs
  case back => exact (backStep_move h hpc).of_some hs
  case tailReset => exact tailResetStep_move.of_some hs
  case update => exact updateStep_move.of_some hs
  case add =>
    refine Move.of_some ?_ hs
    simp only [addStep, goto_pc_self]
    exact .add
  case resolve => exact (resolveStep_move h hpc).of_some hs
  case finalize =>
    refine Move.of_some ?_ hs
    simp only [finalizeStep, goto_pc_self]
    exact .finalize
  case remove => exact (removeStep_move h hpc).of_some hs
  case dropLoad =>
    refine Move.of_some ?_ hs
    rw [goto_pc_self]
    exact .dropLoad
  case dropLoop => exact forceRemove_move.of_some hs
  case complete => exact (completeStep_move h hpc).of_some hs
  case finish =>
    refine Move.of_some ?_ hs
    simp only [finishStep, goto_pc_self]
    exact .finish

/-- Every step follows an edge of the control flow. -/
theorem step_move (h : Inv kind s v) (hs : step kind s act = some (e, s')) :
    Move kind s v act.actor act (s.pc act.actor) e (s'.pc act.actor) := by
  cases act with
  | call t op => exact callStep_move h hs
  | run t => exact runStep_move h hs
  | cancel t => exact cancelStep_move h hs

/-- A step together with what is known about it. -/
structure Took (kind : Kind) (s : Cfg) (v : View) (t : Tid) (act : Action) (e : Event)
    (s' : Cfg) : Prop where
  inv : Inv kind s v
  inv' : Inv kind s' (v.observe e)
  move : Move kind s v t act (s.pc t) e (s'.pc t)
  frame : Frame s v t e s'
  effect : Effect kind s v s' e

def Event.actor : Event → Option Tid
  | .tau => none
  | .call t _ | .refuse t _ | .acquire t _ _ | .release t _ _ | .push t _ _ | .countDown t _ _
  | .last t _ | .writeBack t _ | .lockQueue t | .cut t _ | .tailReset t | .grant t _ | .unlink t _
  | .poison t | .clearPoison t | .wakeAll t _ | .reset t _ | .woke t _ | .setResult t _ _
  | .finalize t _ | .consume t _ _ | .retry t _ | .dropped t _ => some t

theorem Move.actor {p p' : Pc} (hm : Move kind s v t act p e p') :
    e.actor = none ∨ e.actor = some t := by
  cases hm with
  | gate _ hg => cases hg <;> simp [Event.actor]
  | _ => simp [Event.actor]

/-- Nobody does anything in the name of another thread. -/
theorem Took.not_named {u : Tid} {f : Event → Bool} (ht : Took kind s v u act e s') (hu : u ≠ t)
    (hf : ∀ e, f e = true → e.actor = some t) : [e].countP f = 0 := by
  rw [List.countP_singleton, if_neg]
  intro he
  rcases ht.move.actor with hx | hx <;> rw [hf e he] at hx
  · cases hx
  · exact hu (Option.some.inj hx).symm

theorem took (h : Inv kind s v) (h' : Inv kind s' (v.observe e))
    (hs : step kind s act = some (e, s')) : Took kind s v act.actor act e s' :=
  ⟨h, h', step_move h hs, step_frame h hs, step_effect h hs⟩

end
end Saa
