import Saa.Frame

/-! # Nobody touches an entry that its owner took back

The memory of an entry is gone, or belongs to a pager again, once its result was
consumed or its drop finished. Overwriting such an entry with arbitrary values commutes
with every step of every other thread: no step reads it and no step writes it. -/
namespace Saa

open Word Lib.Linked Lib.Trace

structure Cell where
  next : Ptr
  prev : Ptr
  opcode : Opcode
  state : EntryState
  pollable : Bool

/-- Overwrites one entry. -/
def Cfg.scribble (s : Cfg) (b : Ptr) (c : Cell) : Cfg :=
  { s with
    next := Function.update s.next b c.next
    prev := Function.update s.prev b c.prev
    opcode := Function.update s.opcode b c.opcode
    state := Function.update s.state b c.state
    pollable := Function.update s.pollable b c.pollable }

/-- The same step, with the entry overwritten afterwards. -/
def overwritten (b : Ptr) (c : Cell) (x : Event × Cfg) : Event × Cfg := (x.1, x.2.scribble b c)

/-- The action is taken by the owner of the entry: it borrows the entry, or its call does. -/
def Action.Owns (s : Cfg) (b : Ptr) : Action → Prop
  | .call _ (.acquire q) => q.held = some b
  | .call _ (.poll a) | .call _ (.drop a) => a = b
  | .call _ _ => False
  | .run t | .cancel t => (s.pc t).entry = some b

section
variable {kind : Kind} {s : Cfg} {v : View} {t : Tid} {q : Req} {a b : Ptr} {c : Cell} {p : Pc}

@[simp] theorem scribble_word : (s.scribble b c).word = s.word := rfl
@[simp] theorem scribble_slot : (s.scribble b c).slot = s.slot := rfl
@[simp] theorem scribble_pc : (s.scribble b c).pc = s.pc := rfl

theorem scribble_next (h : a ≠ b) : (s.scribble b c).next a = s.next a :=
  Function.update_of_ne h _ _

theorem scribble_prev (h : a ≠ b) : (s.scribble b c).prev a = s.prev a :=
  Function.update_of_ne h _ _

theorem scribble_opcode (h : a ≠ b) : (s.scribble b c).opcode a = s.opcode a :=
  Function.update_of_ne h _ _

theorem scribble_state (h : a ≠ b) : (s.scribble b c).state a = s.state a :=
  Function.update_of_ne h _ _

theorem scribble_pollable (h : a ≠ b) : (s.scribble b c).pollable a = s.pollable a :=
  Function.update_of_ne h _ _

theorem goto_scribble : (s.scribble b c).goto t p = (s.goto t p).scribble b c := rfl

theorem word_scribble {w : ℕ} :
    { s.scribble b c with word := w } = { s with word := w }.scribble b c := rfl

theorem leave_scribble : (s.scribble b c).leave t q = (s.leave t q).scribble b c := by
  unfold Cfg.leave
  cases q.via <;> rfl

theorem construct_scribble {op : Opcode} {had : Bool} (h : a ≠ b) :
    (s.scribble b c).construct a op had = (s.construct a op had).scribble b c := by
  cases had <;> simp only [Cfg.construct, Cfg.scribble, Bool.false_eq_true, ↓reduceIte,
    Function.update_comm h.symm]

theorem setResult_scribble {r : ℕ} (h : a ≠ b) :
    (s.scribble b c).setResult a r = (s.setResult a r).scribble b c := by
  simp only [Cfg.setResult, scribble_state h]
  simp only [Cfg.scribble, Function.update_comm h.symm]

theorem setFinalized_scribble (h : a ≠ b) :
    (s.scribble b c).setFinalized a = (s.setFinalized a).scribble b c := by
  simp only [Cfg.setFinalized, scribble_state h]
  simp only [Cfg.scribble, Function.update_comm h.symm]

theorem consume_scribble (h : a ≠ b) :
    (s.scribble b c).consume a = (s.consume a).scribble b c := by
  simp only [Cfg.consume, Cfg.scribble, Function.update_comm h.symm]

theorem acquired_scribble {new : ℕ} :
    acquired (s.scribble b c) t q new = overwritten b c (acquired s t q new) := by
  unfold acquired
  rw [word_scribble]
  cases q.via <;> simp only [overwritten, leave_scribble, goto_scribble]

theorem answered_scribble {r : ℕ} :
    answered (s.scribble b c) t q r = overwritten b c (answered s t q r) := by
  unfold answered
  split <;> simp only [overwritten, leave_scribble, goto_scribble]

theorem blocked_scribble {state : ℕ} (h : q.via ≠ .tryOnly → q.entry ≠ b) :
    blocked (s.scribble b c) t q state = overwritten b c (blocked s t q state) := by
  unfold blocked
  split
  · simp only [overwritten, leave_scribble]
  next htry =>
  rw [construct_scribble (h htry)]
  split <;> simp only [overwritten, goto_scribble]

theorem startStep_scribble :
    startStep (s.scribble b c) t q = overwritten b c (startStep s t q) := by
  unfold startStep
  rw [scribble_word, acquired_scribble, acquired_scribble]
  split
  · rfl
  · split <;> rfl

theorem countDown_scribble {state : ℕ} (h : q.entry ≠ b) :
    countDown (s.scribble b c) t q state = overwritten b c (countDown s t q state) := by
  unfold countDown
  rw [scribble_word, construct_scribble h, scribble_opcode h]
  split
  · rfl
  split
  · split <;> rfl
  split <;> simp only [overwritten, Cfg.scribble, Cfg.goto, Function.update_comm h.symm]

theorem attemptStep_scribble {state spin : ℕ} (h : q.via ≠ .tryOnly → q.entry ≠ b)
    (hg : q.goal = .arrive → q.via ≠ .tryOnly) :
    attemptStep (s.scribble b c) t q state spin =
      overwritten b c (attemptStep s t q state spin) := by
  unfold attemptStep
  split
  · next ha => exact countDown_scribble (h (hg ha))
  split
  · rw [scribble_word, acquired_scribble]
    split <;> rfl
  · exact answered_scribble
  · rw [blocked_scribble h]
    split <;> rfl

theorem push_scribble {state : ℕ} (h : q.entry ≠ b) :
    tryPushWaitQueueEntry (s.scribble b c) t q state =
      overwritten b c (tryPushWaitQueueEntry s t q state) := by
  unfold tryPushWaitQueueEntry
  rw [scribble_word, scribble_opcode h]
  split <;> simp only [overwritten, Cfg.scribble, Cfg.goto, Function.update_comm h.symm]

theorem pushedStep_scribble {retry : Bool} (h : q.entry ≠ b) :
    pushedStep (s.scribble b c) t q retry = overwritten b c (pushedStep s t q retry) := by
  have hf : { s.scribble b c with
      pollable := Function.update (s.scribble b c).pollable q.entry true } =
      { s with pollable := Function.update s.pollable q.entry true }.scribble b c := by
    simp only [Cfg.scribble, Function.update_comm h.symm]
  simp only [pushedStep, hf, leave_scribble, goto_scribble]
  split <;> rfl

theorem settledStep_scribble (h : q.entry ≠ b) :
    settledStep (s.scribble b c) t q = overwritten b c (settledStep s t q) := by
  simp only [settledStep, setFinalized_scribble h, leave_scribble, goto_scribble]
  split <;> rfl

theorem awaitStep_scribble {retry : Bool} (h : q.entry ≠ b) :
    awaitStep (s.scribble b c) t q retry = overwritten b c (awaitStep s t q retry) := by
  unfold awaitStep
  rw [scribble_state h, consume_scribble h, construct_scribble h, leave_scribble]
  split
  · split <;> rfl
  · rfl

theorem walkStep_scribble {state : ℕ} {cur : Ptr} {k : After} (h : cur ≠ b)
    (hn : s.next cur ≠ 0 → s.next cur ≠ b) :
    walkStep (s.scribble b c) t state cur k = overwritten b c (walkStep s t state cur k) := by
  unfold walkStep
  rw [scribble_next h]
  split
  · rfl
  split
  · rfl
  · next hz => simp only [overwritten, Cfg.scribble, Cfg.goto, Function.update_comm (hn hz).symm]

theorem relinkStep_scribble {state : ℕ} {head cur : Ptr} {k : After} (h : cur ≠ b)
    (hn : s.next cur ≠ 0 → s.next cur ≠ b) :
    relinkStep (s.scribble b c) t state head cur k =
      overwritten b c (relinkStep s t state head cur k) := by
  unfold relinkStep
  rw [scribble_next h]
  split
  · rfl
  by_cases hz : s.next cur = 0
  · simp only [hz, ne_eq, not_true_eq_false, false_and, ↓reduceIte]
    rfl
  · rw [scribble_prev (hn hz)]
    split
    · simp only [overwritten, Cfg.scribble, Cfg.goto, Function.update_comm (hn hz).symm]
    · rfl

theorem backStep_scribble {state : ℕ} {head cur resolved : Ptr} {tr : ℕ} {k : After}
    (h : cur ≠ b) :
    backStep kind (s.scribble b c) t state head cur tr resolved k =
      overwritten b c (backStep kind s t state head cur tr resolved k) := by
  unfold backStep
  rw [scribble_opcode h, scribble_prev h]
  split
  · rfl
  split
  · split <;> rfl
  · simp only [overwritten, Cfg.scribble, Cfg.goto, Function.update_comm h.symm]

theorem tailResetStep_scribble {state : ℕ} {cur resolved : Ptr} {tr : ℕ} {k : After}
    (h : cur ≠ b) :
    tailResetStep (s.scribble b c) t state cur tr resolved k =
      overwritten b c (tailResetStep s t state cur tr resolved k) := by
  unfold tailResetStep
  rw [scribble_word, scribble_opcode h]
  split
  · rfl
  · simp only [overwritten, Cfg.scribble, Cfg.goto, Function.update_comm h.symm]

theorem updateStep_scribble {state : ℕ} {head resolved : Ptr} {tr : ℕ} {k : After} :
    updateStep (s.scribble b c) t state head tr resolved k =
      overwritten b c (updateStep s t state head tr resolved k) := by
  unfold updateStep
  rw [scribble_word]
  split <;> rfl

theorem resolveStep_scribble {cur : Ptr} {r n : ℕ} {k : Then} (h : cur ≠ 0 → cur ≠ b) :
    resolveStep (s.scribble b c) t cur r n k = overwritten b c (resolveStep s t cur r n k) := by
  unfold resolveStep
  split
  · cases k <;> rfl
  · next hz =>
    rw [setResult_scribble (h hz), scribble_next (h hz)]
    rfl

theorem releaseLoop_scribble {o : Holder} {op : Opcode} {state : ℕ} :
    releaseLoop (s.scribble b c) t o op state = overwritten b c (releaseLoop s t o op state) := by
  unfold releaseLoop
  rw [scribble_word]
  split
  · rfl
  split
  · rfl
  split <;> rfl

theorem releaseFast_scribble {op : Opcode} :
    releaseFast (s.scribble b c) t op = overwritten b c (releaseFast s t op) := by
  unfold releaseFast
  rw [scribble_word]
  cases op <;> dsimp only <;> (try split) <;> rfl

theorem poisonLockInternal_scribble {state : ℕ} :
    poisonLockInternal (s.scribble b c) t state =
      overwritten b c (poisonLockInternal s t state) := by
  unfold poisonLockInternal
  rw [scribble_word]
  split
  · rfl
  split
  · rfl
  split <;> rfl

theorem removeStep_scribble {cur : Ptr} {found state : ℕ} {again : Bool} (ha : a ≠ b)
    (h : cur ≠ 0 → cur ≠ b) (hn : cur ≠ 0 → s.next cur ≠ 0 → s.next cur ≠ b)
    (hp : cur = a → s.prev a ≠ 0 → s.prev a ≠ b) :
    removeStep (s.scribble b c) t a found state cur again =
      overwritten b c (removeStep s t a found state cur again) := by
  unfold removeStep
  by_cases hz : cur = 0
  · simp only [hz, ↓reduceIte]
    split <;> rfl
  simp only [hz, ↓reduceIte, scribble_next (h hz), scribble_next ha, scribble_prev ha,
    scribble_word]
  by_cases hca : cur = a
  swap
  · simp only [ne_eq, hca, not_false_eq_true, ↓reduceIte]
    split
    · rfl
    · next hz' => simp only [overwritten, Cfg.scribble, Cfg.goto,
        Function.update_comm (hn hz hz').symm]
  subst hca
  simp only [ne_eq, not_true_eq_false, ↓reduceIte]
  by_cases hz' : s.next cur = 0 <;> simp only [hz', ↓reduceIte] <;> split
  · next hpz => simp only [overwritten, Cfg.scribble, Cfg.goto,
      Function.update_comm (hp rfl hpz).symm]
  · split
    · rfl
    · split <;> rfl
  · next hpz =>
    simp only [overwritten, Cfg.scribble, Cfg.goto, Function.update_comm (hp rfl hpz).symm,
      Function.update_comm (hn hz hz').symm]
  · split
    · simp only [overwritten, Cfg.scribble, Cfg.goto, Function.update_comm (hn hz hz').symm]
    · split <;>
        simp only [overwritten, Cfg.scribble, Cfg.goto, Function.update_comm (hn hz hz').symm]

theorem forceRemove_scribble {state : ℕ} :
    forceRemove (s.scribble b c) t a state = overwritten b c (forceRemove s t a state) := by
  unfold forceRemove
  rw [scribble_word]
  split
  · rfl
  split
  · rfl
  split <;> rfl

theorem Inv.queued_ne (h : Inv kind s v) (hb : v.stat b = .idle) {x : Ptr} (hx : x ∈ v.queue) :
    x ≠ b := by
  rintro rfl
  rw [(h.glob.queued x).mp hx] at hb
  cases hb

theorem Inv.next_ne (h : Inv kind s v) (hb : v.stat b = .idle) {x : Ptr} (hx : x ∈ v.queue)
    (hz : s.next x ≠ 0) : s.next x ≠ b := by
  obtain ⟨l₁, l₂, hq⟩ := List.append_of_mem hx
  have hc := h.glob.chain
  rw [hq] at hc
  cases l₂ with
  | nil => exact absurd hc.next_last hz
  | cons y l₂ =>
    refine h.queued_ne hb ?_
    rw [hc.next_eq, hq]
    simp

theorem runStep_scribble (h : Inv kind s v) (hb : v.stat b = .idle)
    (ho : (s.pc t).entry ≠ some b) :
    runStep kind (s.scribble b c) t = (runStep kind s t).map (overwritten b c) := by
  have hl := h.loc t
  have hown : ∀ x, (s.pc t).entry = some x → x ≠ b := by
    rintro x hx rfl
    exact ho hx
  unfold runStep
  rw [scribble_pc]
  cases hpc : s.pc t <;> rw [hpc] at hown hl <;> simp only [Option.map_none, Option.map_some]
  case start => rw [startStep_scribble]
  case attempt q state spin =>
    rw [attemptStep_scribble (fun htry => hown _ (if_neg htry))]
    intro hg
    obtain ⟨hv | hv, -⟩ := arrive_fits (hl.reqs q rfl).1 hg <;> rw [hv] <;> simp
  case push q state => rw [push_scribble (hown _ (if_neg hl.fits.1))]
  case pushed q retry => rw [pushedStep_scribble (hown _ (if_neg hl.fits.1))]
  case settle q r =>
    rw [setResult_scribble (hown _ (if_neg hl.fits))]
    rfl
  case settled q => rw [settledStep_scribble (hown _ (if_neg hl.fits))]
  case await q retry =>
    rw [awaitStep_scribble (hown _ (if_neg ?_))]
    rcases hl.fits.1 with hv | hv <;> rw [hv] <;> simp
  case writeBack => rfl
  case releaseFast => rw [releaseFast_scribble]
  case releaseLoop => rw [releaseLoop_scribble]
  case poisonFast =>
    unfold poisonFast
    rw [scribble_word]
    split <;> rfl
  case poisonLoop => rw [poisonLockInternal_scribble]
  case clearPoison =>
    unfold clearPoisonStep
    rw [scribble_word]
    split <;> rfl
  case wakeAll => rfl
  case gateReset =>
    unfold gateResetStep
    rw [scribble_word]
    dsimp only
    split <;> rfl
  case gateDrop a =>
    unfold gateDropStep
    rw [scribble_state (hown a rfl), consume_scribble (hown a rfl)]
    split <;> rfl
  case acknowledge a =>
    unfold acknowledgeStep
    rw [scribble_state (hown a rfl), consume_scribble (hown a rfl)]
    split <;> rfl
  case walk state cur k =>
    obtain ⟨newer, done, rest, hs, -⟩ := hl.hold
    have hm : cur ∈ v.queue := hs.mem (by simp)
    rw [walkStep_scribble (h.queued_ne hb hm) (h.next_ne hb hm)]
  case relink state head cur k =>
    obtain ⟨newer, done, rest, hs, -⟩ := hl.hold
    have hm : cur ∈ v.queue := hs.mem (by simp)
    rw [relinkStep_scribble (h.queued_ne hb hm) (h.next_ne hb hm)]
  case back state head cur tr res k =>
    obtain ⟨newer, rest, granted, hs, -⟩ := hl.hold
    rw [backStep_scribble (h.queued_ne hb (hs.mem (by simp)))]
  case tailReset state cur tr res k =>
    obtain ⟨newer, granted, hs, -⟩ := hl.hold
    rw [tailResetStep_scribble (h.queued_ne hb (hs.mem (by simp)))]
  case update => rw [updateStep_scribble]
  case add => rfl
  case resolve cur r n k =>
    rw [resolveStep_scribble]
    rintro hz rfl
    obtain ⟨l, htk⟩ := hl.taken.mem_head hz
    have hst := (h.glob.taken t cur).mp (by rw [htk]; exact List.mem_cons_self ..)
    rw [hb] at hst
    cases hst
  case finalize cur nx r n k =>
    have hne : cur ≠ b := by
      rintro rfl
      have hst := (hl.answering cur).mp rfl
      rw [hb] at hst
      cases hst
    unfold finalizeStep
    rw [setFinalized_scribble hne]
    rfl
  case remove a found state cur again =>
    obtain ⟨newer, seg, hs, -, hor⟩ := hl.hold
    have hm : cur ≠ 0 → cur ∈ v.queue := by
      rintro hz
      obtain ⟨done, rest, rfl, -⟩ | ⟨h₀, -⟩ := hor
      · exact hs.mem (by simp)
      · exact absurd h₀ hz
    rw [removeStep_scribble (hown a rfl) (fun hz => h.queued_ne hb (hm hz))
      (fun hz => h.next_ne hb (hm hz))]
    rintro rfl hp
    obtain ⟨done, rest, rfl, hback, -⟩ | ⟨rfl, -⟩ := hor
    · rcases List.eq_nil_or_concat done with rfl | ⟨done, x, rfl⟩
      · obtain ⟨l, hl'⟩ := hs.head
        cases hl'
        exact absurd hs.tail_prev hp
      · have hb' : (done ++ x :: [cur]).IsChain (Back s.prev) := by simpa using hback
        have hx := hb'.right_of_append
        rw [List.isChain_cons_cons] at hx
        rw [show s.prev cur = x from hx.1]
        exact h.queued_ne hb (hs.mem (by simp))
    · have hz := (hl.anchors 0 rfl).2
      simp [VIRTUAL_ALIGNMENT] at hz
  case dropLoad => rfl
  case dropLoop => rw [forceRemove_scribble]
  case complete a state =>
    unfold completeStep
    rw [scribble_state (hown a rfl), scribble_opcode (hown a rfl)]
    split <;> rfl
  case finish a =>
    simp only [finishStep, overwritten, Cfg.scribble, Cfg.goto,
      Function.update_comm (hown a rfl).symm]

theorem acquireCall_scribble (ho : q.held ≠ some b) :
    acquireCall (s.scribble b c) t q = (acquireCall s t q).map (overwritten b c) := by
  have hne : q.via ≠ .tryOnly → q.entry ≠ b := by
    rintro htry rfl
    exact ho (if_neg htry)
  have hcon : ∀ had, q.entry ≠ b →
      some (Event.call t (.acquire q),
        (({ s with slot := Function.update s.slot q.entry (.used t) }.scribble b c).construct
          q.entry q.goal.opcode had).goto t (.start q)) =
      some (Event.call t (.acquire q),
        (({ s with slot := Function.update s.slot q.entry (.used t) }.construct q.entry
          q.goal.opcode had).scribble b c).goto t (.start q)) := fun had he => by
    rw [construct_scribble he]
  unfold acquireCall
  rw [scribble_slot]
  split
  · rfl
  split
  · rfl
  · next hv =>
    split
    · dsimp only
      split
      · exact hcon false (hne (by rw [hv]; simp))
      · rfl
    · rfl
  · next hv =>
    split
    · dsimp only
      split
      · exact hcon false (hne (by rw [hv]; simp))
      · rfl
    · rfl
  · next hv =>
    have he := hne (by rw [hv]; simp)
    split
    · dsimp only
      split
      · exact hcon false he
      · rw [scribble_pollable he]
        split
        · rfl
        · exact hcon true he
      · rfl
    · rfl

theorem callStep_scribble {op : Op} (ho : ¬(Action.call t op).Owns s b) :
    callStep kind (s.scribble b c) t op = (callStep kind s t op).map (overwritten b c) := by
  unfold callStep
  rw [scribble_pc]
  split
  · rfl
  split
  · split
    · exact acquireCall_scribble ho
    · rfl
  · next a =>
    have ha : a ≠ b := ho
    unfold pollCall
    rw [scribble_slot, scribble_pollable ha, scribble_state ha, consume_scribble ha]
    split
    · split <;> rfl
    · rfl
  · next a =>
    have ha : a ≠ b := ho
    unfold dropCall
    rw [scribble_slot, scribble_pollable ha]
    split
    · split <;> rfl
    · rfl
  case h_9 => split <;> rfl
  all_goals rfl

theorem cancelStep_scribble (h : Inv kind s v) (ho : (s.pc t).entry ≠ some b) :
    cancelStep kind (s.scribble b c) t = (cancelStep kind s t).map (overwritten b c) := by
  have hl := h.loc t
  unfold cancelStep
  rw [scribble_pc]
  split
  · next q retry hpc =>
    rw [hpc] at hl ho
    split
    · next hv =>
      have he : q.entry ≠ b := by
        rintro rfl
        exact ho (if_neg (by rw [hv]; simp))
      rw [scribble_pollable he, leave_scribble]
      split <;> rfl
    · rfl
  · rfl

/-- An entry that is not registered is out of reach of every action but its owner's. -/
theorem step_scribble (h : Inv kind s v) {act : Action} (hb : v.stat b = .idle)
    (ho : ¬act.Owns s b) :
    step kind (s.scribble b c) act = (step kind s act).map (overwritten b c) := by
  cases act with
  | call t op => exact callStep_scribble ho
  | run t => exact runStep_scribble h hb ho
  | cancel t => exact cancelStep_scribble h ho

/-- In every run of a lock or a semaphore the links from the word spell the entries that
were pushed and neither detached nor unlinked, newest first; the links from a resolver
spell the entries it detached and has not resolved; these lists have no repetition and
no common element; and nobody but its owner reads or writes an entry between the end of
one registration and the beginning of the next. -/
theorem queue_representation {h : List Event} (hk : kind = .lock ∨ ∃ n, kind = .semaphore n)
    (hr : Reach kind free s h) :
    Chain 0 s.next (anchor s.word) (view h).queue ∧ (view h).queue.Nodup ∧
    (∀ a, a ∈ (view h).queue ↔ (view h).stat a = .queued) ∧
    (∀ t, Chain 0 s.next (s.pc t).takePtr ((view h).taken t) ∧ ((view h).taken t).Nodup) ∧
    (∀ t, ((view h).taken t).Disjoint (view h).queue) ∧
    (∀ t u, t ≠ u → ((view h).taken t).Disjoint ((view h).taken u)) ∧
    ∀ b c act, (view h).stat b = .idle → ¬act.Owns s b →
      step kind (s.scribble b c) act = (step kind s act).map (overwritten b c) := by
  have hinv : Inv kind s (view h) := by
    refine reach_inv ?_ hr
    rcases hk with rfl | ⟨n, rfl⟩ <;> simp
  have hq := hinv.glob.chain
  refine ⟨hq, hq.nodup, hinv.glob.queued, fun t => ⟨(hinv.loc t).taken, (hinv.loc t).taken.nodup⟩,
    ?_, ?_, fun b c act => step_scribble hinv⟩
  · intro t a hm hm'
    rw [hinv.glob.taken] at hm
    rw [hinv.glob.queued, hm] at hm'
    cases hm'
  · intro t u htu a hm hm'
    rw [hinv.glob.taken] at hm hm'
    rw [hm] at hm'
    exact htu (Stat.taken.inj hm')

end

/-- The detached entry of a handover is a list of its own, apart from the empty queue, and
the entry of an earlier or later registration cannot be seen. -/
theorem queue_representation_handover :
    ∃ s h, exec (system (.semaphore 1)) (Kind.initial (.semaphore 1)) [] handover = some (s, h) ∧
      Chain 0 s.next (s.pc 0).takePtr [256] ∧ Chain 0 s.next (anchor s.word) [] ∧
      ∀ c, step (.semaphore 1) (s.scribble 384 c) (.run 0) =
        (step (.semaphore 1) s (.run 0)).map (overwritten 384 c) := by
  obtain ⟨s, h, hrun, hpc, hnil, htk, -, hidle⟩ := handover_run
  obtain ⟨hq, -, -, ht, -, -, hb⟩ := queue_representation (Or.inr ⟨1, rfl⟩)
    (Run.exec .init (admits_free ..) hrun)
  refine ⟨s, h, hrun, htk ▸ (ht 0).1, hnil ▸ hq, fun c => hb 384 c (.run 0) hidle ?_⟩
  simp [Action.Owns, hpc, Pc.entry, Then.entry, After.entry]

end Saa
