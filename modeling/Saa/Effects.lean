import Saa.Queue

/-! # What the events say

Every event fixes what its step did to the word, up to the position of the queue lock. -/
namespace Saa

open Word Lib.Linked

/-- The words from which an operation is granted without queueing. -/
def Opcode.Free (state : ℕ) : Opcode → Prop
  | .exclusive => state = 0
  | .shared => state < MAX_SHARED_OWNERS
  | .semaphore count => data state + count ≤ MAX_PERMITS
  | .barrier _ | .wait _ => False

def Effect (kind : Kind) (s : Cfg) (v : View) (s' : Cfg) : Event → Prop
  | .acquire _ _ op => s.word < 64 ∧ op.Free s.word ∧ s'.word = s.word + op.acquiredCount
  | .release _ _ op => op.CanRelease s.word ∧ data s'.word = data s.word - op.acquiredCount ∧
      (v.queue ≠ [] → Locked s'.word)
  | .push t a op => op = s.opcode a ∧ s'.opcode = s.opcode ∧
      (∃ q, s.pc t = .push q s.word ∧ q.entry = a) ∧ data s'.word = data s.word ∧
        (Locked s'.word ↔ Locked s.word)
  | .countDown t a op => op = s.opcode a ∧ s'.opcode = s.opcode ∧
      (∃ q i, s.pc t = .attempt q s.word i ∧ q.entry = a ∧ q.goal = .arrive) ∧
      2 ≤ data s.word ∧ data s'.word + 1 = data s.word ∧ (Locked s'.word ↔ Locked s.word)
  | .last t a => (∃ q i, s.pc t = .attempt q s.word i ∧ q.entry = a ∧ q.goal = .arrive) ∧
      data s.word = 1 ∧ s'.word = 0
  | .writeBack t count => (∃ q, s.pc t = .writeBack q count) ∧ s'.word = count
  | .lockQueue t => (∃ a, s.pc t = .dropLoop a s.word) ∧ ¬Locked s.word ∧ Locked s'.word ∧
      v.queue ≠ [] ∧ data s'.word = data s.word
  | .cut t _ => (s.pc t).Holds ∧ s'.word = s.word
  | .tailReset t => (s.pc t).Holds ∧ s'.word = data s.word + total s.opcode v.queue ∧
      s'.word < 64 ∧ Greedy kind.maxSharedOwners s.opcode (data s.word) v.queue
  | .grant t transferred => (s.pc t).Holds ∧ transferred = total s.opcode (v.taken t) ∧
      (∃ held, data s.word ≤ held ∧ Greedy kind.maxSharedOwners s.opcode held (v.taken t)) ∧
      data s'.word = data s.word + transferred ∧
      (¬Locked s'.word → ∀ a ∈ v.queue.getLast?,
        ¬Grantable kind.maxSharedOwners (data s'.word) (s.opcode a))
  | .unlink t a => (s.pc t).Holds ∧ data s'.word = data s.word ∧
      (¬Locked s'.word → v.queue = [a])
  | .poison _ => data s.word = DATA_MASK ∧ ¬Locked s.word ∧ s'.word = POISONED_STATE
  | .clearPoison _ => s.word = POISONED_STATE ∧ s'.word = 0
  | .wakeAll t prev => kind = .gate ∧ prev = GateState.ofUsize (data s.word) ∧
      ∃ nx er k, s.pc t = .wakeAll nx er k ∧
        s'.word = (match nx with
          | some state => state.toNat
          | none => data s.word)
  | .reset t prev => kind = .gate ∧ s.pc t = .gateReset ∧
      prev = GateState.ofUsize (data s.word) ∧ prev ≠ .controlled ∧
      s'.word = join (anchor s.word) prev.toNat
  | _ => s'.word = s.word

section
variable {kind : Kind} {s s' : Cfg} {v : View} {t : Tid} {a : Action} {e : Event}

@[simp] theorem leave_word (s : Cfg) (t : Tid) (q : Req) : (s.leave t q).word = s.word := by
  unfold Cfg.leave
  split <;> rfl

@[simp] theorem construct_word (s : Cfg) (b : Ptr) (op : Opcode) (had : Bool) :
    (s.construct b op had).word = s.word := (construct_sameOff s b op had).word

theorem acquired_effect {q : Req} {new : ℕ} (hw : s.word < 64) (hf : q.goal.opcode.Free s.word)
    (hn : new = s.word + q.goal.opcode.acquiredCount) :
    Effect kind s v (acquired s t q new).2 (acquired s t q new).1 := by
  unfold acquired
  cases q.via <;> exact ⟨hw, hf, by simpa using hn⟩

theorem answered_effect {q : Req} {r : ℕ} :
    Effect kind s v (answered s t q r).2 (answered s t q r).1 := by
  unfold answered
  split <;> exact show _ = _ by simp

theorem blocked_effect {q : Req} {state : ℕ} :
    Effect kind s v (blocked s t q state).2 (blocked s t q state).1 := by
  unfold blocked
  split
  · exact show _ = _ by simp
  · split <;> exact show _ = _ by simp

theorem attempt_free {g : Goal} {state new : ℕ} (h : g.attempt state = .cas new) :
    g.opcode.Free state := by
  cases g with
  | lock mode =>
    cases mode <;> simp only [Goal.attempt, tryLockInternal, tryShareInternal, waitInternal] at h
    · split at h
      · cases h
      · split at h
        · cases h
        · next hz => exact not_not.mp hz
    · split at h
      · cases h
      · split at h
        · cases h
        · next hz => exact not_le.mp hz
    all_goals
      split at h
      · cases h
      · split at h <;> cases h
  | permits n =>
    simp only [Goal.attempt, tryAcquireInternal] at h
    split at h
    · cases h
    · next hn =>
      simp only [not_or, not_lt] at hn
      exact hn.2
  | enter =>
    simp only [Goal.attempt, pushWaitQueueEntry] at h
    split at h <;> cases h
  | arrive => cases h

theorem startStep_effect {q : Req} : Effect kind s v (startStep s t q).2 (startStep s t q).1 := by
  unfold startStep
  split
  · next hc =>
    refine acquired_effect (by omega) ?_ ?_ <;> rw [hc.2.1, hc.2.2]
    · rfl
    · rfl
  · split
    · next hc =>
      have hlt := hc.2.2
      have hm : MAX_SHARED_OWNERS = 62 := by decide
      refine acquired_effect (by omega) ?_ ?_ <;> rw [hc.2.1]
      · exact hlt
      · rfl
    · exact show _ = _ by simp

theorem attemptStep_effect (h : Inv kind s v) {q : Req} {state spin : ℕ}
    (hpc : s.pc t = .attempt q state spin) :
    Effect kind s v (attemptStep s t q state spin).2 (attemptStep s t q state spin).1 := by
  have hl := h.loc t
  rw [hpc] at hl
  have hreq := hl.reqs q rfl
  unfold attemptStep
  split
  · next hg =>
    have hanch : IsAnchor q.entry := by
      refine hl.anchors q.entry (if_neg ?_)
      obtain ⟨hv | hv, -⟩ := arrive_fits hreq.1 hg <;> rw [hv] <;> simp
    unfold countDown
    split
    · exact show _ = _ by simp
    next h₀ =>
    split
    · next h₁ =>
      split
      · next hw =>
        subst hw
        exact ⟨⟨q, spin, hpc, rfl, hg⟩, h₁, rfl⟩
      · exact show _ = _ by simp
    next h₁ =>
    split
    · next hw =>
      subst hw
      obtain ⟨-, hd, hlk⟩ := join_tag (s.word - 1) hanch.1
      refine ⟨rfl, rfl, ⟨q, spin, hpc, rfl, hg⟩, by omega, ?_, ?_⟩
      · simp only [goto_word, hd]
        simp only [data_eq] at h₀ h₁ ⊢
        omega
      · simp only [goto_word, hlk]
        simp only [data_eq, locked_iff] at h₀ h₁ ⊢
        omega
    · exact show _ = _ by simp
  · split
    · next new hc =>
      split
      · next hw =>
        rw [← hw] at hc
        obtain ⟨h₁, -, h₂⟩ := attempt_cas h hreq.1 hc
        exact acquired_effect h₁ (attempt_free hc) h₂
      · exact show _ = _ by simp
    · exact answered_effect
    · split
      · exact show _ = _ by simp
      · exact blocked_effect

theorem push_effect (h : Inv kind s v) {q : Req} {state : ℕ} (hpc : s.pc t = .push q state) :
    Effect kind s v (tryPushWaitQueueEntry s t q state).2
      (tryPushWaitQueueEntry s t q state).1 := by
  have hl := h.loc t
  rw [hpc] at hl
  unfold tryPushWaitQueueEntry
  split
  · next hw =>
    subst hw
    obtain ⟨-, hd, hlk⟩ := join_tag s.word (hl.anchors q.entry (if_neg hl.fits.1)).1
    exact ⟨rfl, rfl, ⟨q, hpc, rfl⟩, by simpa using hd, by simpa using hlk⟩
  · exact show _ = _ by simp

theorem releaseFast_effect (h : Inv kind s v) {op : Opcode} (hpc : s.pc t = .releaseFast op) :
    Effect kind s v (releaseFast s t op).2 (releaseFast s t op).1 := by
  have hl := h.loc t
  rw [hpc] at hl
  have hfast : ∀ w, op.CanRelease s.word → w = data s.word - op.acquiredCount → s.word < 256 →
      Effect kind s v ({ s with word := w }.goto t .idle) (.release t (.caller t) op) := by
    rintro w hc rfl hlt
    refine ⟨hc, ?_, fun hq => absurd (h.glob.chain.eq_nil_iff.mpr (h.anchor_zero hlt)) hq⟩
    have := data_lt s.word
    simp only [goto_word]
    rw [data_eq (data s.word - op.acquiredCount)]
    omega
  have hslow : Effect kind s v (s.goto t (.releaseLoop (.caller t) op s.word)) .tau :=
    show _ = _ by simp
  cases op with
  | exclusive =>
    simp only [releaseFast]
    split
    · next hw =>
      refine hfast 0 ?_ ?_ ?_ <;> rw [hw]
      · change data DATA_MASK = DATA_MASK
        decide
      · decide
      · decide
    · exact hslow
  | shared =>
    simp only [releaseFast]
    split
    · next hw =>
      have hle := hw.2
      have hm : MAX_SHARED_OWNERS = 62 := by decide
      have hd : DATA_MASK = 63 := by decide
      have hdw : data s.word = s.word := by rw [data_eq]; omega
      refine hfast _ ⟨by omega, by omega⟩ ?_ (by omega)
      rw [hdw]
      rfl
    · exact hslow
  | semaphore n =>
    simp only [releaseFast]
    split
    · next hw =>
      have hsem : n < 256 ∧ kind ≠ .lock := by
        rcases hl.fits with ⟨_, he⟩ | ⟨m, c, rfl, he, hc⟩
        · simp at he
        · cases he
          exact ⟨hc, by simp⟩
      have ha := h.anchor_zero (by omega)
      have hlt := lt_of_unlocked ha (h.unlocked_of_anchor ha hsem.2)
      have hdw : data s.word = n := by rw [data_eq]; omega
      refine hfast 0 (le_of_eq hdw.symm) ?_ (by omega)
      change 0 = data s.word - n
      omega
    · exact hslow
  | barrier => exact hslow
  | wait => exact hslow

theorem releaseLoop_effect (h : Inv kind s v) {o : Holder} {op : Opcode} {state : ℕ} :
    Effect kind s v (releaseLoop s t o op state).2 (releaseLoop s t o op state).1 := by
  unfold releaseLoop
  split
  · exact show _ = _ by simp
  next hcan =>
  rw [not_not] at hcan
  split
  · exact show _ = _ by simp
  next hw =>
  rw [not_not] at hw
  subst hw
  have hle := acquired_le_data hcan
  split
  · next hz =>
    obtain ⟨-, hd, hlk⟩ := sub_fields hle
    refine ⟨hcan, by simpa using hd, fun hq => ?_⟩
    rcases hz with hz | hz
    · exact absurd (h.glob.chain.eq_nil_iff.mpr hz) hq
    · exact hlk.mpr hz
  · obtain ⟨hla, hld, hll⟩ := lock_fields (w := s.word)
    have hle' : op.acquiredCount ≤ data (lock s.word) := by rw [hld]; exact hle
    obtain ⟨-, hd, hlk⟩ := sub_fields hle'
    exact ⟨hcan, by rw [← hld]; exact hd, fun _ => hlk.mpr hll⟩

theorem poisonFast_effect (kind : Kind) (s : Cfg) (v : View) (t : Tid) :
    Effect kind s v (poisonFast s t).2 (poisonFast s t).1 := by
  unfold poisonFast
  split
  · next hw =>
    refine ⟨?_, ?_, rfl⟩ <;> rw [hw] <;> decide
  · exact show _ = _ by simp

theorem poisonLockInternal_effect {state : ℕ} :
    Effect kind s v (poisonLockInternal s t state).2 (poisonLockInternal s t state).1 := by
  unfold poisonLockInternal
  split
  · exact show _ = _ by simp
  next hd =>
  split
  · exact show _ = _ by simp
  next hn =>
  split
  · next hw =>
    subst hw
    exact ⟨not_not.mp fun he => hd (Or.inr he), hn, rfl⟩
  · exact show _ = _ by simp

theorem backStep_effect {state : ℕ} {head cur resolved : Ptr} {tr : ℕ}
    {k : After} (hpc : s.pc t = .back state head cur tr resolved k) :
    Effect kind s v (backStep kind s t state head cur tr resolved k).2
      (backStep kind s t state head cur tr resolved k).1 := by
  unfold backStep
  split
  · exact show _ = _ by simp
  split
  · split <;> exact show _ = _ by simp
  · exact ⟨by rw [hpc]; trivial, rfl⟩

theorem Inv.snap_all (h : Inv kind s v) {newer seg : List Ptr} (hh : (s.pc t).Holds)
    (hs : Snap s v s.word newer seg) : v.queue = seg := by
  have hnd := h.glob.chain.nodup
  obtain ⟨l, hl⟩ := h.glob.chain.mem_head (h.anchor_ne hh)
  obtain ⟨l₂, hl₂⟩ := hs.head
  cases newer with
  | nil => exact hs.split
  | cons b newer =>
    rw [hs.split, hl₂] at hl hnd
    cases hl
    simp at hnd

theorem tailResetStep_effect (h : Inv kind s v) {state : ℕ} {cur resolved : Ptr} {tr : ℕ}
    {k : After} (hpc : s.pc t = .tailReset state cur tr resolved k) :
    Effect kind s v (tailResetStep s t state cur tr resolved k).2
      (tailResetStep s t state cur tr resolved k).1 := by
  have hl := h.loc t
  rw [hpc] at hl
  obtain ⟨newer, granted, hs, htr, hres, hg⟩ := hl.hold
  have hh : (s.pc t).Holds := by rw [hpc]; trivial
  unfold tailResetStep
  split
  · next hw =>
    subst hw
    have hq := h.snap_all hh hs
    have hle := greedy_le hg (max_le hl.fits) (data_le_mask _) fun b hb =>
      h.opcode_le (a := b) (by rw [(h.glob.queued b).mp (by rw [hq]; exact hb)]; simp)
    have hd : DATA_MASK = 63 := by decide
    have hsum : data s.word + tr + (s.opcode cur).acquiredCount =
        data s.word + total s.opcode v.queue := by
      rw [hq, total_cons, htr]
      omega
    rw [← hq] at hle hg
    exact ⟨hh, hsum, by simp only [goto_word]; omega, hg⟩
  · exact ⟨hh, rfl⟩

theorem updateStep_effect (h : Inv kind s v) {state : ℕ} {head resolved : Ptr} {tr : ℕ}
    {k : After} (hpc : s.pc t = .update state head tr resolved k) :
    Effect kind s v (updateStep s t state head tr resolved k).2
      (updateStep s t state head tr resolved k).1 := by
  have hl := h.loc t
  rw [hpc] at hl
  unfold updateStep
  split
  · next hd =>
    obtain ⟨newer, seg, hs, -, hlast, hng⟩ := hl.hold
    obtain ⟨htr, hg⟩ := hl.counted
    have hlt := h.transfer_le hl.fits htr hg
    rw [← hd] at hlt hg hng
    obtain ⟨-, hdw, -⟩ := join_data s.word hlt
    refine ⟨by rw [hpc]; trivial, htr, ⟨data s.word, le_rfl, hg⟩, hdw, fun _ b hb => ?_⟩
    simp only [goto_word, hdw]
    rw [hs.split, List.getLast?_append, hlast] at hb
    cases hb
    exact hng
  · exact show _ = _ by simp

theorem addStep_effect (h : Inv kind s v) {state : ℕ} {head resolved : Ptr} {tr : ℕ}
    {k : After} (hpc : s.pc t = .add state head tr resolved k) :
    Effect kind s v (addStep s t head tr resolved k).2 (addStep s t head tr resolved k).1 := by
  have hl := h.loc t
  rw [hpc] at hl
  obtain ⟨newer, seg, hs, -⟩ := hl.hold
  obtain ⟨htr, hg⟩ := hl.counted
  have hlt := h.transfer_le hl.fits htr hg
  have hdle := hs.data_le
  obtain ⟨-, hd, hlk⟩ := add_fields (w := s.word) (c := tr) (by omega)
  exact ⟨by rw [hpc]; trivial, htr, ⟨_, hdle, hg⟩, hd, fun hn => absurd (hlk.mpr hs.word_locked) hn⟩

theorem thenStep_effect {k : Then} {n : ℕ} : Effect kind s v (k.step s t n).2 (k.step s t n).1 := by
  cases k <;> exact show _ = _ by simp [Then.step]

theorem resolveStep_effect {cur : Ptr} {r n : ℕ} {k : Then} :
    Effect kind s v (resolveStep s t cur r n k).2 (resolveStep s t cur r n k).1 := by
  unfold resolveStep
  split
  · exact thenStep_effect
  · exact rfl

theorem removeStep_effect (h : Inv kind s v) {b cur : Ptr} {found state : ℕ} {again : Bool}
    (hpc : s.pc t = .remove b found state cur again) :
    Effect kind s v (removeStep s t b found state cur again).2
      (removeStep s t b found state cur again).1 := by
  have hl := h.loc t
  rw [hpc] at hl
  have hh : (s.pc t).Holds := by rw [hpc]; trivial
  obtain ⟨newer, seg, hs, -, hor⟩ := hl.hold
  by_cases hcur : cur = 0
  · simp only [removeStep, hcur, ↓reduceIte]
    split <;> exact show _ = _ by simp
  by_cases hca : cur = b
  swap
  · simp only [removeStep, if_neg hcur, ne_eq, hca, not_false_eq_true, ↓reduceIte]
    split <;> exact show _ = _ by simp
  subst hca
  obtain ⟨done, rest, rfl, hb, -⟩ | ⟨h₀, -⟩ := hor
  swap
  · exact absurd h₀ hcur
  have hchain := h.snap_chain hs
  rw [show newer ++ (done ++ cur :: rest) = (newer ++ done) ++ cur :: rest by simp] at hchain
  by_cases hz : s.prev cur = 0
  swap
  · simp only [removeStep, if_neg hcur, ne_eq, not_true_eq_false, hz, not_false_eq_true, ↓reduceIte]
    refine ⟨hh, ?_, fun hn => absurd ?_ hn⟩ <;> simp only [goto_word]
    · split <;> rfl
    · split <;> exact hs.word_locked
  have hdone : done = [] := by
    rcases List.eq_nil_or_concat done with rfl | ⟨done, c, rfl⟩
    · rfl
    · have hb' : (done ++ c :: [cur]).IsChain (Back s.prev) := by simpa using hb
      have := hb'.right_of_append
      rw [List.isChain_cons_cons] at this
      exact absurd (this.1.symm.trans hz) (h.snap_ne hs (by simp))
  subst hdone
  by_cases hw : s.word = state
  swap
  · simp only [removeStep, if_neg hcur, ne_eq, not_true_eq_false, hz, hw, ↓reduceIte,
      h.anchor_ne hh]
    change _ = _
    simp only [goto_word]
    split <;> rfl
  subst hw
  have hq := h.snap_all hh hs
  simp only [removeStep, if_neg hcur, ne_eq, not_true_eq_false, hz, ↓reduceIte]
  cases rest with
  | nil =>
    have hn : s.next cur = 0 := hchain.next_last
    simp only [hn, ↓reduceIte]
    refine ⟨hh, ?_, fun _ => hq⟩
    simp only [goto_word]
    rw [data_eq (data s.word)]
    have := data_lt s.word
    omega
  | cons c rest =>
    have hn : s.next cur = c := hchain.next_eq
    have hc0 := h.snap_ne hs (a := c) (by simp)
    have hst : v.stat c = .queued := (h.glob.queued c).mp (hs.mem (by simp))
    obtain ⟨-, hd, hlk⟩ := join_tag s.word (h.glob.anchors c (by simp [hst])).1
    simp only [hn, hc0, ↓reduceIte]
    exact ⟨hh, by simpa using hd, fun hno => absurd (hlk.mpr hs.word_locked) hno⟩

theorem forceRemove_effect (h : Inv kind s v) {b : Ptr} {state : ℕ}
    (hpc : s.pc t = .dropLoop b state) :
    Effect kind s v (forceRemove s t b state).2 (forceRemove s t b state).1 := by
  unfold forceRemove
  split
  · exact show _ = _ by simp
  next hn =>
  split
  · exact show _ = _ by simp
  next hz =>
  split
  · next hw =>
    subst hw
    obtain ⟨-, hd, hlk⟩ := lock_fields (w := s.word)
    exact ⟨⟨b, hpc⟩, hn, hlk, fun hq => hz (h.glob.chain.eq_nil_iff.mp hq), hd⟩
  · exact show _ = _ by simp

theorem callStep_effect {op : Op} (hs : callStep kind s t op = some (e, s')) :
    Effect kind s v s' e := by
  unfold callStep at hs
  split at hs
  · cases hs
  split at hs
  · split at hs
    · unfold acquireCall at hs
      split at hs
      · cases hs
        exact rfl
      split at hs
      · cases hs
        exact rfl
      · split at hs
        · cases hs
          exact show _ = _ by simp only [goto_word]; split <;> simp
        · cases hs
      · split at hs
        · cases hs
          exact show _ = _ by simp only [goto_word]; split <;> simp
        · cases hs
      · split at hs
        · split at hs
          · cases hs
            exact show _ = _ by simp
          · split at hs
            · cases hs
              exact rfl
            · cases hs
              exact show _ = _ by simp
          · cases hs
        · cases hs
    · cases hs
  · unfold pollCall at hs
    split at hs
    · split at hs <;> cases hs <;> exact rfl
    · cases hs
  · unfold dropCall at hs
    split at hs
    · split at hs <;> cases hs <;> exact rfl
    · cases hs
  case h_9 =>
    split at hs <;> cases hs <;> exact rfl
  all_goals
    cases hs
    try exact rfl

theorem cancelStep_effect (hs : cancelStep kind s t = some (e, s')) : Effect kind s v s' e := by
  unfold cancelStep at hs
  split at hs
  · split at hs
    · split at hs <;> cases hs <;> exact show _ = _ by simp
    · cases hs
  · cases hs

theorem runStep_effect (h : Inv kind s v) (hs : runStep kind s t = some (e, s')) :
    Effect kind s v s' e := by
  unfold runStep at hs
  cases hpc : s.pc t <;> simp only [hpc, Option.some.injEq, reduceCtorEq] at hs
  all_goals
    obtain ⟨h₁, h₂⟩ := Prod.ext_iff.mp hs
    change _ = e at h₁
    change _ = s' at h₂
    subst h₁ h₂
  case start => exact startStep_effect
  case attempt => exact attemptStep_effect h hpc
  case push => exact push_effect h hpc
  case pushed =>
    simp only [pushedStep]
    split <;> exact show _ = _ by simp
  case settle => exact rfl
  case settled =>
    simp only [settledStep]
    split <;> exact show _ = _ by simp [Cfg.setFinalized]
  case await =>
    unfold awaitStep
    split
    · split <;> exact show _ = _ by simp [Cfg.consume]
    · exact rfl
  case writeBack q c => exact ⟨⟨q, hpc⟩, rfl⟩
  case releaseFast => exact releaseFast_effect h hpc
  case releaseLoop => exact releaseLoop_effect h
  case poisonFast => exact poisonFast_effect kind s v t
  case poisonLoop => exact poisonLockInternal_effect
  case clearPoison =>
    unfold clearPoisonStep
    split
    · next hw => exact ⟨hw, rfl⟩
    · exact rfl
  case wakeAll nx er k =>
    have hl := h.loc t
    rw [hpc] at hl
    exact ⟨hl.fits.1, rfl, nx, er, k, hpc, rfl⟩
  case gateReset =>
    have hl := h.loc t
    rw [hpc] at hl
    simp only [gateResetStep]
    split
    · exact rfl
    · next hc => exact ⟨hl.fits, hpc, rfl, hc, rfl⟩
  case gateDrop =>
    unfold gateDropStep
    split <;> exact rfl
  case acknowledge =>
    unfold acknowledgeStep
    split <;> exact rfl
  case walk =>
    unfold walkStep
    split
    · exact rfl
    · split <;> exact rfl
  case relink =>
    unfold relinkStep
    split
    · exact rfl
    · split <;> exact rfl
  case back => exact backStep_effect hpc
  case tailReset => exact tailResetStep_effect h hpc
  case update => exact updateStep_effect h hpc
  case add => exact addStep_effect h hpc
  case resolve => exact resolveStep_effect
  case finalize => exact rfl
  case remove => exact removeStep_effect h hpc
  case dropLoad => exact rfl
  case dropLoop => exact forceRemove_effect h hpc
  case complete =>
    unfold completeStep
    split <;> exact rfl
  case finish => exact rfl

/-- Every event fixes what its step did to the word. -/
theorem step_effect (h : Inv kind s v) (hs : step kind s a = some (e, s')) :
    Effect kind s v s' e := by
  cases a with
  | call t op => exact callStep_effect hs
  | run t => exact runStep_effect h hs
  | cancel t => exact cancelStep_effect hs

end
end Saa
