import Saa.Effects

/-! # What a step leaves alone

The program points of the other threads, the operation of a registered entry, and its
result outside `set_result`. -/
namespace Saa

open Word Lib.Linked

def Action.actor : Action → Tid
  | .call t _ | .run t | .cancel t => t

structure Frame (s : Cfg) (v : View) (t : Tid) (e : Event) (s' : Cfg) : Prop where
  pc : ∀ u, u ≠ t → s'.pc u = s.pc u
  opcode : ∀ b u, u ≠ t → s.slot b = .used u → s'.opcode b = s.opcode b
  kept : ∀ b, v.stat b ≠ .idle → (v.observe e).stat b ≠ .idle → s'.opcode b = s.opcode b
  result : ∀ b, v.stat b ≠ .idle → (v.observe e).stat b ≠ .idle →
    (∀ u r, e ≠ .setResult u b r) → (s'.state b).result = (s.state b).result
  set : ∀ u b r, e = .setResult u b r → u = t ∧ (s'.state b).result = r ∧ s.state b = .clear ∧
    (v.stat b = .idle ∨ v.stat b = .taken t)
  held : ∀ u b r, e = .setResult u b r → s'.opcode b = s.opcode b

section
variable {kind : Kind} {s s' : Cfg} {v : View} {t : Tid} {q : Req} {a : Action} {e : Event}

theorem Frame.quiet (hpc : ∀ u, u ≠ t → s'.pc u = s.pc u) (ho : s'.opcode = s.opcode)
    (hst : s'.state = s.state) (he : ∀ u b r, e ≠ .setResult u b r) : Frame s v t e s' where
  pc := hpc
  opcode _ _ _ _ := by rw [ho]
  kept _ _ _ := by rw [ho]
  result _ _ _ _ := by rw [hst]
  set u b r h := absurd h (he u b r)
  held u b r h := absurd h (he u b r)

theorem Frame.off {b : Ptr} (hpc : ∀ u, u ≠ t → s'.pc u = s.pc u)
    (hslot : ∀ u, u ≠ t → s.slot b ≠ .used u) (ho : ∀ c, c ≠ b → s'.opcode c = s.opcode c)
    (hst : ∀ c, c ≠ b → s'.state c = s.state c)
    (hi : v.stat b = .idle ∨ (v.observe e).stat b = .idle)
    (he : ∀ u b r, e ≠ .setResult u b r) : Frame s v t e s' where
  pc := hpc
  opcode c u hu hs := ho c (by rintro rfl; exact hslot u hu hs)
  kept c h₁ h₂ := ho c (by rintro rfl; exact hi.elim h₁ h₂)
  result c h₁ h₂ _ := by rw [hst c (by rintro rfl; exact hi.elim h₁ h₂)]
  set u c r h := absurd h (he u c r)
  held u c r h := absurd h (he u c r)

theorem goto_frame_pc (x : Cfg) (hx : x.pc = s.pc) (p : Pc) :
    ∀ u, u ≠ t → (x.goto t p).pc u = s.pc u := fun u hu => by
  rw [goto_pc_of_ne _ _ _ hu, hx]

theorem leave_frame_pc (x : Cfg) (hx : x.pc = s.pc) (q : Req) :
    ∀ u, u ≠ t → (x.leave t q).pc u = s.pc u := fun u hu => by
  rw [leave_pc, Function.update_of_ne hu, hx]

@[simp] theorem leave_opcode (s : Cfg) (t : Tid) (q : Req) : (s.leave t q).opcode = s.opcode := by
  unfold Cfg.leave
  split <;> rfl

@[simp] theorem leave_state (s : Cfg) (t : Tid) (q : Req) : (s.leave t q).state = s.state := by
  unfold Cfg.leave
  split <;> rfl

theorem acquired_frame {new : ℕ} :
    Frame s v t (acquired s t q new).1 (acquired s t q new).2 := by
  unfold acquired
  cases q.via
  case pager => exact .quiet (goto_frame_pc _ rfl _) rfl rfl (by simp)
  all_goals exact .quiet (leave_frame_pc _ rfl _) (by simp) (by simp) (by simp)

theorem answered_frame {r : ℕ} : Frame s v t (answered s t q r).1 (answered s t q r).2 := by
  unfold answered
  split
  · exact .quiet (goto_frame_pc _ rfl _) rfl rfl (by simp)
  · exact .quiet (leave_frame_pc _ rfl _) (by simp) (by simp) (by simp)

theorem construct_frame {b : Ptr} {op : Opcode} {had : Bool} {p : Pc} (h : Inv kind s v)
    (he : (s.pc t).entry = some b) (hst : v.stat b = .idle)
    (hev : ∀ u b r, e ≠ .setResult u b r) : Frame s v t e ((s.construct b op had).goto t p) := by
  have hoff := construct_sameOff s b op had
  have hsl := ((h.loc t).slot b).mp he
  exact .off (goto_frame_pc _ (construct_pc ..) _) (fun u hu => by rw [hsl]; simpa using hu.symm)
    hoff.opcode hoff.state (Or.inl hst) hev

theorem blocked_frame (h : Inv kind s v) (hd : Deciding (s.pc t) q) {state : ℕ} :
    Frame s v t (blocked s t q state).1 (blocked s t q state).2 := by
  unfold blocked
  split
  · exact .quiet (leave_frame_pc _ rfl _) (by simp) (by simp) (by simp)
  next htry =>
  split
  · exact .quiet (goto_frame_pc _ rfl _) rfl rfl (by simp)
  · have he := hd.entry_of htry
    have hst : v.stat q.entry = .idle := by
      simpa [hd.stage, Stage.Admits] using (h.loc t).stat _ he
    exact construct_frame h he hst (by simp)

theorem startStep_frame : Frame s v t (startStep s t q).1 (startStep s t q).2 := by
  unfold startStep
  split
  · exact acquired_frame
  · split
    · exact acquired_frame
    · exact .quiet (goto_frame_pc _ rfl _) rfl rfl (by simp)

theorem attemptStep_frame (h : Inv kind s v) {state spin : ℕ}
    (hpc : s.pc t = .attempt q state spin) :
    Frame s v t (attemptStep s t q state spin).1 (attemptStep s t q state spin).2 := by
  have hd : Deciding (s.pc t) q := by rw [hpc]; exact deciding_attempt q state spin
  have hl := h.loc t
  rw [hpc] at hl
  unfold attemptStep
  split
  · next hg =>
    have htry : q.via ≠ .tryOnly := by
      obtain ⟨hv | hv, -⟩ := arrive_fits (hl.reqs q rfl).1 hg <;> rw [hv] <;> simp
    have he := hd.entry_of htry
    unfold countDown
    split
    · exact construct_frame h he (hl.stat _ (if_neg htry)) (by simp)
    split
    · split <;> exact .quiet (goto_frame_pc _ rfl _) rfl rfl (by simp)
    · split <;> exact .quiet (goto_frame_pc _ rfl _) rfl rfl (by simp)
  · split
    · split
      · exact acquired_frame
      · exact .quiet (goto_frame_pc _ rfl _) rfl rfl (by simp)
    · exact answered_frame
    · split
      · exact .quiet (goto_frame_pc _ rfl _) rfl rfl (by simp)
      · exact blocked_frame h hd

theorem pushedStep_frame {retry : Bool} :
    Frame s v t (pushedStep s t q retry).1 (pushedStep s t q retry).2 := by
  simp only [pushedStep]
  split
  · exact .quiet (leave_frame_pc _ rfl _) (by simp) (by simp) (by simp)
  · exact .quiet (goto_frame_pc _ rfl _) rfl rfl (by simp)

theorem setResult_frame {b : Ptr} {r : ℕ} {p : Pc} (hc : s.state b = .clear)
    (hst : v.stat b = .idle ∨ v.stat b = .taken t) :
    Frame s v t (.setResult t b r) ((s.setResult b r).goto t p) where
  pc := goto_frame_pc _ rfl _
  opcode _ _ _ _ := rfl
  kept _ _ _ := rfl
  result c _ _ hne := by
    have hcb : c ≠ b := by rintro rfl; exact hne t r rfl
    simp [Cfg.setResult, hcb]
  set u c r' he := by
    cases he
    exact ⟨rfl, by simp [Cfg.setResult, EntryState.set, hc, EntryState.clear], hc, hst⟩
  held _ _ _ _ := rfl

theorem setFinalized_result (s : Cfg) (b c : Ptr) :
    ((s.setFinalized b).state c).result = (s.state c).result := by
  by_cases hc : c = b
  · subst c; simp [Cfg.setFinalized]
  · simp [Cfg.setFinalized, hc]

theorem setFinalized_frame {b : Ptr} (hpc : ∀ u, u ≠ t → s'.pc u = s.pc u)
    (ho : s'.opcode = s.opcode) (hst : s'.state = (s.setFinalized b).state)
    (he : ∀ u b r, e ≠ .setResult u b r) : Frame s v t e s' where
  pc := hpc
  opcode _ _ _ _ := by rw [ho]
  kept _ _ _ := by rw [ho]
  result c _ _ _ := by rw [hst, setFinalized_result]
  set u c r h := absurd h (he u c r)
  held u c r h := absurd h (he u c r)

theorem settledStep_frame : Frame s v t (settledStep s t q).1 (settledStep s t q).2 := by
  simp only [settledStep]
  split
  · exact setFinalized_frame (b := q.entry) (leave_frame_pc _ rfl _) (by simp [Cfg.setFinalized])
      (by simp) (by simp)
  · exact setFinalized_frame (goto_frame_pc _ rfl _) rfl rfl (by simp)

theorem consume_frame {b : Ptr} (hpc : ∀ u, u ≠ t → s'.pc u = s.pc u)
    (hslot : ∀ u, u ≠ t → s.slot b ≠ .used u) (ho : ∀ c, c ≠ b → s'.opcode c = s.opcode c)
    (hst : ∀ c, c ≠ b → s'.state c = (s.consume b).state c)
    (hi : (v.observe e).stat b = .idle) (he : ∀ u b r, e ≠ .setResult u b r) :
    Frame s v t e s' :=
  .off hpc hslot ho (fun c hc => by rw [hst c hc]; simp [Cfg.consume, hc]) (Or.inr hi) he

theorem awaitStep_frame (h : Inv kind s v) {retry : Bool} (hpc : s.pc t = .await q retry) :
    Frame s v t (awaitStep s t q retry).1 (awaitStep s t q retry).2 := by
  have hl := h.loc t
  rw [hpc] at hl
  have htry : q.via ≠ .tryOnly := by
    rcases hl.fits.1 with hv | hv <;> rw [hv] <;> simp
  have hsl := (hl.slot q.entry).mp (if_neg htry)
  have hslot : ∀ u, u ≠ t → s.slot q.entry ≠ .used u := fun u hu => by
    rw [hsl]; simpa using hu.symm
  unfold awaitStep
  split
  · split
    · have hoff := construct_sameOff (s.consume q.entry) q.entry (.barrier false) true
      exact consume_frame (goto_frame_pc _ (construct_pc ..) _) hslot hoff.opcode hoff.state
        (by simp [View.observe]) (by simp)
    · exact consume_frame (leave_frame_pc _ rfl _) hslot (by simp [Cfg.consume]) (by simp)
        (by simp [View.observe]) (by simp)
  · exact .quiet (fun _ _ => rfl) rfl rfl (by simp)

theorem acquireCall_frame (h : Inv kind s v)
    (hs : acquireCall s t q = some (e, s')) : Frame s v t e s' := by
  cases acquireCall_begun hs with
  | refused => exact .quiet (fun _ _ => rfl) rfl rfl (by simp)
  | tryOnly => exact .quiet (goto_frame_pc _ rfl _) rfl rfl (by simp)
  | bare => exact .quiet (goto_frame_pc _ rfl _) rfl rfl (by simp)
  | @fresh had _ _ _ hor =>
    have hoff := construct_sameOff { s with slot := Function.update s.slot q.entry (.used t) }
      q.entry q.goal.opcode had
    have hst : v.stat q.entry = .idle := by
      rcases hor with ⟨hsl, -⟩ | ⟨hsl, hpoll⟩
      · exact h.glob.idle_of_none hsl
      · exact h.glob.idle_of_unpolled hsl hpoll
    refine .off (goto_frame_pc _ (construct_pc ..) _) (fun u _ => ?_) hoff.opcode hoff.state
      (.inl hst) (by simp)
    rcases hor with ⟨hsl, -⟩ | ⟨hsl, -⟩ <;> rw [hsl] <;> simp

theorem callStep_frame (h : Inv kind s v) {op : Op} (hs : callStep kind s t op = some (e, s')) :
    Frame s v t e s' := by
  unfold callStep at hs
  split at hs
  · cases hs
  split at hs
  · split at hs
    · exact acquireCall_frame h hs
    · cases hs
  · unfold pollCall at hs
    split at hs
    · next hsl =>
      split at hs
      · cases hs
        exact consume_frame (fun _ _ => rfl) (fun u _ => by simp [hsl]) (fun _ _ => rfl)
          (fun _ _ => rfl) (by simp [View.observe]) (by simp)
      · cases hs
        exact .quiet (fun _ _ => rfl) rfl rfl (by simp)
    · cases hs
  · unfold dropCall at hs
    split at hs
    · split at hs
      · cases hs
        exact .quiet (goto_frame_pc _ rfl _) rfl rfl (by simp)
      · cases hs
        exact .quiet (fun _ _ => rfl) rfl rfl (by simp)
    · cases hs
  case h_9 =>
    split at hs
    · cases hs
      exact .quiet (goto_frame_pc _ rfl _) rfl rfl (by simp)
    · cases hs
      exact .quiet (fun _ _ => rfl) rfl rfl (by simp)
  all_goals
    cases hs
    try exact .quiet (goto_frame_pc _ rfl _) rfl rfl (by simp)

theorem cancelStep_frame (hs : cancelStep kind s t = some (e, s')) : Frame s v t e s' := by
  unfold cancelStep at hs
  split at hs
  · split at hs
    · split at hs
      · cases hs
        exact .quiet (goto_frame_pc _ rfl _) rfl rfl (by simp)
      · cases hs
        exact .quiet (leave_frame_pc _ rfl _) (by simp) (by simp) (by simp)
    · cases hs
  · cases hs

theorem Frame.moved {x : Cfg} {p : Pc} (hpc : x.pc = s.pc) (ho : x.opcode = s.opcode)
    (hst : x.state = s.state) (he : ∀ u b r, e ≠ .setResult u b r) :
    Frame s v t e (x.goto t p) :=
  .quiet (goto_frame_pc _ hpc _) ho hst he

theorem releaseFast_frame {op : Opcode} :
    Frame s v t (releaseFast s t op).1 (releaseFast s t op).2 := by
  cases op <;> simp only [releaseFast] <;> (try split) <;> exact .moved rfl rfl rfl (by simp)

theorem removeStep_frame {b cur : Ptr} {found state : ℕ} {again : Bool} :
    Frame s v t (removeStep s t b found state cur again).1
      (removeStep s t b found state cur again).2 := by
  unfold removeStep
  split
  · split <;> exact .moved rfl rfl rfl (by simp)
  split
  · split <;> exact .moved rfl rfl rfl (by simp)
  by_cases hn : s.next b = 0 <;> simp only [hn, ↓reduceIte] <;> split
  · exact .moved rfl rfl rfl (by simp)
  · split
    · exact .moved rfl rfl rfl (by simp)
    · split <;> exact .moved rfl rfl rfl (by simp)
  · exact .moved rfl rfl rfl (by simp)
  · split
    · exact .moved rfl rfl rfl (by simp)
    · split <;> exact .moved rfl rfl rfl (by simp)

theorem runStep_frame (h : Inv kind s v) (hs : runStep kind s t = some (e, s')) :
    Frame s v t e s' := by
  unfold runStep at hs
  cases hpc : s.pc t <;> simp only [hpc, Option.some.injEq, reduceCtorEq] at hs
  all_goals
    obtain ⟨h₁, h₂⟩ := Prod.ext_iff.mp hs
    change _ = e at h₁
    change _ = s' at h₂
    subst h₁ h₂
  all_goals
    have hl := h.loc t
    rw [hpc] at hl
  case start => exact startStep_frame
  case attempt => exact attemptStep_frame h hpc
  case push =>
    unfold tryPushWaitQueueEntry
    split <;> exact .moved rfl rfl rfl (by simp)
  case pushed => exact pushedStep_frame
  case settle q r =>
    exact setResult_frame (hl.built q.entry (if_neg hl.fits) rfl).1
      (Or.inl (hl.stat q.entry (if_neg hl.fits)))
  case settled => exact settledStep_frame
  case await => exact awaitStep_frame h hpc
  case writeBack => exact .moved rfl rfl rfl (by simp [writeBackStep])
  case releaseFast => exact releaseFast_frame
  case wakeAll => exact .moved rfl rfl rfl (by simp [wakeAllStep])
  case gateDrop b =>
    have hsl := (hl.slot b).mp rfl
    unfold gateDropStep
    split
    · exact consume_frame (goto_frame_pc _ rfl _) (fun u hu => by rw [hsl]; simpa using hu.symm)
        (fun _ _ => rfl) (fun _ _ => rfl) (by simp [View.observe]) (by simp)
    · exact .moved rfl rfl rfl (by simp)
  case acknowledge b =>
    have hsl := (hl.slot b).mp rfl
    unfold acknowledgeStep
    split
    · exact consume_frame (goto_frame_pc _ rfl _) (fun u hu => by rw [hsl]; simpa using hu.symm)
        (fun _ _ => rfl) (fun _ _ => rfl) (by simp [View.observe]) (by simp)
    · exact .quiet (fun _ _ => rfl) rfl rfl (by simp)
  case add => exact .moved rfl rfl rfl (by simp [addStep])
  case resolve cur r n k =>
    unfold resolveStep
    split
    · cases k <;> exact .moved rfl rfl rfl (by simp [Then.step])
    · next hz =>
      obtain ⟨l, htk⟩ := hl.taken.mem_head hz
      have hst : v.stat cur = .taken t :=
        (h.glob.taken t cur).mp (by rw [htk]; exact List.mem_cons_self ..)
      exact setResult_frame (h.glob.clear cur (Or.inr (Or.inl ⟨t, hst⟩))) (Or.inr hst)
  case finalize cur nx r n k =>
    exact setFinalized_frame (b := cur) (goto_frame_pc _ rfl _) rfl rfl (by simp [finalizeStep])
  case remove => exact removeStep_frame
  case dropLoad => exact .moved rfl rfl rfl (by simp)
  case complete =>
    unfold completeStep
    split
    · exact .moved rfl rfl rfl (by simp)
    · exact .quiet (fun _ _ => rfl) rfl rfl (by simp)
  case finish => exact .moved rfl rfl rfl (by simp [finishStep])
  case releaseLoop | poisonFast | poisonLoop | clearPoison | gateReset | walk | relink | back |
      tailReset | update | dropLoop =>
    simp only [releaseLoop, poisonFast, poisonLockInternal, clearPoisonStep, gateResetStep,
      walkStep, relinkStep, backStep, tailResetStep, updateStep, forceRemove]
    repeat' split
    all_goals exact .moved rfl rfl rfl (by simp)

theorem step_frame (h : Inv kind s v) (hs : step kind s a = some (e, s')) :
    Frame s v a.actor e s' := by
  cases a with
  | call t op => exact callStep_frame h hs
  | run t => exact runStep_frame h hs
  | cancel t => exact cancelStep_frame hs

end
end Saa
