import Saa.Entries

/-! # Releasing, poisoning and waking keep the invariant -/
namespace Saa

open Word Lib.Linked

section
variable {kind : Kind} {s : Cfg} {v : View} {t : Tid} {p p' : Pc} {a : Ptr}

theorem Local.bare {w : ℕ} {f : Tid → Pc} (h : Local kind s v t p) (he : p.entry = none)
    (he' : p'.entry = none) (ha : p'.answering = p.answering) (ht : p'.takePtr = p.takePtr)
    (hq : p'.reqs = none) (hk : p'.Fits kind) (hh : Hold kind { s with word := w, pc := f } v p')
    (hc : Counted kind { s with word := w, pc := f } v t p') :
    Local kind { s with word := w, pc := f } v t p' where
  slot a := by rw [he', ← he]; exact h.slot a
  stat a hm := by rw [he'] at hm; cases hm
  anchors a hm := by rw [he'] at hm; cases hm
  built a hm := by rw [he'] at hm; cases hm
  flagged a hm := by rw [he'] at hm; cases hm
  reqs q hm := by rw [hq] at hm; cases hm
  fits := hk
  answering a := by rw [ha]; exact h.answering a
  taken := by rw [ht]; exact h.taken
  hold := hh
  counted := hc

theorem Inv.anchor_zero (h : Inv kind s v) (hw : s.word < 256) : anchor s.word = 0 := by
  by_contra hne
  obtain ⟨l, hl⟩ := h.glob.chain.mem_head hne
  have hq := (h.glob.queued (anchor s.word)).mp (by rw [hl]; simp)
  have ha := (h.glob.anchors (anchor s.word) (by simp [hq])).2
  rw [anchor_eq] at ha
  simp only [VIRTUAL_ALIGNMENT] at ha
  omega

theorem releaseFast_inv (h : Inv kind s v) {op : Opcode} (hpc : s.pc t = .releaseFast op) :
    Inv kind (releaseFast s t op).2 (v.observe (releaseFast s t op).1) := by
  have hl := h.loc t
  rw [hpc] at hl
  have hgate : kind ≠ .gate := by
    rcases hl.fits with ⟨rfl, _⟩ | ⟨n, c, rfl, _⟩ <;> simp
  have hslow : Inv kind (s.goto t (.releaseLoop (.caller t) op s.word)) v :=
    h.goto (hl.bare rfl rfl rfl rfl rfl hgate trivial trivial) (by rw [hpc]; exact Iff.rfl)
  have hfast : ∀ w, s.word < 64 → w < 64 → Inv kind ({ s with word := w }.goto t .idle) v :=
    fun w hs hw => h.freeWord hs hw (hl.bare rfl rfl rfl rfl rfl trivial trivial trivial) id
  cases op with
  | exclusive =>
    simp only [releaseFast]
    split
    · next hw => exact hfast 0 (by rw [hw]; decide) (by decide)
    · exact hslow
  | shared =>
    simp only [releaseFast]
    split
    · next hw =>
      have hle := hw.2
      simp only [MAX_SHARED_OWNERS, DATA_MASK, LOCKED_FLAG, VIRTUAL_ALIGNMENT,
        Nat.reduceShiftRight, Nat.reduceSub] at hle
      exact hfast _ (by omega) (by omega)
    · exact hslow
  | semaphore n =>
    simp only [releaseFast]
    split
    · next hw =>
      have hsem : n < 256 ∧ kind ≠ .lock := by
        rcases hl.fits with ⟨_, he⟩ | ⟨m, c, rfl, he, hc⟩
        · simp at he
        · cases he
          exact ⟨hc, by simp⟩
      have ha := h.anchor_zero (by omega)
      exact hfast 0 (lt_of_unlocked ha (h.unlocked_of_anchor ha hsem.2)) (by decide)
    · exact hslow
  | barrier => exact hslow
  | wait => exact hslow

theorem Holder.after_entry (h : Holder) : h.after.entry = h.borrowed := by
  cases h <;> rfl

theorem after_pc_entry (k : After) : k.pc.entry = k.entry := by
  cases k <;> rfl

theorem after_pc_spec (kind : Kind) (k : After) :
    k.pc.answering = none ∧ k.pc.takePtr = 0 ∧ k.pc.built = false ∧ k.pc.flagged = false ∧
    k.pc.reqs = none ∧ (kind ≠ .gate → k.pc.Fits kind) ∧ ¬k.pc.Holds ∧
    (k.pc.entry ≠ none → k.pc.stage = k.stage) := by
  cases k <;> simp [After.pc, Pc.answering, Pc.takePtr, Pc.built, Pc.flagged, Pc.reqs, Pc.Fits,
    Pc.Holds, Pc.stage, After.stage, Pc.entry]

theorem after_hold (k : After) (w : ℕ) (f : Tid → Pc) :
    Hold kind { s with word := w, pc := f } v k.pc ∧
    Counted kind { s with word := w, pc := f } v t k.pc := by
  cases k <;> exact ⟨trivial, trivial⟩

theorem Local.after {k : After} {w : ℕ} {f : Tid → Pc} (h : Local kind s v t p)
    (he : p.entry = k.entry) (ha : p.answering = none) (ht : p.takePtr = 0)
    (hs : ∀ a st, k.entry = some a → p.stage.Admits t st → k.stage.Admits t st)
    (hg : kind ≠ .gate) : Local kind { s with word := w, pc := f } v t k.pc := by
  obtain ⟨h₁, h₂, h₃, h₄, h₅, h₆, h₇, h₈⟩ := after_pc_spec kind k
  have hpe := after_pc_entry k
  exact {
    slot := fun a => by rw [hpe, ← he]; exact h.slot a
    stat := fun a hm => by
      rw [h₈ (by rw [hm]; simp)]
      rw [hpe] at hm
      exact hs a _ hm (h.stat a (he.trans hm))
    anchors := fun a hm => h.anchors a (by rw [he, ← hpe]; exact hm)
    built := fun _ _ hb => by rw [h₃] at hb; cases hb
    flagged := fun _ _ hb => by rw [h₄] at hb; cases hb
    reqs := fun _ hm => by rw [h₅] at hm; cases hm
    fits := h₆ hg
    answering := fun a => by rw [h₁, ← ha]; exact h.answering a
    taken := by rw [h₂, h.taken_nil ht]; rfl
    hold := (after_hold (t := t) k w f).1
    counted := (after_hold k w f).2 }

theorem sub_fields {w c : ℕ} (hc : c ≤ data w) :
    anchor (w - c) = anchor w ∧ data (w - c) = data w - c ∧ (Locked (w - c) ↔ Locked w) := by
  simp only [anchor_eq, data_eq, locked_iff] at hc ⊢
  omega

theorem lock_fields {w : ℕ} :
    anchor (lock w) = anchor w ∧ data (lock w) = data w ∧ Locked (lock w) := by
  rw [lock_eq]
  split
  · next h => exact ⟨rfl, rfl, h⟩
  · next h =>
    simp only [anchor_eq, data_eq, locked_iff] at h ⊢
    omega

theorem Inv.snap (h : Inv kind s v) {w : ℕ} {f : Tid → Pc} (ha : anchor w = anchor s.word)
    (hw : Locked w) (hne : anchor s.word ≠ 0) :
    ∃ rest, v.queue = anchor s.word :: rest ∧
      Snap { s with word := w, pc := f } v w [] (anchor s.word :: rest) := by
  obtain ⟨rest, hq⟩ := h.glob.chain.mem_head hne
  refine ⟨rest, hq, ⟨hq, by rw [ha]; rfl, hw, hw, le_rfl, by simp, ?_⟩⟩
  rw [ha]
  exact h.glob.tail_prev _ (by rw [hq]; rfl)

theorem Inv.startPass (h : Inv kind s v) {k : After} {w : ℕ} (hn : ¬Locked s.word)
    (ha : anchor w = anchor s.word) (hw : Locked w) (hne : anchor s.word ≠ 0)
    (he : (s.pc t).entry = k.entry) (hans : (s.pc t).answering = none)
    (htp : (s.pc t).takePtr = 0)
    (hs : ∀ a st, k.entry = some a → (s.pc t).stage.Admits t st → k.stage.Admits t st)
    (hg : kind ≠ .gate) : Inv kind ({ s with word := w }.goto t (passStart w 0 k)) v := by
  have hl := h.loc t
  obtain ⟨rest, hq, hsnap⟩ := h.snap (f := Function.update s.pc t (passStart w 0 k)) ha hw hne
  refine h.setWord w ha (fun u _ hu => absurd hu (h.none_holds hn u)) ?_
    (fun _ => Or.inr (h.none_holds hn)) (fun _ => Or.inl trivial)
  exact {
    slot := fun a => (by rw [he] : k.entry = some a ↔ (s.pc t).entry = some a).trans (hl.slot a)
    stat := fun a hm => hs a _ hm (hl.stat a (he.trans hm))
    anchors := fun a hm => hl.anchors a (he.trans hm)
    built := fun _ _ hb => by cases hb
    flagged := fun _ _ hb => by cases hb
    reqs := fun _ hm => by cases hm
    fits := hg
    answering := fun a => (by rw [hans] : none = some a ↔ (s.pc t).answering = some a).trans
      (hl.answering a)
    taken := by rw [hl.taken_nil htp]; rfl
    hold := ⟨[], [], rest, by rw [ha]; exact hsnap, .singleton _⟩
    counted := trivial }

theorem releaseLoop_inv (h : Inv kind s v) {o : Holder} {op : Opcode} {state : ℕ}
    (hpc : s.pc t = .releaseLoop o op state) :
    Inv kind (releaseLoop s t o op state).2 (v.observe (releaseLoop s t o op state).1) := by
  have hl := h.loc t
  rw [hpc] at hl
  have hg : kind ≠ .gate := hl.fits
  have hst : ∀ (a : Ptr) st, o.after.entry = some a → Stage.final.Admits t st →
      o.after.stage.Admits t st := by
    intro a st ha hf
    cases o with
    | caller u => cases ha
    | entry b => exact Or.inl hf
  have hafter : ∀ w f, Local kind { s with word := w, pc := f } v t o.after.pc := fun w f =>
    hl.after (Holder.after_entry o).symm rfl rfl hst hg
  have hah := (after_pc_spec kind o.after).2.2.2.2.2.2.1
  unfold releaseLoop
  split
  · exact h.goto (hafter _ _) (by rw [hpc]; exact iff_of_false hah id)
  next hcan =>
  rw [not_not] at hcan
  split
  · exact h.goto (hl.move rfl rfl rfl (fun _ hs => hs) (fun hb => by cases hb)
      (fun hb => by cases hb) (fun _ hr => by cases hr) hg trivial trivial)
      (by rw [hpc]; exact Iff.rfl)
  next hw =>
  rw [not_not] at hw
  subst hw
  have hle := acquired_le_data hcan
  obtain ⟨hsa, hsd, hsl⟩ := sub_fields hle
  split
  · refine h.setWord _ hsa (fun u _ hu => ⟨hsl.mpr (h.word_locked hu), by omega⟩) (hafter _ _)
      (fun hp => absurd hp hah) (fun hk => Or.inr (Or.inl ⟨hsl.mp hk, by rw [hpc]; exact id, ?_⟩))
    intro hpo
    rw [hpo, show data POISONED_STATE = 0 by decide] at hle
    rw [Nat.le_zero.mp hle, Nat.sub_zero, hpo]
  · next hq =>
    obtain ⟨hla, hld, hll⟩ := lock_fields (w := s.word)
    have hle' : op.acquiredCount ≤ data (lock s.word) := by rw [hld]; exact hle
    obtain ⟨hsa', hsd', hsl'⟩ := sub_fields hle'
    exact h.startPass (fun hn => hq (Or.inr hn)) (hsa'.trans hla) (hsl'.mpr hll)
      (fun he => hq (Or.inl he)) (by rw [hpc]; exact (Holder.after_entry o).symm)
      (by rw [hpc]; rfl) (by rw [hpc]; rfl) (by rw [hpc]; exact hst) hg

theorem poisonFast_inv (h : Inv kind s v) (hpc : s.pc t = .poisonFast) :
    Inv kind (poisonFast s t).2 (v.observe (poisonFast s t).1) := by
  have hl := h.loc t
  rw [hpc] at hl
  unfold poisonFast
  split
  · next hw =>
    have hnil : v.queue = [] := h.glob.chain.eq_nil_iff.mpr (by rw [hw]; decide)
    refine h.takeAll _ (by rw [hw]; decide) (by decide) (fun _ => ⟨hl.fits, rfl⟩)
      (hl.taken_nil rfl) id ?_
    refine hl.detached (fun a ha => (h.glob.queued a).mp ha) rfl rfl (fun _ hs => hs)
      (fun _ hs _ => by cases hs) (fun hb => by cases hb) (fun hb => by cases hb)
      (fun _ hr => by cases hr) trivial ?_ trivial trivial
    rw [hnil]
    rfl
  · exact h.goto (hl.bare rfl rfl rfl rfl rfl hl.fits trivial trivial) (by rw [hpc]; exact Iff.rfl)

theorem poisonLockInternal_inv (h : Inv kind s v) {state : ℕ} (hpc : s.pc t = .poisonLoop state) :
    Inv kind (poisonLockInternal s t state).2 (v.observe (poisonLockInternal s t state).1) := by
  have hl := h.loc t
  rw [hpc] at hl
  have hretry : Inv kind (s.goto t (.poisonLoop s.word)) v :=
    h.goto (hl.bare rfl rfl rfl rfl rfl hl.fits trivial trivial) (by rw [hpc]; exact Iff.rfl)
  unfold poisonLockInternal
  split
  · exact h.goto (hl.bare rfl rfl rfl rfl rfl trivial trivial trivial)
      (by rw [hpc]; exact Iff.rfl)
  split
  · exact hretry
  next hnl =>
  split
  · next hw =>
    subst hw
    refine h.takeAll _ hnl (by decide) (fun _ => ⟨hl.fits, rfl⟩) (hl.taken_nil rfl) id ?_
    exact hl.detached (fun a ha => (h.glob.queued a).mp ha) rfl rfl (fun _ hs => hs)
      (fun _ hs _ => by cases hs) (fun hb => by cases hb) (fun hb => by cases hb)
      (fun _ hr => by cases hr) hl.fits h.glob.chain trivial trivial
  · exact hretry

theorem clearPoisonStep_inv (h : Inv kind s v) (hpc : s.pc t = .clearPoison) :
    Inv kind (clearPoisonStep s t).2 (v.observe (clearPoisonStep s t).1) := by
  have hl := h.loc t
  rw [hpc] at hl
  unfold clearPoisonStep
  split
  · next hw =>
    have ha : anchor s.word = 0 := by rw [hw]; decide
    exact h.setWord 0 (by rw [ha]; decide) (fun u _ hu => absurd ha (h.anchor_ne hu))
      (hl.bare rfl rfl rfl rfl rfl trivial trivial trivial) (fun hp => absurd hp id)
      (fun hk => absurd hk (by decide))
  · exact h.goto (hl.bare rfl rfl rfl rfl rfl trivial trivial trivial)
      (by rw [hpc]; exact Iff.rfl)

theorem Inv.gate_unlocked (h : Inv kind s v) (hg : kind = .gate) : ¬Locked s.word := by
  intro hw
  rcases h.locked hw with ⟨u, hu⟩ | ⟨hk, _⟩
  · have hf := (h.loc u).fits
    cases hp : s.pc u with
    | resolve _ _ _ k => cases k <;> simp_all [Pc.Holds, Pc.Fits]
    | finalize _ _ _ _ k => cases k <;> simp_all [Pc.Holds, Pc.Fits]
    | _ => simp_all [Pc.Holds, Pc.Fits]
  · rw [hg] at hk
    cases hk

theorem GateState.toNat_lt (g : GateState) : g.toNat < 64 := by
  cases g <;> decide

theorem anchor_of_lt {w : ℕ} (h : w < 64) : anchor w = 0 ∧ ¬Locked w := by
  rw [anchor_eq, locked_iff]
  omega

theorem wakeAllStep_inv (h : Inv kind s v) {nx : Option GateState} {er : Option GateError}
    {k : Then} (hpc : s.pc t = .wakeAll nx er k) :
    Inv kind (wakeAllStep s t nx er k).2 (v.observe (wakeAllStep s t nx er k).1) := by
  have hl := h.loc t
  rw [hpc] at hl
  obtain ⟨hg, hk⟩ := hl.fits
  have hlt : (wakeAllStep s t nx er k).2.word < 64 := by
    cases nx with
    | none => exact data_lt _
    | some g => exact g.toNat_lt
  obtain ⟨ha, hn⟩ := anchor_of_lt hlt
  have hno := h.gate_unlocked hg
  simp only [wakeAllStep, View.observe]
  rcases hk with rfl | ⟨a, rfl⟩
  · refine h.takeAll _ hno ha (fun hk => absurd hk hn) (hl.taken_nil rfl) id ?_
    exact hl.detached (fun a ha => (h.glob.queued a).mp ha) rfl rfl (fun _ hs => hs)
      (fun _ hs _ => by cases hs) (fun hb => by cases hb) (fun hb => by cases hb)
      (fun _ hr => by cases hr) hg h.glob.chain trivial trivial
  · refine h.takeAll _ hno ha (fun hk => absurd hk hn) (hl.taken_nil rfl) id ?_
    exact hl.detached (fun a ha => (h.glob.queued a).mp ha) rfl rfl (fun _ hs => hs)
      (fun _ _ he => by simp [he, Pc.stage, Then.stage, Stage.Admits]) (fun hb => by cases hb)
      (fun hb => by cases hb) (fun _ hr => by cases hr) hg h.glob.chain trivial trivial

theorem gateResetStep_inv (h : Inv kind s v) (hpc : s.pc t = .gateReset) :
    Inv kind (gateResetStep s t).2 (v.observe (gateResetStep s t).1) := by
  have hl := h.loc t
  rw [hpc] at hl
  simp only [gateResetStep]
  split
  · exact h.goto (hl.bare rfl rfl rfl rfl rfl trivial trivial trivial)
      (by rw [hpc]; exact Iff.rfl)
  · obtain ⟨ha, -, hn⟩ := join_data s.word (GateState.ofUsize (data s.word)).toNat_lt
    exact h.setWord _ ha (fun u _ hu => absurd hu (h.none_holds (h.gate_unlocked hl.fits) u))
      (hl.bare rfl rfl rfl rfl rfl trivial trivial trivial) (fun hp => absurd hp id)
      (fun hk => absurd hk hn)

theorem barrier_via {q : Req} {n : ℕ} (hf : q.Fits (.barrier n)) : q.via ≠ .tryOnly := by
  intro hv
  have hg : q.goal = .arrive := by
    obtain ⟨goal, via, entry⟩ := q
    cases goal with
    | arrive => rfl
    | _ => cases hf
  rcases (arrive_fits hf hg).1 with hx | hx <;> rw [hv] at hx <;> cases hx

theorem writeBackStep_inv (h : Inv kind s v) {q : Req} {count : ℕ}
    (hpc : s.pc t = .writeBack q count) (hn : ¬Locked s.word) (hc : count < 64) :
    Inv kind (writeBackStep s t q count).2 (v.observe (writeBackStep s t q count).1) := by
  have hl := h.loc t
  rw [hpc] at hl
  obtain ⟨ha, hn'⟩ := anchor_of_lt hc
  obtain ⟨n, rfl⟩ := hl.fits
  have htry := barrier_via (hl.reqs q rfl).1
  refine h.takeAll _ hn ha (fun hk => absurd hk hn') (hl.taken_nil rfl) id ?_
  exact hl.detached (fun a ha => (h.glob.queued a).mp ha) (if_neg htry).symm rfl
    (fun _ hs => hs) (fun _ hs _ => by cases hs) (fun _ => rfl) (fun hb => by cases hb)
    (fun _ hr => hr) ⟨n, rfl⟩ h.glob.chain trivial trivial

theorem Local.snapshot (h : Inv kind s v) (hl : Local kind s v t p) (he : p.entry = some a)
    (hlive : p.stage.Admits t (v.stat a) → v.stat a ≠ .idle ∧ v.stat a ≠ .unlinked) :
    (if anchor s.word = 0 then Stage.gone else Stage.live).Admits t (v.stat a) := by
  obtain ⟨h₁, h₂⟩ := hlive (hl.stat a he)
  split
  · next hz =>
    refine ⟨h₁, h₂, fun hq => ?_⟩
    have hm := (h.glob.queued a).mpr hq
    rw [h.glob.chain.eq_nil_iff.mpr hz] at hm
    cases hm
  · exact ⟨h₁, h₂⟩

theorem Inv.dropLoop (h : Inv kind s v) (he : (s.pc t).entry = some a)
    (hlive : (s.pc t).stage.Admits t (v.stat a) → v.stat a ≠ .idle ∧ v.stat a ≠ .unlinked)
    (hans : (s.pc t).answering = none) (htp : (s.pc t).takePtr = 0) (hh : ¬(s.pc t).Holds)
    (hg : kind ≠ .gate) : Inv kind (s.goto t (.dropLoop a s.word)) v := by
  have hl := h.loc t
  refine h.goto ?_ (iff_of_false id hh)
  exact {
    slot := fun b => (by rw [he] : some a = some b ↔ (s.pc t).entry = some b).trans (hl.slot b)
    stat := fun b hb => by
      cases hb
      exact hl.snapshot h he hlive
    anchors := fun b hb => hl.anchors b (he.trans hb)
    built := fun _ _ hb => by cases hb
    flagged := fun _ _ hb => by cases hb
    reqs := fun _ hr => by cases hr
    fits := hg
    answering := fun b => (by rw [hans] :
      none = some b ↔ (s.pc t).answering = some b).trans (hl.answering b)
    taken := by rw [hl.taken_nil htp]; rfl
    hold := trivial
    counted := trivial }

theorem dropLoad_inv (h : Inv kind s v) (hpc : s.pc t = .dropLoad a) :
    Inv kind (s.goto t (.dropLoop a s.word)) v := by
  have hl := h.loc t
  rw [hpc] at hl
  exact h.dropLoop (by rw [hpc]; rfl) (fun hs => by rw [hpc] at hs; exact hs) (by rw [hpc]; rfl)
    (by rw [hpc]; rfl) (by rw [hpc]; exact id) hl.fits

theorem forceRemove_inv (h : Inv kind s v) {state : ℕ} (hpc : s.pc t = .dropLoop a state) :
    Inv kind (forceRemove s t a state).2 (v.observe (forceRemove s t a state).1) := by
  have hl := h.loc t
  rw [hpc] at hl
  have hst := hl.stat a rfl
  have hlive : v.stat a ≠ .idle ∧ v.stat a ≠ .unlinked := by
    simp only [Pc.stage] at hst
    split at hst
    · exact ⟨hst.1, hst.2.1⟩
    · exact hst
  have hagain : Inv kind (s.goto t (.dropLoop a s.word)) v :=
    h.dropLoop (by rw [hpc]; rfl) (fun _ => hlive) (by rw [hpc]; rfl) (by rw [hpc]; rfl)
      (by rw [hpc]; exact id) hl.fits
  unfold forceRemove
  split
  · exact hagain
  next hnl =>
  split
  · next hz =>
    exact h.goto (hl.move rfl rfl rfl (fun _ hs => by simpa [Pc.stage, hz] using hs)
      (fun hb => by cases hb) (fun hb => by cases hb) (fun _ hr => by cases hr) hl.fits trivial
      trivial) (by rw [hpc]; exact Iff.rfl)
  next hz =>
  split
  · next hw =>
    subst hw
    obtain ⟨hla, hld, hll⟩ := lock_fields (w := s.word)
    obtain ⟨rest, hq, hsnap⟩ := h.snap
      (f := Function.update s.pc t (.remove a s.word (lock s.word) (anchor s.word) false)) hla hll
        hz
    refine h.setWord _ hla (fun u _ hu => absurd hu (h.none_holds hnl u)) ?_
      (fun _ => Or.inr (h.none_holds hnl)) (fun _ => Or.inl trivial)
    refine hl.move rfl rfl rfl (fun _ hs => by simpa [Pc.stage, hz] using hs)
      (fun hb => by cases hb) (fun hb => by cases hb) (fun _ hr => by cases hr) hl.fits ?_ trivial
    exact ⟨[], _, hsnap, by simp, Or.inl ⟨[], rest, rfl, .singleton _, by simp, by simp⟩⟩
  · exact hagain

theorem completeStep_inv (h : Inv kind s v) {state : ℕ} (hpc : s.pc t = .complete a state) :
    Inv kind (completeStep s t a state).2 (v.observe (completeStep s t a state).1) := by
  have hl := h.loc t
  rw [hpc] at hl
  unfold completeStep
  split
  · next hf =>
    have hst := h.glob.final_of (hl.stat a rfl).1 hf
    refine h.goto ?_ (by rw [hpc]; exact Iff.rfl)
    exact {
      slot := hl.slot
      stat := fun b hb => by cases hb; exact hst
      anchors := hl.anchors
      built := fun _ _ hb => by cases hb
      flagged := fun _ _ hb => by cases hb
      reqs := fun _ hr => by cases hr
      fits := hl.fits
      answering := hl.answering
      taken := hl.taken
      hold := trivial
      counted := trivial }
  · exact h

end
end Saa
