import Saa.Batch
import Saa.Poison

/-! # Removing an entry

What `remove_wait_queue_entry` does for an arbitrary queue and target: it takes out the
target and nothing else, whatever others push and release meanwhile. -/
namespace Saa

open Word Lib.Linked Lib.Trace

def Pc.Unlinking (p : Pc) (a : Ptr) (found : ℕ) : Prop :=
  ∃ state cur again, p = .remove a found state cur again

abbrev While (kind : Kind) (s₀ : Cfg) (u : Tid) (a : Ptr) (found : ℕ) : Cfg → List Event → Prop :=
  Run ⟨s₀, step kind⟩ (fun s _ _ => (s.pc u).Unlinking a found)

/-- `remove_wait_queue_entry` has returned `(state, b)` where `q` waited when it began and
`pushed` came meanwhile. -/
structure Returns (u : Tid) (a : Ptr) (found : ℕ) (q pushed : List Ptr) (s s' : Cfg) (v : View)
    (state : ℕ) (b : Bool) : Prop where
  pc : s'.pc u = removed a found state b
  found : b = true ↔ a ∈ q
  queue : v.queue = pushed ++ q.erase a
  next : Chain 0 s'.next (anchor s'.word) v.queue
  prev : ∀ c ∈ v.queue.head?, s'.prev c = 0
  data : data s'.word = data s.word
  snapshot : v.queue ≠ [] → Locked s'.word ∧ ∃ newer seg, Snap s' v state newer seg
  emptied : v.queue = [] → q = [a] ∧ pushed = [] ∧ state = s'.word ∧ s'.word = Word.data s.word

/-- While a thread is in the call: the queue has only grown, by other entries. -/
structure Removing (kind : Kind) (u : Tid) (a : Ptr) (found : ℕ) (q : List Ptr) (s : Cfg)
    (m : Trail) : Prop where
  inv : Inv kind s m.view
  queue : (s.pc u).Unlinking a found → m.view.queue = m.pushed ++ q
  fresh : (s.pc u).Unlinking a found → a ∉ m.pushed

section
variable {kind : Kind} {s s' s₀ : Cfg} {m : Trail} {t u : Tid} {act : Action} {e : Event}
  {q : List Ptr} {a : Ptr} {found : ℕ}

theorem Pc.Unlinking.holds {p : Pc} (h : p.Unlinking a found) : p.Holds := by
  obtain ⟨_, _, _, rfl⟩ := h
  trivial

theorem Pc.Unlinking.slot {v : View} (h : (s.pc u).Unlinking a found) (hi : Inv kind s v) :
    s.slot a = .used u := by
  obtain ⟨_, _, _, hp⟩ := h
  have hl := hi.loc u
  rw [hp] at hl
  exact (hl.slot a).mp rfl

theorem Removing.other (hm : Removing kind u a found q s m) (hk : kind.Grants)
    (ht : Took kind s m.view t act e s') (hu : u ≠ t) :
    Removing kind u a found q s' (m.observe u e) := by
  have hpc : s'.pc u = s.pc u := ht.frame.pc u hu
  refine ⟨ht.inv', ?_, ?_⟩
  · rw [hpc]
    intro hp
    obtain ⟨new, h₁, h₂⟩ := ht.queue_grows hk hu hp.holds
    rw [h₁, h₂, hm.queue hp, List.append_assoc]
  · rw [hpc]
    intro hp
    have hfresh := hm.fresh hp
    have hef := ht.effect
    cases e with
    | push x b op =>
      obtain ⟨-, -, ⟨q', hpc', rfl⟩, -⟩ := hef
      have hl := ht.inv.loc x
      rw [hpc'] at hl
      have hx : s.slot q'.entry = .used x :=
        (hl.slot _).mp (by simp only [Pc.entry, Req.held, if_neg hl.fits.1])
      intro hmem
      rcases List.mem_cons.mp hmem with rfl | hmem
      · have hslot := hp.slot ht.inv
        rw [hx] at hslot
        cases hslot
        obtain ⟨_, _, _, hp⟩ := hp
        rw [hpc'] at hp
        cases hp
      · exact hfresh hmem
    | _ => exact hfresh

theorem removed_not_unlinking {state w : ℕ} {b : Bool} {c : Ptr} :
    ¬(removed a found state b).Unlinking c w := by
  rintro ⟨_, _, _, hp⟩
  unfold removed passStart at hp
  cases b <;> by_cases hl : Locked state <;> simp [hl, After.pc] at hp

theorem Returns.left {pushed : List Ptr} {v : View} {state : ℕ} {b : Bool}
    (hr : Returns u a found q pushed s s' v state b) : ¬(s'.pc u).Unlinking a found := by
  rw [hr.pc]
  exact removed_not_unlinking

/-- What one step of the call does. -/
theorem Removing.own (hm : Removing kind u a found q s m) (hp : (s.pc u).Unlinking a found)
    (hk : kind.Grants) (hs : step kind s (.run u) = some (e, s'))
    (ht : Took kind s m.view u (.run u) e s') :
    ((s'.pc u).Unlinking a found ∧ s'.word = s.word ∧ e = .tau) ∨
    ∃ state b, Returns u a found q m.pushed s s' (m.view.observe e) state b := by
  have hi := hm.inv
  have hi' := ht.inv'
  have hqueue := hm.queue hp
  have hfresh := hm.fresh hp
  have hmv := ht.move
  have hef := ht.effect
  obtain ⟨state, cur, again, hpc⟩ := hp
  have hl := hi.loc u
  have hl' := hi'.loc u
  rw [hpc] at hmv hl
  generalize hpc' : s'.pc u = p' at hmv hl'
  cases hmv with
  | gate _ hg => cases hg
  | own htry | take htry => rcases htry with h | ⟨_, _, h⟩ <;> cases h
  | seek => exact .inl ⟨⟨_, _, _, rfl⟩, hef, rfl⟩
  | missing hst =>
    obtain ⟨newer, done, rest, hsnap, -⟩ := hl'.hold
    have hnot : a ∉ q := by
      intro hm'
      apply hst
      rw [← hi.glob.queued, hqueue]
      exact List.mem_append_right _ hm'
    have hne : m.view.queue ≠ [] := by
      rw [show m.view.queue = _ from hsnap.split]
      simp
    refine .inr ⟨_, false, ?_, by simp [hnot], ?_, hi'.glob.chain, hi'.glob.tail_prev,
      congrArg data hef, fun _ => ⟨hsnap.word_locked, newer, _, hsnap⟩, fun h => absurd h hne⟩
    · rw [hpc']
      simp [removed, passStart, hsnap.locked]
    · rw [List.erase_of_not_mem hnot]
      exact hqueue
  | unlink hst hlk =>
    obtain ⟨newer, done, rest, hsnap, -⟩ := hl'.hold
    have hin : a ∈ q := by
      rw [← hi.glob.queued, hqueue] at hst
      exact (List.mem_append.mp hst).resolve_left hfresh
    have hne : (m.view.observe (.unlink u a)).queue ≠ [] := by
      rw [hsnap.split]
      simp
    refine .inr ⟨_, true, ?_, by simp [hin], ?_, hi'.glob.chain, hi'.glob.tail_prev, hef.2.1,
      fun _ => ⟨hsnap.word_locked, newer, _, hsnap⟩, fun h => absurd h hne⟩
    · rw [hpc']
      simp [removed, passStart, hlk]
    · change m.view.queue.erase a = _
      rw [hqueue, List.erase_append_right _ hfresh]
  | unlinkOnly hq =>
    have hw : s'.word = data s.word := ht.unlink_word hs hk.not_gate rfl hq
    have hn : ¬Locked s'.word := by
      rw [hw]
      exact (anchor_of_lt (data_lt _)).2
    have hpushed : m.pushed = [] := by
      rw [hqueue, List.append_eq_singleton_iff] at hq
      rcases hq with hq | hq
      · exact hq.1
      · exact absurd (by simp [hq.1]) hfresh
    have hqa : q = [a] := by
      rw [hqueue, hpushed] at hq
      exact hq
    have hempty : (m.view.observe (.unlink u a)).queue = [] := by
      simp [View.observe, hq]
    refine .inr ⟨s'.word, true, ?_, by simp [hqa], ?_, hi'.glob.chain, hi'.glob.tail_prev, hef.2.1,
      fun h => absurd hempty h, fun _ => ⟨hqa, hpushed, rfl, hw⟩⟩
    · rw [hpc']
      simp [removed, hn, After.pc]
    · simp [hempty, hqa, hpushed]

theorem Removing.took (hm : Removing kind u a found q s m) (hk : kind.Grants)
    (hs : step kind s act = some (e, s')) : Took kind s m.view act.actor act e s' :=
  Saa.took hm.inv (step_inv hm.inv (hm.inv.not_intrudes hk.not_barrier)
    (fun _ _ _ hpc => absurd hpc (hm.inv.no_writeBack hk.not_barrier)) hs) hs

theorem step_removing (hm : Removing kind u a found q s m) (hk : kind.Grants)
    (hp : (s.pc u).Unlinking a found) (hs : step kind s act = some (e, s')) :
    Removing kind u a found q s' (m.observe u e) := by
  have ht := hm.took hk hs
  by_cases hu : u = act.actor
  swap
  · exact hm.other hk ht hu
  have hact : act = .run u := by
    obtain ⟨_, _, _, hpc⟩ := hp
    cases act with
    | call t op =>
      obtain rfl : u = t := hu
      simp [step, callStep, hpc] at hs
    | run t => exact congrArg Action.run hu.symm
    | cancel t =>
      obtain rfl : u = t := hu
      simp [step, cancelStep, hpc] at hs
  subst hact
  rcases hm.own hp hk hs ht with ⟨-, -, rfl⟩ | ⟨state, b, hret⟩
  · exact ⟨ht.inv', fun _ => hm.queue hp, fun _ => hm.fresh hp⟩
  · exact ⟨ht.inv', fun hp' => absurd hp' hret.left, fun hp' => absurd hp' hret.left⟩

theorem reach_removing {v₀ : View} {h : List Event} (hk : kind.Grants)
    (hi : Inv kind s₀ v₀) (hr : While kind s₀ u a found s h) :
    Removing kind u a found v₀.queue s (trail u v₀ h) := by
  refine Run.invariant (P := fun s h => Removing kind u a found v₀.queue s (trail u v₀ h)) ?_ ?_ hr
  · exact ⟨hi, fun _ => rfl, fun _ => List.not_mem_nil⟩
  · intro s h act e s' _ hm hp hs
    exact step_removing hm hk hp hs

theorem Removing.data (hm : Removing kind u a found q s m) (hk : kind.Grants)
    (hp : (s.pc u).Unlinking a found) (hs : step kind s act = some (e, s'))
    (hd : data s'.word ≠ data s.word) : ∃ t o op, e = .release t o op := by
  obtain ⟨t, ht⟩ : ∃ t, Took kind s m.view t act e s' := ⟨_, hm.took hk hs⟩
  have hef := ht.effect
  have hlk := hm.inv.word_locked hp.holds
  have hne := hm.inv.anchor_ne hp.holds
  have hno : (s.pc t).Holds → (s.pc t).Unlinking a found := by
    intro hh
    rwa [hm.inv.unique _ u hh hp.holds]
  have hsame : s'.word = s.word → False := fun hw => hd (congrArg Word.data hw)
  have hmv := ht.move
  generalize s.pc t = p at hmv hno
  generalize s'.pc t = p' at hmv
  cases hmv with
  | gate hg => exact absurd hg hk.not_gate
  | last hn | countDown hn | writeBack hn => exact absurd hn hk.no_barrier
  | fast | release | releasePass => exact ⟨_, _, _, rfl⟩
  | own | take => exact absurd hlk (anchor_of_lt hef.1).2
  | poisonFast | poison => exact absurd hlk hef.2.1
  | clear =>
    rw [hef.1] at hne
    exact absurd (by decide) hne
  | push => exact absurd hef.2.2.2.1 hd
  | lockQueue => exact absurd hef.2.2.2.2 hd
  | unlink | unlinkOnly => exact absurd hef.2.1 hd
  | cut | tailCut => exact (hsame hef.2).elim
  | tailReset | update | add =>
    obtain ⟨_, _, _, h⟩ := hno trivial
    cases h
  | _ => exact (hsame hef).elim

/-- Alone, a round of the search ends: the call returns, or the word has changed since the
snapshot and the next round begins. From an accurate snapshot it returns the word. -/
theorem search_alone {h : List Event} {l : List Ptr} {state cur : ℕ} {again : Bool}
    (hr : While kind s₀ u a found s h) (hpc : s.pc u = .remove a found state cur again)
    (hl : Chain 0 s.next cur l) (hag : again = true → a ∈ l) (hne : anchor s.word ≠ 0) :
    ∃ s₁ h₁ e s', While kind s₀ u a found s₁ h₁ ∧ Solo kind u s h s₁ h₁ ∧
      (s₁.pc u).Unlinking a found ∧ step kind s₁ (.run u) = some (e, s') ∧
      (¬(s'.pc u).Unlinking a found ∨ s.word ≠ state ∧ s'.word = s.word ∧
        s'.pc u = .remove a found s'.word (anchor s'.word) true) ∧
      (s.word = state → ∃ b, s'.pc u = removed a found s'.word b) := by
  have hp : (s.pc u).Unlinking a found := ⟨_, _, _, hpc⟩
  induction l generalizing s h cur with
  | nil =>
    obtain rfl : cur = 0 := hl
    have hf : again = false := by
      by_contra hx
      exact absurd (hag (by simpa using hx)) (by simp)
    subst hf
    refine ⟨s, h, .tau, s.goto u (removed a found state false), hr, .done, hp, ?_, .inl ?_, ?_⟩
    · simp [step, runStep, hpc, removeStep]
    · rw [goto_pc_self]
      exact removed_not_unlinking
    · rintro rfl
      exact ⟨false, goto_pc_self ..⟩
  | cons c l ih =>
    obtain ⟨rfl, hc, hl⟩ := hl
    by_cases hca : cur = a
    · subst hca
      have hs : step kind s (.run u) = some ((removeStep s u cur found state cur again).1,
          (removeStep s u cur found state cur again).2) := by simp [step, runStep, hpc]
      refine ⟨s, h, _, _, hr, .done, hp, hs, ?_⟩
      simp only [removeStep, if_neg hc, ne_eq, not_true_eq_false, if_false, hne]
      split
      · refine ⟨.inl ?_, ?_⟩
        · rw [goto_pc_self]
          exact removed_not_unlinking
        · rintro rfl
          refine ⟨true, ?_⟩
          rw [goto_pc_self, goto_word]
          split <;> rfl
      · split
        · refine ⟨.inl ?_, fun _ => ⟨true, ?_⟩⟩
          · rw [goto_pc_self]
            exact removed_not_unlinking
          · rw [goto_pc_self, goto_word]
        · next hw =>
          refine ⟨.inr ⟨hw, ?_, ?_⟩, fun h => absurd h hw⟩
          · rw [goto_word]
            split <;> rfl
          · rw [goto_pc_self, goto_word]
            split <;> rfl
    · obtain ⟨s₁, hs, hnext, hword, hpc₁⟩ : ∃ s₁, step kind s (.run u) = some (.tau, s₁) ∧
          s₁.next = s.next ∧ s₁.word = s.word ∧
          s₁.pc u = .remove a found state (s.next cur) again := by
        by_cases hn : s.next cur = 0
        · refine ⟨s.goto u (.remove a found state 0 again), ?_, rfl, rfl, by simp [hn]⟩
          simp [step, runStep, hpc, removeStep, hc, hca, hn]
        · refine ⟨{ s with prev := Function.update s.prev (s.next cur) cur }.goto u
            (.remove a found state (s.next cur) again), ?_, rfl, rfl, by simp⟩
          simp [step, runStep, hpc, removeStep, hc, hca, hn]
      obtain ⟨s₂, h₂, e, s', hrun, hsolo, hrest⟩ := ih (.step (a := Action.run u) hr hp hs) hpc₁
        (hnext ▸ hl)
        (fun hx => (List.mem_cons.mp (hag hx)).resolve_left (Ne.symm hca)) (hword ▸ hne)
        ⟨_, _, _, hpc₁⟩
      rw [hword] at hrest
      exact ⟨s₂, h₂, e, s', hrun, .step hs hsolo, hrest⟩

theorem unlink_alone {v₀ : View} {h : List Event} (hk : kind.Grants) (hi : Inv kind s₀ v₀)
    (hr : While kind s₀ u a found s h) (hp : (s.pc u).Unlinking a found) :
    ∃ s₁ h₁ e s', While kind s₀ u a found s₁ h₁ ∧ Solo kind u s h s₁ h₁ ∧
      (s₁.pc u).Unlinking a found ∧ step kind s₁ (.run u) = some (e, s') ∧
      ¬(s'.pc u).Unlinking a found := by
  have hstart : ∀ {s h}, While kind s₀ u a found s h → (s.pc u).Unlinking a found →
      ∃ s₁ h₁ e s', While kind s₀ u a found s₁ h₁ ∧ Solo kind u s h s₁ h₁ ∧
        (s₁.pc u).Unlinking a found ∧ step kind s₁ (.run u) = some (e, s') ∧
        (¬(s'.pc u).Unlinking a found ∨ s'.word = s.word ∧
          s'.pc u = .remove a found s'.word (anchor s'.word) true) ∧
        ((∃ cur again, s.pc u = .remove a found s.word cur again) →
          ¬(s'.pc u).Unlinking a found) := by
    intro s h hr hp
    obtain ⟨state, cur, again, hpc⟩ := hp
    have hm := reach_removing hk hi hr
    have hl := hm.inv.loc u
    rw [hpc] at hl
    have hne := hm.inv.anchor_ne (t := u) (by rw [hpc]; trivial)
    obtain ⟨l, hchain, hag⟩ : ∃ l, Chain 0 s.next cur l ∧ (again = true → a ∈ l) := by
      obtain ⟨newer, seg, hs, -, ⟨done, rest, rfl, -, -, hag⟩ | ⟨rfl, rfl, -⟩⟩ := hl.hold
      · have hq := hm.inv.snap_chain hs
        rw [← List.append_assoc] at hq
        exact ⟨cur :: rest, hq.suffix, hag⟩
      · exact ⟨[], rfl, by simp⟩
    obtain ⟨s₁, h₁, e, s', hr₁, hsolo, hp₁, hs, hend, -⟩ := search_alone hr hpc hchain hag hne
    refine ⟨s₁, h₁, e, s', hr₁, hsolo, hp₁, hs, hend.imp_right And.right, ?_⟩
    rintro ⟨cur', again', hpc'⟩
    rw [hpc] at hpc'
    cases hpc'
    exact hend.resolve_right fun h => h.1 rfl
  obtain ⟨s₁, h₁, e, s', hr₁, hsolo, hp₁, hs, hor, -⟩ := hstart hr hp
  rcases hor with hdone | ⟨hw, hpc⟩
  · exact ⟨s₁, h₁, e, s', hr₁, hsolo, hp₁, hs, hdone⟩
  · have hr' : While kind s₀ u a found s' (e :: h₁) := .step (a := Action.run u) hr₁ hp₁ hs
    obtain ⟨s₂, h₂, e₂, s'', hr₂, hsolo₂, hp₂, hs₂, -, hend⟩ := hstart hr' ⟨_, _, _, hpc⟩
    exact ⟨s₂, h₂, e₂, s'', hr₂, hsolo.trans (.step hs hsolo₂), hp₂, hs₂, hend ⟨_, _, hpc⟩⟩

/-- `remove_wait_queue_entry` on a lock or a semaphore, for every queue, every target and any
interference. While it runs the queue only grows, and only releases change the data field.
Every step of the call goes on searching or returns: it tells whether the target was queued,
and leaves the queue that it found, less the target, behind what was pushed meanwhile, linked
for the pass that follows; the flag stays set unless the target was alone. Left alone, the
call returns. -/
theorem remove_wait_queue_entry_exact (hk : kind.Grants) {v₀ : View} {h : List Event}
    (hi : Inv kind s₀ v₀) (hr : While kind s₀ u a found s h) (hp : (s.pc u).Unlinking a found) :
    (trail u v₀ h).view.queue = (trail u v₀ h).pushed ++ v₀.queue ∧
    (∀ act e s', step kind s act = some (e, s') → data s'.word ≠ data s.word →
      ∃ t o op, e = .release t o op) ∧
    (∀ e s', step kind s (.run u) = some (e, s') →
      (s'.pc u).Unlinking a found ∧ s'.word = s.word ∧ e = .tau ∨
      ∃ state b, Returns u a found v₀.queue (trail u v₀ h).pushed s s'
        (trail u v₀ (e :: h)).view state b) ∧
    ∃ s₁ h₁ e s' state b, Solo kind u s h s₁ h₁ ∧ step kind s₁ (.run u) = some (e, s') ∧
      Returns u a found v₀.queue (trail u v₀ h₁).pushed s₁ s' (trail u v₀ (e :: h₁)).view state
        b := by
  have hm := reach_removing hk hi hr
  refine ⟨hm.queue hp, fun act e s' hs => hm.data hk hp hs, ?_, ?_⟩
  · intro e s' hs
    exact hm.own hp hk hs (hm.took hk hs)
  · obtain ⟨s₁, h₁, e, s', hr₁, hsolo, hp₁, hs, hend⟩ := unlink_alone hk hi hr hp
    have hm₁ := reach_removing hk hi hr₁
    rcases hm₁.own hp₁ hk hs (hm₁.took hk hs) with ⟨hx, -⟩ | ⟨state, b, hret⟩
    · exact absurd hx hend
    · exact ⟨s₁, h₁, e, s', state, b, hsolo, hs, hret⟩

end

section
variable {kind : Kind} {opcode : Ptr → Opcode} {newer seg : List Ptr} {a : Ptr} {d d' found : ℕ}

theorem loaded_remove (hk : kind.Grants) (hne : seg ≠ []) (hnd : (newer ++ seg).Nodup)
    (ha : ∀ b, b ∈ newer ++ seg ∨ some a = some b → IsAnchor b)
    (ho : ∀ b, b ∈ newer ++ seg ∨ some a = some b → (opcode b).Fits kind) (hna : a ∉ newer)
    (hd : d ≤ d') (hd' : d' ≤ DATA_MASK) :
    Inv kind (loaded opcode (newer ++ seg) (some a) d
        (.remove a found (seg.headD 0 + LOCKED_FLAG + d') (seg.headD 0) false))
      (loadedView (newer ++ seg) (some a)) := by
  have hq : newer ++ seg ≠ [] := by simp [hne]
  obtain ⟨first, rest, hfirst⟩ := List.exists_cons_of_ne_nil hq
  obtain ⟨h₁, h₂, h₃⟩ := word_fields (ha first (by simp [hfirst])) (hd.trans hd')
  have hsnap := fun p => loaded_snap (v := loadedView (newer ++ seg) (some a))
    (s := loaded opcode (newer ++ seg) (some a) d p) rfl hne (fun b h => ha b (by simp [h]))
    (by simpa [loaded, hfirst] using h₃) (by simpa [loaded, hfirst, h₂] using hd) hd' rfl
  obtain ⟨tail, older, rfl⟩ := List.exists_cons_of_ne_nil hne
  refine loaded_inv hq hnd ha ho (hd.trans hd') trivial ?_
  exact {
    slot := fun b => by
      simp only [Pc.entry, loaded]
      split
      · simp [*]
      · split <;> simp [*]
    stat := fun b h => by
      cases h
      simp only [Pc.stage, Stage.Admits, loadedView, if_true]
      split <;> simp
    anchors := fun b h => ha b (.inr h)
    built := fun _ _ h => by cases h
    flagged := fun _ _ h => by cases h
    reqs := fun _ h => by cases h
    fits := hk.not_gate
    answering := fun b => by
      simp only [Pc.answering, loadedView, reduceCtorEq, false_iff]
      split
      · simp
      · split <;> simp
    taken := rfl
    hold := ⟨newer, _, hsnap _, hna, .inl ⟨[], older, rfl, .singleton _, by simp, by simp⟩⟩
    counted := trivial }

end

/-- Thread 0 removes the entry 384, the second of three. -/
def between : Cfg :=
  loaded (fun _ => .semaphore 1) [512, 384, 256] (some 384) 63
    (.remove 384 0 (512 + LOCKED_FLAG + 63) 512 false)

theorem remove_wait_queue_entry_exact_between :
    ∃ s₁ h₁ e s' state, Solo (.semaphore 63) 0 between [] s₁ h₁ ∧
      step (.semaphore 63) s₁ (.run 0) = some (e, s') ∧ s'.pc 0 = removed 384 0 state true ∧
      data s'.word = data s₁.word ∧
      (trail 0 (loadedView [512, 384, 256] (some 384)) (e :: h₁)).view.queue =
        (trail 0 (loadedView [512, 384, 256] (some 384)) h₁).pushed ++ [512, 256] := by
  have hk : (Kind.semaphore 63).Grants := .inr ⟨63, rfl⟩
  have hanchor : ∀ b, b ∈ [] ++ [512, 384, 256] ∨ some 384 = some b → IsAnchor b := by
    rintro b (hb | hb)
    · rcases List.mem_cons.mp hb with rfl | hb
      · decide
      · rcases List.mem_cons.mp hb with rfl | hb
        · decide
        · rw [List.mem_singleton.mp hb]
          decide
    · cases hb
      decide
  have hi : Inv (.semaphore 63) between (loadedView [512, 384, 256] (some 384)) :=
    @loaded_remove (.semaphore 63) _ [] [512, 384, 256] 384 63 63 0 hk (by simp) (by decide)
      hanchor (fun _ _ => ⟨by decide, 63, rfl⟩) (by simp) le_rfl (by decide)
  obtain ⟨-, -, -, s₁, h₁, e, s', state, b, hsolo, hs, hret⟩ :=
    remove_wait_queue_entry_exact hk hi (u := 0) (a := 384) .init ⟨_, _, _, rfl⟩
  obtain rfl : b = true := hret.found.mpr (by simp [loadedView])
  exact ⟨s₁, h₁, e, s', state, hsolo, hs, hret.pc, hret.data, hret.queue⟩

end Saa
