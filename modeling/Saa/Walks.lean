import Saa.Removal

/-! # The walks over the queue

Three loops follow the links of the queue while its owner holds `LOCKED_FLAG`: forward
along `next`, storing `prev` links on the way, backward along `prev`, and forward again over
the detached entries. Here is what the links look like whenever one of them begins, and why
all of them end. -/
namespace Saa

open Word Lib.Linked Lib.Trace

section
variable {kind : Kind} {s s' : Cfg} {v : View} {t u : Tid} {h : List Event} {state : ℕ}
  {newer seg rest granted : List Ptr} {cur : Ptr}

theorem Snap.chain (hs : Snap s v state newer seg) (hi : Inv kind s v) :
    Chain 0 s.next (anchor state) seg := by
  have hc := hi.glob.chain
  rw [hs.split] at hc
  cases seg with
  | nil => cases hs.tail
  | cons a seg =>
    obtain rfl : a = anchor state := by simpa using hs.tail
    exact hc.suffix

theorem Snap.backward (hs : Snap s v state newer (rest ++ cur :: granted)) (hi : Inv kind s v)
    (hb : (rest ++ cur :: granted).IsChain (Back s.prev)) :
    Chain 0 s.prev cur (cur :: rest.reverse) := by
  have hne := (hs.chain hi).ne_null
  rw [show rest ++ cur :: granted = rest ++ [cur] ++ granted by simp] at hb hne
  have hc : Chain 0 s.prev cur (rest ++ [cur]).reverse := by
    refine chain_of_back (List.isChain_append.mp hb).1
      (fun a ha => hne a (List.mem_append_left _ ha)) ?_ (by simp)
    intro a ha
    obtain rfl : a = anchor state := by
      have htail := hs.tail
      cases rest with
      | nil =>
        simp only [List.nil_append, List.head?_cons, Option.mem_def, Option.some.injEq] at ha htail
        exact ha.symm.trans htail
      | cons b rest =>
        simp only [List.cons_append, List.head?_cons, Option.mem_def, Option.some.injEq] at ha htail
        exact ha.symm.trans htail
    exact hs.tail_prev
  simpa using hc

theorem Snap.tail_iff (hs : Snap s v state newer seg) (hi : Inv kind s v)
    (hb : seg.IsChain (Back s.prev)) {a : Ptr} (ha : a ∈ seg) :
    s.prev a = 0 ↔ a = anchor state := by
  constructor
  · intro h0
    obtain ⟨rest, granted, rfl⟩ := List.append_of_mem ha
    cases hr : rest.getLast? with
    | none =>
      obtain rfl := List.getLast?_eq_none_iff.mp hr
      simpa using hs.tail
    | some b =>
      have hab : s.prev a = b := (List.isChain_append.mp hb).2.2 b hr a rfl
      have hbne := (hs.chain hi).ne_null b (List.mem_append_left _ (List.mem_of_getLast? hr))
      exact absurd (hab.symm.trans h0) hbne
  · rintro rfl
    exact hs.tail_prev

/-- Whenever `iter_backward` begins, the `prev` links lead from the head to the tail of the
snapshot in the reverse order of the `next` links and end there, and only there, with a null
link; they still do while the walk goes on. And `set_prev_ptr` stops early only where its
assertion holds and every further link is set already. -/
theorem prev_mirrors_next (hk : kind.Grants) (hr : Reach kind free s h) :
    (∀ t state head k, s.pc t = .back state head head 0 0 k → ∃ seg,
      Chain 0 s.next (anchor state) seg ∧ Chain 0 s.prev head seg.reverse ∧
      ∀ a ∈ seg, s.prev a = 0 ↔ a = anchor state) ∧
    (∀ t state head cur transferred resolved k,
      s.pc t = .back state head cur transferred resolved k → ∃ rest granted,
      Chain 0 s.next (anchor state) (rest ++ cur :: granted) ∧
      Chain 0 s.prev cur (cur :: rest.reverse)) ∧
    (∀ t state cur transferred resolved k,
      s.pc t = .tailReset state cur transferred resolved k → cur = anchor state) ∧
    ∀ t state head cur k, s.pc t = .relink state head cur k → s.next cur ≠ 0 →
      s.prev (s.next cur) ≠ 0 → s.prev (s.next cur) = cur ∧ ∃ rest,
        Chain 0 s.next cur (cur :: rest) ∧ (cur :: rest).IsChain (Back s.prev) := by
  have hi := reach_inv hk.not_barrier hr
  refine ⟨?_, ?_, ?_, ?_⟩
  · intro t state head k hp
    have hl := hi.loc t
    rw [hp] at hl
    obtain ⟨newer, rest, granted, hs, hb, -, hres, -⟩ := hl.hold
    obtain rfl : granted = [] := by
      cases granted with
      | nil => rfl
      | cons a granted =>
        have hne := (hs.chain hi).ne_null a (by simp)
        exact absurd hres.symm hne
    refine ⟨_, hs.chain hi, ?_, fun a ha => hs.tail_iff hi hb ha⟩
    simpa using hs.backward hi hb
  · intro t state head cur transferred resolved k hp
    have hl := hi.loc t
    rw [hp] at hl
    obtain ⟨newer, rest, granted, hs, hb, -⟩ := hl.hold
    exact ⟨rest, granted, hs.chain hi, hs.backward hi hb⟩
  · intro t state cur transferred resolved k hp
    have hl := hi.loc t
    rw [hp] at hl
    obtain ⟨newer, granted, hs, -⟩ := hl.hold
    simpa using hs.tail
  · intro t state head cur k hp hnext hprev
    have hl := hi.loc t
    rw [hp] at hl
    obtain ⟨newer, done, rest, hs, -, hpart, -⟩ := hl.hold
    have hc : Chain 0 s.next cur (cur :: rest) := (hs.chain hi).suffix
    obtain ⟨rest, rfl⟩ := hc.2.2.mem_head hnext
    rcases hpart with ⟨h0, -⟩ | hb
    · exact absurd h0 hprev
    · exact ⟨(List.isChain_cons_cons.mp hb).1, _, hc, hb⟩

end

/-- Thread 0 has the only permit, threads 1 and 2 queue for it, and thread 0 releases it: the
schedule ends when it has locked the queue. -/
def lined : List Action :=
  [.call 0 (.acquire ⟨.permits 1, .tryOnly, 0⟩), .run 0, .run 0,
    .call 1 (.acquire ⟨.permits 1, .sync, 256⟩), .run 1, .run 1, .run 1, .run 1,
    .call 2 (.acquire ⟨.permits 1, .sync, 384⟩), .run 2, .run 2, .run 2, .run 2,
    .call 0 .release, .run 0, .run 0]

/-- Two steps later the backward walk begins. -/
theorem prev_mirrors_next_lined :
    ∃ s h state, exec (system (.semaphore 1)) (Kind.initial (.semaphore 1)) []
        (lined ++ [.run 0, .run 0]) = some (s, h) ∧ s.pc 0 = .back state 256 256 0 0 .returned ∧
      ∃ seg, Chain 0 s.next (anchor state) seg ∧ Chain 0 s.prev 256 seg.reverse := by
  obtain ⟨s, h, state, hrun, hpc⟩ : ∃ s h state, exec (system (.semaphore 1))
      (Kind.initial (.semaphore 1)) [] (lined ++ [.run 0, .run 0]) = some (s, h) ∧
      s.pc 0 = .back state 256 256 0 0 .returned := ⟨_, _, _, rfl, rfl⟩
  obtain ⟨hback, -⟩ := prev_mirrors_next (.inr ⟨1, rfl⟩) (Run.exec .init (admits_free ..) hrun)
  obtain ⟨seg, hnext, hprev, -⟩ := hback 0 state 256 .returned hpc
  exact ⟨s, h, state, hrun, hpc, seg, hnext, hprev⟩

/-- The snapshot of the word that the running pass works with. -/
def Pc.snapshot : Pc → Option ℕ
  | .walk state _ _ | .relink state _ _ _ | .back state _ _ _ _ _ | .tailReset state _ _ _ _
  | .update state _ _ _ _ | .add state _ _ _ _ | .remove _ _ state _ _ => some state
  | .resolve _ _ _ (.pass state _ _) | .finalize _ _ _ _ (.pass state _ _) => some state
  | _ => none

def Pc.AtQueue : Pc → Prop
  | .remove _ _ _ _ _ => True
  | p => p.Processing

section
variable {kind : Kind} {s s' : Cfg} {v : View} {t u : Tid} {h h' : List Event} {e : Event}
  {act : Action} {a cur : Ptr} {found state : ℕ} {again : Bool}

theorem snapshot_after (k : After) : k.pc.snapshot = none := by
  cases k <;> rfl

/-- What a step of `remove_wait_queue_entry` does: it goes on to the next entry, it comes to
the end of the queue, it unlinks its entry, or it begins again because the word has changed. -/
theorem remove_cases (hi : Inv kind s v) (hpc : s.pc t = .remove a found state cur again)
    (hs : step kind s (.run t) = some (e, s')) :
    (cur ∈ v.queue ∧ cur ≠ a ∧ e = .tau ∧ s'.word = s.word ∧
      s'.pc t = .remove a found state (s.next cur) again) ∨
    (cur = 0 ∧ e = .tau ∧ s'.word = s.word ∧
      s'.pc t = .walk state (anchor state) (.complete a found)) ∨
    (∃ state', cur = a ∧ a ∈ v.queue ∧ e = .unlink t a ∧ s'.pc t = removed a found state' true ∧
      (state' = state ∧ s'.word = s.word ∧ anchor state ≠ a ∨
        s.word = state ∧ s'.word = state')) ∨
    (s.word ≠ state ∧ e = .tau ∧ s'.word = s.word ∧
      s'.pc t = .remove a found s.word (anchor s.word) true) := by
  have hl := hi.loc t
  have hne := hi.anchor_ne (t := t) (by rw [hpc]; trivial)
  rw [hpc] at hl
  simp only [step, runStep, hpc, Option.some.injEq] at hs
  obtain ⟨newer, seg, hsn, -, ⟨done, rest, rfl, -⟩ | ⟨rfl, rfl, -⟩⟩ := hl.hold
  swap
  · refine .inr (.inl ⟨rfl, ?_⟩)
    simp only [removeStep, if_true, Bool.false_eq_true, if_false, Prod.mk.injEq] at hs
    obtain ⟨rfl, rfl⟩ := hs
    simp [removed, hsn.locked, passStart]
  have hmem : cur ∈ v.queue := hsn.mem (by simp)
  have hcur : cur ≠ 0 := hi.snap_ne hsn (by simp)
  unfold removeStep at hs
  rw [if_neg hcur] at hs
  by_cases hca : cur = a
  swap
  · refine .inl ⟨hmem, hca, ?_⟩
    rw [if_pos hca] at hs
    split at hs
    · next h0 =>
      cases hs
      simp [h0]
    · cases hs
      simp
  subst hca
  rw [if_neg (by simp)] at hs
  dsimp only at hs
  split at hs
  · next hprev =>
    cases hs
    refine .inr (.inr (.inl ⟨state, rfl, hmem, rfl, by simp, .inl ⟨rfl, ?_, ?_⟩⟩))
    · by_cases h0 : s.next cur = 0 <;> simp [h0]
    · rintro rfl
      exact hprev hsn.tail_prev
  · by_cases hw : s.word = state
    · rw [if_pos hw] at hs
      cases hs
      exact .inr (.inr (.inl ⟨_, rfl, hmem, rfl, goto_pc_self _ _ _, .inr ⟨hw, rfl⟩⟩))
    · rw [if_neg hw] at hs
      cases hs
      refine .inr (.inr (.inr ⟨hw, rfl, ?_, by simp⟩))
      by_cases h0 : s.next cur = 0 <;> simp [h0]

theorem own_snapshot (hk : kind.Grants) (hi : Inv kind s v)
    (hs : step kind s (.run t) = some (e, s')) (hs' : (s'.pc t).snapshot = some state) :
    s'.word = state ∨ ((s.pc t).snapshot = some state ∧ s'.word = s.word) := by
  have hmv : Move kind s v t (.run t) (s.pc t) e (s'.pc t) := step_move hi hs
  have hef := step_effect hi hs
  generalize hpc : s.pc t = p at hmv
  generalize hpc' : s'.pc t = p' at hmv hs'
  have hrem : ∀ {a found st cur again}, p = .remove a found st cur again →
      s'.word = state ∨ (p.snapshot = some state ∧ s'.word = s.word) := by
    rintro a found st cur again rfl
    rcases remove_cases hi hpc hs with ⟨-, -, -, hw, hp⟩ | ⟨-, -, hw, hp⟩ |
      ⟨st', -, -, -, hp, hor⟩ | ⟨-, -, hw, hp⟩
    · rw [← hpc', hp] at hs'
      exact .inr ⟨hs', hw⟩
    · rw [← hpc', hp] at hs'
      exact .inr ⟨hs', hw⟩
    · have hst : st' = state := by
        rw [← hpc', hp] at hs'
        by_cases hlk : Locked st'
        · simpa [removed, passStart, hlk, Pc.snapshot] using hs'
        · simp [removed, hlk, snapshot_after] at hs'
      subst hst
      rcases hor with ⟨rfl, hw, -⟩ | ⟨-, hw⟩
      · exact .inr ⟨rfl, hw⟩
      · exact .inl hw
    · rw [← hpc', hp] at hs'
      exact .inl (hw.trans (Option.some.inj hs'))
  cases hmv with
  | walk | walked | relink | relinked | back | backTail | missed => exact .inr ⟨hs', hef⟩
  | cut | tailCut => exact .inr ⟨hs', hef.2⟩
  | @set _ _ _ k | @finalize _ _ _ _ k =>
    cases k <;> exact .inr ⟨hs', hef⟩
  | pass => exact .inr ⟨hs', hef⟩
  | seek | missing | unlink | unlinkOnly => exact hrem rfl
  | @add st head resolved tr k =>
    simp only [step, runStep, hpc, addStep, Option.some.injEq, Prod.mk.injEq] at hs
    obtain ⟨-, rfl⟩ := hs
    exact .inl (Option.some.inj hs')
  | @releasePass o op w hcan hane hnl hw =>
    simp only [step, runStep, hpc, releaseLoop, hcan, hane, hnl, not_true_eq_false, if_false, ne_eq,
      or_self, Option.some.injEq, Prod.mk.injEq] at hs
    obtain ⟨-, rfl⟩ := hs
    exact .inl (hw.symm.trans (Option.some.inj hs'))
  | @lockQueue a hnl hane =>
    simp only [step, runStep, hpc, forceRemove, hane, hnl, if_false, if_true, Option.some.injEq,
      Prod.mk.injEq] at hs
    obtain ⟨-, rfl⟩ := hs
    exact .inl (Option.some.inj hs')
  | gate hg => exact absurd hg hk.not_gate
  | unreleased | release | leave => rw [snapshot_after] at hs'; cases hs'
  | _ => cases hs'

theorem step_snapshot (hk : kind.Grants) (hi : Inv kind s v) (hs : step kind s act = some (e, s'))
    (hs' : (s'.pc act.actor).snapshot = some state) :
    s'.word = state ∨ ((s.pc act.actor).snapshot = some state ∧ s'.word = s.word) := by
  cases act with
  | run t => exact own_snapshot hk hi hs hs'
  | call t op =>
    have hmv := callStep_move hi hs
    simp only [Action.actor] at hs'
    generalize s.pc t = p at hmv
    generalize s'.pc t = p' at hmv hs'
    cases hmv with
    | drop => rcases hk with rfl | ⟨n, rfl⟩ <;> cases hs'
    | enter hen =>
      cases hen with
      | gate hg => exact absurd hg hk.not_gate
      | _ => cases hs'
    | _ => cases hs'
  | cancel t =>
    have hmv := cancelStep_move hi hs
    simp only [Action.actor] at hs'
    generalize s.pc t = p at hmv
    generalize s'.pc t = p' at hmv hs'
    cases hmv with
    | cancel => rcases hk with rfl | ⟨n, rfl⟩ <;> cases hs'

theorem run_only (hidle : s.pc t ≠ .idle) (hwait : ∀ q retry, s.pc t ≠ .await q retry)
    (hs : step kind s act = some (e, s')) (ht : act.actor = t) : act = .run t := by
  subst ht
  cases act with
  | run t => rfl
  | call t op =>
    simp only [step, callStep] at hs
    split at hs
    · cases hs
    · next hx => exact absurd hidle hx
  | cancel t =>
    simp only [step, cancelStep] at hs
    split at hs
    · next q retry hpc => exact absurd hpc (hwait q retry)
    · cases hs

theorem AtQueue.run_only (hp : (s.pc t).AtQueue) (hs : step kind s act = some (e, s'))
    (ht : act.actor = t) : act = .run t := by
  refine Saa.run_only (fun hpc => ?_) (fun q retry hpc => ?_) hs ht
  · rw [hpc] at hp
    exact hp.elim
  · rw [hpc] at hp
    exact hp.elim

/-- Runs during which thread `t` works with the snapshot `state`. -/
abbrev Since (kind : Kind) (t : Tid) (state : ℕ) :
    Cfg → List Event → ℕ → ℕ → Cfg → List Event → Prop :=
  Among (system kind) (·.actor = t) (fun s => (s.pc t).snapshot = some state) Cfg.word

/-- Every snapshot was the word when it was taken, and the word is still the same unless
another thread has changed it since. -/
theorem reach_since (hk : kind.Grants) (hr : Reach kind free s h)
    (hp : (s.pc t).snapshot = some state) :
    ∃ s₀ h₀ n m, Reach kind free s₀ h₀ ∧ s₀.word = state ∧ Since kind t state s₀ h₀ n m s h ∧
      (m = 0 → s.word = state) := by
  induction hr with
  | init => cases hp
  | @step s h act e s' hr hok hs ih =>
    have hi := reach_inv hk.not_barrier hr
    have hfr := step_frame hi hs
    by_cases ht : act.actor = t
    · by_cases hsame : (s.pc t).snapshot = some state ∧ s'.word = s.word
      · obtain ⟨s₀, h₀, n, m, hr₀, hw, hx, hm⟩ := ih hsame.1
        exact ⟨s₀, h₀, n + 1, m, hr₀, hw, .own hx hsame.1 ht hs, fun h0 => hsame.2.trans (hm h0)⟩
      · have hw : s'.word = state := by
          subst ht
          rcases step_snapshot hk hi hs hp with hw | hkeep
          · exact hw
          · exact absurd hkeep hsame
        exact ⟨s', e :: h, 0, 0, .step hr hok hs, hw, .done, fun _ => hw⟩
    · have hpc : s'.pc t = s.pc t := hfr.pc t (Ne.symm ht)
      rw [hpc] at hp
      obtain ⟨s₀, h₀, n, m, hr₀, hw, hx, hm⟩ := ih hp
      by_cases hsame : s'.word = s.word
      · exact ⟨s₀, h₀, n, m, hr₀, hw, .quiet hx hp ht hs hsame, fun h0 => hsame.trans (hm h0)⟩
      · exact ⟨s₀, h₀, n, m + 1, hr₀, hw, .disturb hx hp ht hs hsame,
          fun h0 => absurd h0 (Nat.succ_ne_zero m)⟩

end

/-- The number of entries from `a` to the head of the queue. -/
def depth (a : Ptr) (l : List Ptr) : ℕ := (l.dropWhile (· ≠ a)).length

/-- Steps until the running pass is over, and those of the pass that is already prepared;
`n` entries are still to be resolved. -/
def Pc.cost (q : List Ptr) (n : ℕ) : Pc → ℕ
  | .walk state cur _ | .relink state _ cur _ => depth cur q + 3 * depth (anchor state) q + 6
  | .back state _ cur _ _ _ => 3 * depth (anchor state) q - depth cur q + 6
  | .tailReset state _ _ _ _ => 2 * depth (anchor state) q + 5
  | .update _ _ _ _ _ => 2 * n + 4
  | .resolve _ _ _ (.pass state _ _) => 2 * n + 4 * depth (anchor state) q + 8
  | .finalize _ _ _ _ (.pass state _ _) => 2 * n + 4 * depth (anchor state) q + 9
  | .resolve _ _ _ (.leave _) => 2 * n + 1
  | .finalize _ _ _ _ (.leave _) => 2 * n + 2
  | .remove _ _ state cur _ => depth cur q + 4 * depth (anchor state) q + 8
  | _ => 0

/-- Passes that may follow the running one when `m` changes of the word are still to come:
one for each of them, and one more when the snapshot is out of date already. -/
def Pc.passes (w m : ℕ) : Pc → ℕ
  | .add _ _ _ _ _ => m + 1
  | p => match p.snapshot with
    | some state => if w = state then m else m + 1
    | none => 0

/-- A bound on the steps that thread `t` still takes at the queue. -/
def budget (t : Tid) (m : ℕ) (s : Cfg) (v : View) : ℕ :=
  (s.pc t).passes s.word m * (6 * (v.queue.length + (v.taken t).length + m) + 10) +
    (s.pc t).cost v.queue (v.taken t).length

section
variable {a b : Ptr} {l l₁ l₂ : List Ptr}

theorem depth_append (h : a ∉ l₁) : depth a (l₁ ++ l₂) = depth a l₂ := by
  induction l₁ with
  | nil => rfl
  | cons b l₁ ih =>
    rw [List.mem_cons, not_or] at h
    rw [← ih h.2]
    simp [depth, Ne.symm h.1]

@[simp] theorem depth_self : depth a (a :: l) = l.length + 1 := by simp [depth]

theorem depth_le : depth a l ≤ l.length := (List.dropWhile_sublist _).length_le

theorem depth_of_not_mem (h : a ∉ l) : depth a l = 0 := by
  rw [← List.append_nil l, depth_append h]
  rfl

theorem length_behind : (behind a l).length = depth a l - 1 := List.length_tail

theorem depth_erase_le (h : a ≠ b) : depth a (l.erase b) ≤ depth a l := by
  induction l with
  | nil => simp
  | cons c l ih =>
    by_cases hb : c = b
    · subst hb
      simp [depth, Ne.symm h]
    · rw [List.erase_cons_tail (by simpa using hb)]
      by_cases ha : c = a
      · subst ha
        simp only [depth_self]
        have := (List.erase_sublist (a := b) (l := l)).length_le
        omega
      · simpa [depth, ha] using ih

end

section
variable {kind : Kind} {s s' : Cfg} {v : View} {t u : Tid} {h h' : List Event} {e : Event}
  {act : Action} {a cur : Ptr} {state m : ℕ} {newer seg : List Ptr}

theorem Inv.depth_next (hi : Inv kind s v) (ha : a ∈ v.queue) :
    depth a v.queue = depth (s.next a) v.queue + 1 := by
  obtain ⟨l₁, l₂, hq⟩ := List.append_of_mem ha
  have hc := hi.glob.chain
  have hnd := hc.nodup
  rw [hq] at hc hnd ⊢
  have ha₁ : a ∉ l₁ := fun hm => List.disjoint_of_nodup_append hnd hm List.mem_cons_self
  rw [depth_append ha₁, depth_self]
  cases l₂ with
  | nil =>
    rw [hc.next_last, depth_of_not_mem]
    · rfl
    · exact fun hm => hc.ne_null 0 hm rfl
  | cons b l₂ =>
    rw [hc.next_eq, show l₁ ++ a :: b :: l₂ = (l₁ ++ [a]) ++ b :: l₂ by simp, depth_append,
      depth_self, List.length_cons]
    intro hm
    rw [show l₁ ++ a :: b :: l₂ = (l₁ ++ [a]) ++ b :: l₂ by simp] at hnd
    exact List.disjoint_of_nodup_append hnd hm List.mem_cons_self

theorem Snap.depth_eq (hs : Snap s v state newer seg) (hi : Inv kind s v) {l₁ l₂ : List Ptr}
    (he : seg = l₁ ++ a :: l₂) : depth a v.queue = l₂.length + 1 := by
  have hnd := hi.glob.chain.nodup
  rw [hs.split, he, ← List.append_assoc] at hnd ⊢
  rw [depth_append, depth_self]
  exact fun hm => List.disjoint_of_nodup_append hnd hm List.mem_cons_self

theorem Snap.depth_tail (hs : Snap s v state newer seg) (hi : Inv kind s v) :
    depth (anchor state) v.queue = seg.length := by
  cases seg with
  | nil => cases hs.tail
  | cons b seg =>
    obtain rfl : b = anchor state := by simpa using hs.tail
    exact hs.depth_eq hi (List.nil_append _).symm

theorem within_budget {p p' z z' c c' : ℕ} (hp : p' ≤ p) (hz : z' ≤ z) (hc : c' < c) :
    p' * (6 * (z' + m) + 10) + c' < p * (6 * (z + m) + 10) + c := by
  have := Nat.mul_le_mul hp (show 6 * (z' + m) + 10 ≤ 6 * (z + m) + 10 by omega)
  omega

theorem next_budget {p p' z z' c c' : ℕ} (hp : p' + 1 ≤ p) (hz : z' ≤ z) (hc : c' < 6 * z + 10) :
    p' * (6 * (z' + m) + 10) + c' < p * (6 * (z + m) + 10) + c := by
  have h₁ := Nat.mul_le_mul_left p' (show 6 * (z' + m) + 10 ≤ 6 * (z + m) + 10 by omega)
  have h₂ := Nat.mul_le_mul_right (6 * (z + m) + 10) hp
  rw [Nat.add_mul, Nat.one_mul] at h₂
  omega

theorem remove_budget {found : ℕ} {again : Bool} (hi : Inv kind s v)
    (hpc : s.pc t = .remove a found state cur again)
    (hs : step kind s (.run t) = some (e, s')) :
    budget t m s' (v.observe e) < budget t m s v := by
  unfold budget
  rw [hpc]
  rcases remove_cases hi hpc hs with ⟨hm, -, rfl, hw, hp'⟩ | ⟨rfl, rfl, hw, hp'⟩ |
    ⟨state', rfl, hm, rfl, hp', hor⟩ | ⟨hne, rfl, hw, hp'⟩
  · have hd := hi.depth_next hm
    rw [hp']
    refine within_budget ?_ le_rfl ?_
    · simp only [Pc.passes, Pc.snapshot, hw, le_refl]
    · simp only [Pc.cost, View.observe]
      omega
  · rw [hp']
    refine within_budget ?_ le_rfl ?_
    · simp only [Pc.passes, Pc.snapshot, hw, le_refl]
    · simp only [Pc.cost, View.observe]
      omega
  · have hlen := List.length_erase_of_mem hm
    have hpos := List.length_pos_of_mem hm
    have hd := hi.depth_next hm
    have hD : depth (anchor state') (v.queue.erase cur) ≤ depth (anchor state) v.queue := by
      rcases hor with ⟨rfl, -, hne⟩ | ⟨hw, -⟩
      · exact depth_erase_le hne
      · have hl := hi.loc t
        rw [hpc] at hl
        obtain ⟨newer, seg, hsn, -⟩ := hl.hold
        have hall := hi.snap_all (t := t) (by rw [hpc]; trivial) (hw ▸ hsn)
        rw [hsn.depth_tail hi, ← hall]
        exact depth_le.trans (by omega)
    have hz : (v.queue.erase cur).length + (v.taken t).length ≤
        v.queue.length + (v.taken t).length := by omega
    rw [hp']
    by_cases hlk : Locked state'
    · simp only [removed, hlk, if_true, passStart, View.observe]
      refine within_budget ?_ hz ?_
      · simp only [Pc.passes, Pc.snapshot]
        rcases hor with ⟨rfl, hw, -⟩ | ⟨-, hw⟩
        · rw [hw]
        · rw [if_pos hw]
          split <;> omega
      · simp only [Pc.cost]
        omega
    · simp only [removed, hlk, if_false, if_true, View.observe]
      refine within_budget (Nat.zero_le _) hz ?_
      simp only [Pc.cost, After.pc]
      omega
  · have hD : depth (anchor s.word) v.queue ≤ v.queue.length := depth_le
    rw [hp']
    refine next_budget ?_ le_rfl ?_
    · simp only [Pc.passes, Pc.snapshot, hw, hne, if_true, if_false, le_refl]
    · simp only [Pc.cost, View.observe]
      omega

theorem cut_lengths {b : Ptr} (hb : b ∈ v.queue) (htk : v.taken t = []) :
    (v.observe (.cut t b)).queue.length + ((v.observe (.cut t b)).taken t).length ≤
      v.queue.length + (v.taken t).length ∧
    ((v.observe (.cut t b)).taken t).length = depth b v.queue - 1 := by
  have hlen := congrArg List.length (upTo_behind hb)
  rw [List.length_append] at hlen
  simp only [View.observe, View.detach, Function.update_self, htk, List.length_nil]
  exact ⟨by omega, length_behind⟩

theorem back_budget {head resolved : Ptr} {tr : ℕ} {k : After} (hi : Inv kind s v)
    (hpc : s.pc t = .back state head cur tr resolved k)
    (hs : step kind s (.run t) = some (e, s')) :
    budget t m s' (v.observe e) < budget t m s v := by
  have hmv : Move kind s v t (.run t) (s.pc t) e (s'.pc t) := step_move hi hs
  have hef := step_effect hi hs
  have hl := hi.loc t
  unfold budget
  rw [hpc] at hmv hl ⊢
  obtain ⟨newer, rest, granted, hsn, hb, -⟩ := hl.hold
  have hD := hsn.depth_tail hi
  have hd := hsn.depth_eq hi rfl
  generalize hpc' : s'.pc t = p' at hmv
  cases hmv with
  | gate _ hg => cases hg
  | own htry | take htry => rcases htry with hx | ⟨_, _, hx⟩ <;> cases hx
  | back hg hprev =>
    obtain ⟨rest, rfl⟩ : ∃ rest', rest = rest' ++ [s.prev cur] := by
      obtain ⟨l, hrev⟩ := (hsn.backward hi hb).2.2.mem_head hprev
      exact ⟨l.reverse, by simpa using congrArg List.reverse hrev⟩
    have hd' := hsn.depth_eq hi (List.append_assoc rest [s.prev cur] (cur :: granted))
    refine within_budget ?_ le_rfl ?_
    · simp only [Pc.passes, Pc.snapshot, show s'.word = s.word from hef, le_refl]
    · simp only [Pc.cost, View.observe]
      simp at hD hd hd'
      omega
  | backTail =>
    refine within_budget ?_ le_rfl ?_
    · simp only [Pc.passes, Pc.snapshot, show s'.word = s.word from hef, le_refl]
    · simp only [Pc.cost, View.observe]
      simp at hD hd
      omega
  | cut =>
    obtain ⟨hz, hT⟩ := cut_lengths (b := cur) (hsn.mem (by simp)) (hl.taken_nil rfl)
    refine within_budget ?_ hz ?_
    · simp only [Pc.passes, Pc.snapshot, show s'.word = s.word from hef.2, le_refl]
    · simp only [Pc.cost, hT]
      simp at hD hd
      omega

theorem tailReset_budget {resolved : Ptr} {tr : ℕ} {k : After} (hi : Inv kind s v)
    (hpc : s.pc t = .tailReset state cur tr resolved k)
    (hs : step kind s (.run t) = some (e, s')) :
    budget t m s' (v.observe e) < budget t m s v := by
  have hmv : Move kind s v t (.run t) (s.pc t) e (s'.pc t) := step_move hi hs
  have hl := hi.loc t
  unfold budget
  rw [hpc] at hmv hl ⊢
  obtain ⟨newer, granted, hsn, -⟩ := hl.hold
  generalize hpc' : s'.pc t = p' at hmv
  cases hmv with
  | gate _ hg => cases hg
  | own htry | take htry => rcases htry with hx | ⟨_, _, hx⟩ <;> cases hx
  | tailReset =>
    have hall := hi.snap_all (t := t) (by rw [hpc]; trivial) hsn
    have hD := hsn.depth_tail hi
    rw [← hall] at hD
    refine within_budget (Nat.zero_le _) ?_ ?_
    · simp [View.observe, View.detach]
    · simp only [Pc.cost, View.observe, View.detach, Function.update_self]
      omega
  | tailCut hw =>
    obtain ⟨hz, hT⟩ := cut_lengths (b := cur) (hsn.mem (by simp)) (hl.taken_nil rfl)
    refine within_budget ?_ hz ?_
    · simp only [Pc.passes, Pc.snapshot, hw, if_false, le_refl]
    · simp only [Pc.cost]
      omega

theorem update_budget {head resolved : Ptr} {tr : ℕ} {k : After} (hi : Inv kind s v)
    (hpc : s.pc t = .update state head tr resolved k)
    (hs : step kind s (.run t) = some (e, s')) :
    budget t m s' (v.observe e) < budget t m s v := by
  have hmv : Move kind s v t (.run t) (s.pc t) e (s'.pc t) := step_move hi hs
  unfold budget
  rw [hpc] at hmv ⊢
  generalize hpc' : s'.pc t = p' at hmv
  cases hmv with
  | gate _ hg => cases hg
  | own htry | take htry => rcases htry with hx | ⟨_, _, hx⟩ <;> cases hx
  | update =>
    refine within_budget ?_ le_rfl ?_
    · simp only [Pc.passes, Pc.snapshot]
      omega
    · simp only [Pc.cost, View.observe]
      omega
  | missed hd =>
    have hw : s.word ≠ state := fun hw => hd (congrArg data hw)
    refine within_budget ?_ le_rfl ?_
    · simp only [Pc.passes, Pc.snapshot, hw, if_false, le_refl]
    · simp only [Pc.cost]
      omega

theorem set_budget {r n : ℕ} {k : Then} (hcur : cur ∈ v.taken t)
    (hp : (Pc.resolve cur r n k).AtQueue) (hw : s'.word = s.word) :
    (Pc.finalize cur (s.next cur) r n k).passes s'.word m *
        (6 * ((v.observe (.setResult t cur r)).queue.length +
          ((v.observe (.setResult t cur r)).taken t).length + m) + 10) +
      (Pc.finalize cur (s.next cur) r n k).cost (v.observe (.setResult t cur r)).queue
        ((v.observe (.setResult t cur r)).taken t).length <
    (Pc.resolve cur r n k).passes s.word m * (6 * (v.queue.length + (v.taken t).length + m) + 10) +
      (Pc.resolve cur r n k).cost v.queue (v.taken t).length := by
  have hlen := List.length_erase_of_mem hcur
  have hpos := List.length_pos_of_mem hcur
  have hT : ((v.observe (.setResult t cur r)).taken t).length = (v.taken t).length - 1 := by
    simp only [View.observe, Function.update_self, hlen]
  refine within_budget ?_ (by rw [hT]; exact Nat.add_le_add_left (Nat.sub_le _ _) _) ?_
  · cases k with
    | pass => simp only [Pc.passes, Pc.snapshot, hw, le_refl]
    | leave => exact le_rfl
    | _ => exact hp.elim
  · rw [hT]
    cases k with
    | pass | leave =>
      simp only [Pc.cost, View.observe]
      omega
    | _ => exact hp.elim

/-- Every step of the thread at the queue uses up its budget. -/
theorem own_budget (hk : kind.Grants) (hi : Inv kind s v) (hp : (s.pc t).AtQueue)
    (hs : step kind s (.run t) = some (e, s')) :
    budget t m s' (v.observe e) < budget t m s v := by
  have hmv : Move kind s v t (.run t) (s.pc t) e (s'.pc t) := step_move hi hs
  have hef := step_effect hi hs
  have hl := hi.loc t
  unfold budget
  generalize hpc : s.pc t = p at hmv hp hl
  generalize hpc' : s'.pc t = p' at hmv
  cases hmv with
  | gate hg => exact absurd hg hk.not_gate
  | walk | walked | relink | relinked =>
    obtain ⟨newer, done, rest, hsn, -⟩ := hl.hold
    have hd := hi.depth_next (hsn.mem (List.mem_append_right done List.mem_cons_self))
    refine within_budget ?_ le_rfl ?_
    · simp only [Pc.passes, Pc.snapshot, show s'.word = s.word from hef, le_refl]
    · simp only [Pc.cost, View.observe]
      omega
  | back | backTail | cut =>
    rw [← hpc, ← hpc']
    exact back_budget hi hpc hs
  | tailReset | tailCut =>
    rw [← hpc, ← hpc']
    exact tailReset_budget hi hpc hs
  | update | missed =>
    rw [← hpc, ← hpc']
    exact update_budget hi hpc hs
  | @add state head resolved tr k =>
    have hw : s'.word = s.word + tr := by
      simp only [step, runStep, hpc, addStep, Option.some.injEq, Prod.mk.injEq] at hs
      obtain ⟨-, rfl⟩ := hs
      rfl
    have hD : depth (anchor (s.word + tr)) v.queue ≤ v.queue.length := depth_le
    refine next_budget ?_ le_rfl ?_
    · simp only [Pc.passes, Pc.snapshot, hw, if_true, le_refl]
    · simp only [Pc.cost, View.observe]
      omega
  | set hcur => exact set_budget hcur hp hef
  | @finalize cur nx r n k =>
    refine within_budget ?_ le_rfl ?_
    · cases k with
      | pass => simp only [Pc.passes, Pc.snapshot, show s'.word = s.word from hef, le_refl]
      | leave => exact le_rfl
      | _ => exact hp.elim
    · cases k with
      | pass | leave =>
        simp only [Pc.cost, View.observe]
        omega
      | _ => exact hp.elim
  | pass =>
    refine within_budget ?_ le_rfl ?_
    · simp only [Pc.passes, Pc.snapshot, show s'.word = s.word from hef, le_refl]
    · simp only [Pc.cost, View.observe]
      omega
  | @leave r n k htk =>
    refine within_budget ?_ le_rfl ?_
    · cases k <;> exact Nat.zero_le _
    · cases k <;> exact Nat.succ_pos _
  | seek | missing | unlink | unlinkOnly =>
    rw [← hpc, ← hpc']
    exact remove_budget hi hpc hs
  | own htry | take htry => rcases htry with rfl | ⟨_, _, rfl⟩ <;> exact hp.elim
  | _ => exact hp.elim

/-- While a thread owns the queue, a step of another one pushes at most one entry, and none
when the word stays the same. -/
theorem Took.pushes (ht : Took kind s v u act e s') (hk : kind.Grants) (hu : t ≠ u)
    (hh : (s.pc t).Holds) : ∃ new, (v.observe e).queue = new ++ v.queue ∧ new.length ≤ 1 ∧
      (s'.word = s.word → new = []) := by
  obtain ⟨new, hpushed, hq⟩ := Took.queue_grows (m := ⟨v, [], []⟩) ht hk hu hh
  have hlen : new.length ≤ 1 := by
    rw [List.append_nil] at hpushed
    rw [← hpushed]
    cases e <;> simp [Trail.observe]
  refine ⟨new, hq, hlen, fun hw => ?_⟩
  cases new with
  | nil => rfl
  | cons b new =>
    have hc' := ht.inv'.glob.chain
    have hb : anchor s.word = b := by
      rw [show (v.observe e).queue = _ from hq, hw] at hc'
      exact hc'.1
    have hmem : b ∈ v.queue := by
      obtain ⟨l, hl⟩ := ht.inv.glob.chain.mem_head (ht.inv.anchor_ne hh)
      rw [hl, hb]
      exact List.mem_cons_self
    have hnd := hc'.nodup
    rw [show (v.observe e).queue = _ from hq] at hnd
    exact absurd hmem fun hm => List.disjoint_of_nodup_append hnd List.mem_cons_self hm

theorem cost_append {new : List Ptr} {n : ℕ} {p : Pc} (hl : Hold kind s v p)
    (hnd : (new ++ v.queue).Nodup) (hz : 0 ∉ new) :
    p.cost (new ++ v.queue) n = p.cost v.queue n := by
  have hin : ∀ {a}, a ∈ v.queue → depth a (new ++ v.queue) = depth a v.queue := fun ha =>
    depth_append fun hm => List.disjoint_of_nodup_append hnd hm ha
  have htail : ∀ {state newer seg}, Snap s v state newer seg →
      depth (anchor state) (new ++ v.queue) = depth (anchor state) v.queue := fun hsn =>
    hin (hsn.mem (List.mem_of_mem_head? hsn.tail))
  cases p with
  | walk | relink =>
    obtain ⟨_, _, _, hsn, _⟩ := hl
    simp only [Pc.cost, htail hsn, hin (hsn.mem (List.mem_append_right _ List.mem_cons_self))]
  | back =>
    obtain ⟨_, _, _, hsn, _⟩ := hl
    simp only [Pc.cost, htail hsn, hin (hsn.mem (List.mem_append_right _ List.mem_cons_self))]
  | tailReset =>
    obtain ⟨_, _, hsn, _⟩ := hl
    simp only [Pc.cost, htail hsn]
  | remove =>
    obtain ⟨_, _, hsn, -, ⟨_, _, rfl, -⟩ | ⟨rfl, -⟩⟩ := hl
    · simp only [Pc.cost, htail hsn, hin (hsn.mem (List.mem_append_right _ List.mem_cons_self))]
    · simp only [Pc.cost, htail hsn, depth_append hz]
  | resolve _ _ _ k | finalize _ _ _ _ k =>
    cases k with
    | pass =>
      obtain ⟨_, _, hsn, _⟩ := hl
      simp only [Pc.cost, htail hsn]
    | _ => rfl
  | _ => rfl

theorem passes_quiet {p : Pc} {w w' : ℕ} : p.passes w' m ≤ p.passes w (m + 1) := by
  unfold Pc.passes
  split
  · omega
  · split
    · split <;> split <;> omega
    · exact le_rfl

theorem unlocked_cost {p : Pc} (hp : p.AtQueue) (hh : ¬p.Holds) :
    (∀ w m, p.passes w m = 0) ∧ ∀ q q' n, p.cost q n = p.cost q' n := by
  cases p with
  | resolve _ _ _ k | finalize _ _ _ _ k =>
    cases k with
    | leave => exact ⟨fun _ _ => rfl, fun _ _ _ => rfl⟩
    | pass => exact absurd trivial hh
    | _ => exact hp.elim
  | walk | relink | back | tailReset | update | add | remove => exact absurd trivial hh
  | _ => exact hp.elim

/-- The others do not add to the budget as long as the word stays the same, and a change of
the word was allowed for. -/
theorem other_budget (ht : Took kind s v u act e s') (hk : kind.Grants) (hu : t ≠ u)
    (hp : (s.pc t).AtQueue) :
    (s'.word = s.word → budget t m s' (v.observe e) ≤ budget t m s v) ∧
    budget t m s' (v.observe e) ≤ budget t (m + 1) s v := by
  have hpc : s'.pc t = s.pc t := ht.frame.pc t hu
  have htk : (v.observe e).taken t = v.taken t := ht.taken_other hu
  unfold budget
  rw [hpc, htk]
  by_cases hh : (s.pc t).Holds
  · obtain ⟨new, hq, hlen, hsame⟩ := ht.pushes hk hu hh
    have hc := ht.inv'.glob.chain
    rw [hq] at hc ⊢
    rw [cost_append (ht.inv.loc t).hold hc.nodup
      fun hm => hc.ne_null 0 (List.mem_append_left _ hm) rfl]
    constructor
    · intro hw
      rw [hw, hsame hw, List.nil_append]
    · apply Nat.add_le_add_right
      apply Nat.mul_le_mul passes_quiet
      rw [List.length_append]
      omega
  · obtain ⟨hpass, hcost⟩ := unlocked_cost hp hh
    rw [hpass, hpass, hpass, hcost v.queue (v.observe e).queue]
    simp

theorem atQueue_enabled (hp : (s.pc t).AtQueue) : ∃ e s', step kind s (.run t) = some (e, s') := by
  simp only [step, runStep]
  generalize s.pc t = p at hp
  cases p with
  | walk | relink | back | tailReset | update | add | resolve | finalize | remove =>
    exact ⟨_, _, rfl⟩
  | _ => exact hp.elim

/-- The pass ends with the queue still locked, and another one follows: `process_wait_queue`
comes to its `fetch_add`, or `remove_wait_queue_entry` is back at the tail. -/
def Repeats : Pc → Pc → Prop
  | _, .add _ _ _ _ _ => True
  | .remove _ _ _ _ _, .remove _ _ state cur again => cur = anchor state ∧ again = true
  | _, _ => False

def Ahead (s : Cfg) (p : Pc) (l : List Ptr) : Prop :=
  match p with
  | .walk _ cur _ | .relink _ _ cur _ | .remove _ _ _ cur _ | .resolve cur _ _ _ =>
    Chain 0 s.next cur l
  | .finalize _ next _ _ _ => Chain 0 s.next next l
  | .back _ _ cur _ _ _ => Chain 0 s.prev cur l
  | _ => l = []

theorem Inv.ahead (hi : Inv kind s v) (t : Tid) : ∃ l, Ahead s (s.pc t) l := by
  have hl := hi.loc t
  have hnext : ∀ {state newer done cur rest}, Snap s v state newer (done ++ cur :: rest) →
      Chain 0 s.next cur (cur :: rest) := fun hsn => (hsn.chain hi).suffix
  cases hpc : s.pc t with
  | walk | relink =>
    rw [hpc] at hl
    obtain ⟨_, _, rest, hsn, -⟩ := hl.hold
    exact ⟨_ :: rest, hnext hsn⟩
  | remove =>
    rw [hpc] at hl
    obtain ⟨_, _, hsn, -, ⟨_, rest, rfl, -⟩ | ⟨rfl, -⟩⟩ := hl.hold
    · exact ⟨_ :: rest, hnext hsn⟩
    · exact ⟨[], rfl⟩
  | back =>
    rw [hpc] at hl
    obtain ⟨_, rest, _, hsn, hb, -⟩ := hl.hold
    exact ⟨_ :: rest.reverse, hsn.backward hi hb⟩
  | resolve | finalize =>
    have htk := hl.taken
    rw [hpc] at htk
    exact ⟨v.taken t, htk⟩
  | _ => exact ⟨[], rfl⟩

theorem repeats_stale (hk : kind.Grants) (hi : Inv kind s v)
    (hs : step kind s (.run t) = some (e, s')) (hf : Repeats (s.pc t) (s'.pc t)) :
    ∃ state, (s.pc t).snapshot = some state ∧ s.word ≠ state := by
  have hmv : Move kind s v t (.run t) (s.pc t) e (s'.pc t) := step_move hi hs
  have hl := hi.loc t
  have hrem : ∀ {a found state cur again}, s.pc t = .remove a found state cur again →
      ∃ st, (s.pc t).snapshot = some st ∧ s.word ≠ st := by
    intro a found state cur again hpc
    rw [hpc] at hl hf ⊢
    rcases remove_cases hi hpc hs with ⟨hm, -, -, -, hp⟩ | ⟨-, -, -, hp⟩ |
      ⟨st', -, -, -, hp, -⟩ | ⟨hw, -⟩
    · rw [hp] at hf
      obtain ⟨newer, seg, hsn, -, ⟨done, rest, rfl, -⟩ | ⟨rfl, -⟩⟩ := hl.hold
      · have hd := hi.depth_next hm
        rw [hf.1, hsn.depth_tail hi, hsn.depth_eq hi rfl, List.length_append,
          List.length_cons] at hd
        omega
      · exact absurd rfl (hi.glob.chain.ne_null 0 hm)
    · rw [hp] at hf
      exact hf.elim
    · rw [hp] at hf
      by_cases hlk : Locked st' <;> simp [removed, hlk, passStart, After.pc, Repeats] at hf
    · exact ⟨state, rfl, hw⟩
  generalize hpc : s.pc t = p at hmv hf hrem
  generalize hpc' : s'.pc t = p' at hmv hf
  cases hmv with
  | tailCut hw => exact ⟨_, rfl, hw⟩
  | missed hd => exact ⟨_, rfl, fun hw => hd (congrArg data hw)⟩
  | seek => exact hrem rfl
  | @unreleased o _ _ _ | @release o _ _ _ => cases o <;> exact hf.elim
  | @leave _ _ k _ => cases k <;> exact hf.elim
  | gate hg => exact absurd hg hk.not_gate
  | _ => exact hf.elim

/-- Processing and removal end under finite interference. From every reachable state in
which a thread is in `process_wait_queue` or `remove_wait_queue_entry`: in any interleaving in
which the others change the word `m` times, the thread takes a bounded number of steps there;
it is never stuck, so that it leaves when it is left alone. A pass is repeated only when
another thread has changed the word since the snapshot of that pass was taken. And there is
an end to every walk. -/
theorem queue_calls_terminate (hk : kind.Grants) (hr : Reach kind free s h)
    (hp : (s.pc t).AtQueue) :
    (∀ n m s' h', Among (system kind) (·.actor = t) (fun s => (s.pc t).AtQueue) Cfg.word s h n m
      s' h' → n ≤ budget t m s (view h)) ∧
    (∃ e s', step kind s (.run t) = some (e, s')) ∧
    (∃ s' h', Solo kind t s h s' h' ∧ ¬(s'.pc t).AtQueue) ∧
    (∀ e s', step kind s (.run t) = some (e, s') → Repeats (s.pc t) (s'.pc t) →
      ∃ state s₀ h₀ n m, (s.pc t).snapshot = some state ∧ Reach kind free s₀ h₀ ∧
        s₀.word = state ∧ Since kind t state s₀ h₀ n m s h ∧ 0 < m) ∧
    ∃ l, Ahead s (s.pc t) l := by
  have hi := reach_inv hk.not_barrier hr
  have htook : ∀ {s h act e s'}, Run (system kind) free s h →
    (system kind).step s act = some (e, s') →
      Took kind s (view h) act.actor act e s' := fun hr hs =>
    took (reach_inv hk.not_barrier hr) (reach_inv hk.not_barrier (.step hr trivial hs)) hs
  have hbound : ∀ n m s' h', Among (system kind) (·.actor = t) (fun s => (s.pc t).AtQueue) Cfg.word
      s h n m s' h' → n ≤ budget t m s (view h) := by
    intro n m s' h' hx
    have hle := hx.bound (c := fun m s h => budget t m s (view h))
      (fun hr hb ha hs => own_budget hk (reach_inv hk.not_barrier hr) hb
        (AtQueue.run_only hb hs ha ▸ hs))
      (fun hr hb ha hs hw => (other_budget (htook hr hs) hk (Ne.symm ha) hb).1 hw)
      (fun hr hb ha hs => (other_budget (htook hr hs) hk (Ne.symm ha) hb).2) hr 0
    exact (Nat.le_add_right _ _).trans hle
  refine ⟨hbound, atQueue_enabled hp, ?_, ?_, hi.ahead t⟩
  · have hleft : ((·.actor = t) : Action → Prop) (.run t) := rfl
    exact Among.finishes hleft (fun n => hbound n 0) fun s' h' _ hb => atQueue_enabled hb
  · intro e s' hs hf
    obtain ⟨state, hsn, hne⟩ := repeats_stale hk hi hs hf
    obtain ⟨s₀, h₀, n, m, hr₀, hw, hx, hm⟩ := reach_since hk hr hsn
    exact ⟨state, s₀, h₀, n, m, hsn, hr₀, hw, hx, Nat.pos_of_ne_zero fun h0 => hne (hm h0)⟩

end

theorem queue_calls_terminate_lined :
    ∃ s h, exec (system (.semaphore 1)) (Kind.initial (.semaphore 1)) [] lined = some (s, h) ∧
      s.pc 0 = .walk s.word (anchor s.word) .returned ∧
      ∃ s' h', Solo (.semaphore 1) 0 s h s' h' ∧ ¬(s'.pc 0).AtQueue := by
  obtain ⟨s, h, hrun, hpc⟩ : ∃ s h,
      exec (system (.semaphore 1)) (Kind.initial (.semaphore 1)) [] lined = some (s, h) ∧
      s.pc 0 = .walk s.word (anchor s.word) .returned := ⟨_, _, rfl, rfl⟩
  have hp : (s.pc 0).AtQueue := by
    rw [hpc]
    trivial
  obtain ⟨-, -, hleave, -⟩ :=
    queue_calls_terminate (.inr ⟨1, rfl⟩) (Run.exec .init (admits_free ..) hrun) hp
  exact ⟨s, h, hrun, hpc, hleave⟩

end Saa
