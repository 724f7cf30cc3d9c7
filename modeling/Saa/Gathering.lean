import Mathlib.Data.Fintype.EquivFin
import Saa.Deadlock
import Saa.Rounds

/-! # Every task gets past a barrier

As long as no future is dropped, a barrier never holds a task back for good: the calls that are
under way come to rest, and then as many further tasks as `Barrier::count` says let everybody
through. -/
namespace Saa

open Word Lib.Linked Lib.Trace Lib.Refine Lib.Sweep

def arrival (a : Ptr) : Req := ⟨.arrive, .sync, a⟩

/-- The calls under way go on, and tasks come to the barrier. -/
def Joins : Guard Cfg Action Event := fun _ _ act =>
  (∃ u, act = .run u) ∨ ∃ t a, act = .call t (.acquire (arrival a))

def calls (g : List Event) : ℕ :=
  g.countP fun e => match e with
    | .call _ _ => true
    | _ => false

/-- The thread is in no call, or it has counted down and waits for its generation. -/
def Pc.Waits (p : Pc) : Prop := p = .idle ∨ ∃ q, p = .await q false

section
variable {n : ℕ} {s s' : Cfg} {h h' : List Event} {t u : Tid} {q : Req} {a : Ptr} {act : Action}
  {e : Event}

theorem Pc.Waits.rests {p : Pc} (hp : p.Waits) : p.Rests :=
  hp.imp id fun ⟨q, hq⟩ => ⟨q, false, hq⟩

theorem undropped_inv (hr : Reach (.barrier n) Undropped s h) : Inv (.barrier n) s (view h) :=
  (reach_barrier (Careful.polite (reach_attends hr).1)).1

theorem undropped_took (hr : Reach (.barrier n) Undropped s h) (hok : Undropped s h act)
    (hs : step (.barrier n) s act = some (e, s')) :
    Took (.barrier n) s (view h) act.actor act e s' :=
  took (undropped_inv hr) (undropped_inv (.step hr hok hs)) hs

theorem undropped_alone (hr : Reach (.barrier n) Undropped s h)
    (hx : Solo (.barrier n) t s h s' h') : Reach (.barrier n) Undropped s' h' := by
  induction hx with
  | done => exact hr
  | step hs _ ih => exact ih (.step (a := Action.run t) hr trivial hs)

theorem halts_rests (hr : Reach (.barrier n) Undropped s h) (hx : Halts (.barrier n) t s h) :
    ∃ s' h', Solo (.barrier n) t s h s' h' ∧ (s'.pc t).Rests := by
  obtain ⟨s', h', hsolo, hend⟩ := hx
  refine ⟨s', h', hsolo, ?_⟩
  have hat := (reach_attends (undropped_alone hr hsolo)).2 t
  rcases hend with hp | ⟨u, -, hwait⟩ | ⟨-, a, state, hp⟩
  · exact hp
  · cases hwait with
    | queue hp | poison hp | result hp | answer hp =>
      rw [hp] at hat
      simp [Pc.Attends, Pc.phase] at hat
  · rw [hp] at hat
    simp [Pc.Attends, Pc.phase] at hat

theorem arriving_arriver {p : Pc} (hp : p.phase = .arriving) : ∃ q, p.arriver = some q := by
  cases p with
  | writeBack q c => exact ⟨q, rfl⟩
  | resolve _ _ _ k | finalize _ _ _ _ k =>
    cases k with
    | writeBack q | last q => exact ⟨q, rfl⟩
    | _ => cases hp
  | _ => cases hp

theorem arriving_rests (hr : Reach (.barrier n) Undropped s h)
    (hp : (s.pc t).phase = .arriving) :
    ∃ s' h', Solo (.barrier n) t s h s' h' ∧ (s'.pc t).Rests := by
  obtain ⟨q, hq⟩ := arriving_arriver hp
  obtain ⟨hcare, hatt⟩ := reach_attends hr
  obtain ⟨hi, hb⟩ := reach_barrier (Careful.polite hcare)
  obtain ⟨s₁, h₁, hx, -, hp₁⟩ :=
    arriver_alone hi (attends_unlocked hatt hi) ((hb.counted t).trans_lt (tasks_lt n)) hq
  have hr₁ := undropped_alone hr hx
  obtain ⟨s', h', hy, hend⟩ := halts_rests hr₁ (settle_halts hr₁.any hp₁)
  exact ⟨s', h', hx.trans hy, hend⟩

theorem task_rests (hr : Reach (.barrier n) Undropped s h) (t : Tid) :
    ∃ s' h', Solo (.barrier n) t s h s' h' ∧ (s'.pc t).Rests := by
  rcases (reach_attends hr).2 t with hp | hp | hp | hp
  · exact ⟨s, h, .done, .inl (phase_idle.mp hp)⟩
  · obtain ⟨s₁, h₁, hx, hend⟩ : ∃ s' h', Solo (.barrier n) t s h s' h' ∧ _ := acquiring_alone hp
    have hr₁ := undropped_alone hr hx
    obtain ⟨s', h', hy, hrest⟩ : ∃ s' h', Solo (.barrier n) t s₁ h₁ s' h' ∧ (s'.pc t).Rests := by
      simp only [List.mem_cons, List.not_mem_nil, or_false] at hend
      rcases hend with hp | hp | hp
      · exact ⟨s₁, h₁, .done, .inl (phase_idle.mp hp)⟩
      · exact halts_rests hr₁ (waiting_halts hr₁.any hp)
      · exact arriving_rests hr₁ hp
    exact ⟨s', h', hx.trans hy, hrest⟩
  · exact halts_rests hr (waiting_halts hr.any hp)
  · exact arriving_rests hr hp

theorem tasks_rest (hr : Reach (.barrier n) Undropped s h) :
    ∃ s' g, Onward (system (.barrier n)) (Only Action.run) s h s' g ∧
      Reach (.barrier n) Undropped s' (g ++ h) ∧ ∀ u, (s'.pc u).Rests := by
  obtain ⟨l, hl⟩ := reach_support hr.any
  refine sweep Action.run Cfg.pc Pc.Rests (C := Reach (.barrier n) Undropped) ?_ (l := l) hr ?_
  · intro s h t hr
    obtain ⟨s', h', hx, hend⟩ := task_rests hr t
    exact ⟨s', h', hx, undropped_alone hr hx, hend, fun u hu => alone_pc hu hx⟩
  · intro t ht
    exact .inl (hl t ht)

theorem rests_filling (hn : 1 ≤ n) (hr : Reach (.barrier n) Undropped s h)
    (hq : ∀ u, (s.pc u).Rests) : Filling (tasks n) s (rounds h) := by
  rcases (reach_rounded (tasks_pos hn) (reach_attends hr).1).phase with hf | ⟨t, hc⟩
  · exact hf
  · have hx := hc.closing
    rcases hq t with hp | ⟨q, retry, hp⟩ <;> rw [hp] at hx <;> exact hx.elim

theorem await_entry (hr : Reach (.barrier n) Undropped s h) {retry : Bool}
    (hp : s.pc t = .await q retry) :
    s.slot q.entry = .used t ∧ q.goal = .arrive ∧ (q.via = .sync ∨ q.via = .async) ∧
    (view h).stat q.entry ≠ .idle ∧ (view h).stat q.entry ≠ .unlinked := by
  have hl := (undropped_inv hr).loc t
  have hgoal := (undropped_inv hr).arrives (t := t) (q := q) (by rw [hp]; rfl)
  rw [hp] at hl
  have hent : (Pc.await q retry).entry = some q.entry := by
    refine if_neg fun hv => ?_
    rcases hl.fits.1 with hx | hx <;> rw [hv] at hx <;> cases hx
  exact ⟨(hl.slot _).mp hent, hgoal, hl.fits.1, hl.stat _ hent⟩

theorem rests_resolved (hr : Reach (.barrier n) Undropped s h) (hq : ∀ u, (s.pc u).Rests)
    {retry : Bool} (hp : s.pc t = .await q retry) :
    (view h).stat q.entry = .queued ∨
      (view h).stat q.entry = .final ∧ (s.state q.entry).finalized = true := by
  have hi := undropped_inv hr
  obtain ⟨-, -, -, hidle, hun⟩ := await_entry hr hp
  by_cases hst : (view h).stat q.entry = .queued
  · exact .inl hst
  refine .inr ?_
  rcases resolved_or_pending (t := t) hi (by rw [hp]; rfl) (by rw [hp]; rfl)
    ⟨hidle, hun, hst⟩ with hf | ⟨u, -, hu⟩
  · exact ⟨hf, (hi.glob.final _ hf).2⟩
  · exact absurd (pending_owes hi hu) (hq u).not_owes

theorem retry_final (hn : 1 ≤ n) (hr : Reach (.barrier n) Undropped s h)
    (hq : ∀ u, (s.pc u).Rests) (hp : s.pc t = .await q true) :
    (s.state q.entry).finalized = true := by
  rcases rests_resolved hr hq hp with hst | ⟨-, hf⟩
  · exfalso
    have hm := ((undropped_inv hr).glob.queued _).mpr hst
    rw [← rounds_view] at hm
    obtain ⟨j, hj, -⟩ := (rests_filling hn hr hq).numbers _ hm
    rw [(reach_rounded (tasks_pos hn) (reach_attends hr).1).fresh t q (by rw [hp]; rfl)] at hj
    cases hj
  · exact hf

theorem counts_down (hg : q.goal = .arrive) (hp : s.pc t = .start q) (hd : data s.word ≠ 0) :
    ∃ s' e, Solo (.barrier n) t s h s' (e :: .tau :: h) ∧
      (data s.word = 1 ∧ e = .last t q.entry ∧
        s'.pc t = .resolve (anchor s.word) 0 0 (.writeBack q) ∨
      data s.word ≠ 1 ∧ e = .countDown t q.entry (s.opcode q.entry) ∧
        s'.word = join q.entry (tag (s.word - 1)) ∧ s'.pc t = .pushed q false) := by
  have hs : step (.barrier n) s (.run t) = some (.tau, s.goto t (.attempt q s.word 0)) := by
    simp [step, runStep, hp, startStep, hg]
  have hs₂ : step (.barrier n) (s.goto t (.attempt q s.word 0)) (.run t) =
      some (countDown (s.goto t (.attempt q s.word 0)) t q s.word) := by
    simp [step, runStep, attemptStep, hg]
  by_cases hone : data s.word = 1
  · unfold countDown at hs₂
    rw [if_neg hd, if_pos hone, if_pos (goto_word ..)] at hs₂
    exact ⟨_, _, .step hs (.step hs₂ .done), .inl ⟨hone, rfl, goto_pc_self ..⟩⟩
  · unfold countDown at hs₂
    rw [if_neg hd, if_neg hone, if_pos (goto_word ..)] at hs₂
    exact ⟨_, _, .step hs (.step hs₂ .done), .inr ⟨hone, rfl, rfl, goto_pc_self ..⟩⟩

theorem pushed_waits (hv : q.via ≠ .pager) (hp : s.pc t = .pushed q false) :
    ∃ s', Solo (.barrier n) t s h s' (.tau :: h) ∧ s'.pc t = .await q false ∧ s'.word = s.word := by
  have hs : step (.barrier n) s (.run t) = some (pushedStep s t q false) := by
    simp [step, runStep, hp]
  unfold pushedStep at hs
  dsimp only at hs
  rw [if_neg hv] at hs
  exact ⟨_, .step hs .done, goto_pc_self .., rfl⟩

theorem arriver_waits (hr : Reach (.barrier n) Undropped s h) (hv : q.via ≠ .pager)
    (hp : (s.pc t).arriver = some q) :
    ∃ s' h', Solo (.barrier n) t s h s' h' ∧ s'.pc t = .await q false := by
  obtain ⟨hcare, hatt⟩ := reach_attends hr
  obtain ⟨hi, hb⟩ := reach_barrier (Careful.polite hcare)
  obtain ⟨s₁, h₁, hx, -, hp₁⟩ :=
    arriver_alone hi (attends_unlocked hatt hi) ((hb.counted t).trans_lt (tasks_lt n)) hp
  have hs₁ : step (.barrier n) s₁ (.run t) = some (.setResult t q.entry 1,
      (s₁.setResult q.entry 1).goto t (.settled q)) := by simp [step, runStep, hp₁]
  have hs₂ : step (.barrier n) ((s₁.setResult q.entry 1).goto t (.settled q)) (.run t) =
      some (settledStep ((s₁.setResult q.entry 1).goto t (.settled q)) t q) := by
    simp [step, runStep]
  unfold settledStep at hs₂
  dsimp only at hs₂
  rw [if_neg hv] at hs₂
  exact ⟨_, _, hx.trans (.step hs₁ (.step hs₂ .done)), goto_pc_self ..⟩

theorem start_waits (hr : Reach (.barrier n) Undropped s h) (hp : s.pc t = .start q)
    (hd : data s.word ≠ 0) :
    ∃ s' h', Solo (.barrier n) t s h s' h' ∧ s'.pc t = .await q false := by
  have hreq := ((undropped_inv hr).loc t).reqs q (by rw [hp]; rfl)
  have hg := (undropped_inv hr).arrives (t := t) (q := q) (by rw [hp]; rfl)
  have hv : q.via ≠ .pager := by
    obtain ⟨hv | hv, -⟩ := arrive_fits hreq.1 hg <;> rw [hv] <;> simp
  obtain ⟨s₁, e, hx, ⟨-, -, hp₁⟩ | ⟨-, -, -, hp₁⟩⟩ := counts_down (n := n) (h := h) hg hp hd
  · obtain ⟨s', h', hy, hp'⟩ := arriver_waits (undropped_alone hr hx) hv (by rw [hp₁]; rfl)
    exact ⟨s', h', hx.trans hy, hp'⟩
  · obtain ⟨s', hy, hp', -⟩ := pushed_waits hv hp₁
    exact ⟨s', _, hx.trans hy, hp'⟩

theorem tasks_retry (hn : 1 ≤ n) (hr : Reach (.barrier n) Undropped s h)
    (hq : ∀ u, (s.pc u).Rests) :
    ∃ s' g, Onward (system (.barrier n)) (Only Action.run) s h s' g ∧
      Reach (.barrier n) Undropped s' (g ++ h) ∧ ∀ u, (s'.pc u).Waits := by
  obtain ⟨l, hl⟩ := reach_support hr.any
  have hone : ∀ {s : Cfg} {h : List Event} (t : Tid),
      (Reach (.barrier n) Undropped s h ∧ ∀ u, (s.pc u).Rests) →
      ∃ s' h', Solo (.barrier n) t s h s' h' ∧
        (Reach (.barrier n) Undropped s' h' ∧ ∀ u, (s'.pc u).Rests) ∧ (s'.pc t).Waits ∧
        ∀ u, u ≠ t → s'.pc u = s.pc u := by
    rintro s h t ⟨hr, hq⟩
    rcases hq t with hp | ⟨q, retry, hp⟩
    · exact ⟨s, h, .done, ⟨hr, hq⟩, .inl hp, fun _ _ => rfl⟩
    cases retry with
    | false => exact ⟨s, h, .done, ⟨hr, hq⟩, .inr ⟨q, hp⟩, fun _ _ => rfl⟩
    | true =>
      have hs : step (.barrier n) s (.run t) = some (.retry t q.entry,
          ((s.consume q.entry).construct q.entry (.barrier false) true).goto t (.start q)) := by
        simp [step, runStep, hp, awaitStep, retry_final hn hr hq hp]
      have hr₁ : Reach (.barrier n) Undropped _ _ := .step (a := Action.run t) hr trivial hs
      obtain ⟨s', h', hx, hp'⟩ := start_waits hr₁ (goto_pc_self ..) (rests_filling hn hr hq).pos
      have hsolo : Solo (.barrier n) t s h s' h' := .step hs hx
      have hothers : ∀ u, u ≠ t → s'.pc u = s.pc u := fun u hu => alone_pc hu hsolo
      refine ⟨s', h', hsolo, ⟨undropped_alone hr hsolo, fun u => ?_⟩, .inr ⟨q, hp'⟩, hothers⟩
      by_cases hu : u = t
      · rw [hu, hp']
        exact .inr ⟨q, false, rfl⟩
      · rw [hothers u hu]
        exact hq u
  obtain ⟨s', g, hx, ⟨hr', -⟩, hall⟩ :=
    sweep Action.run Cfg.pc Pc.Waits hone ⟨hr, hq⟩ fun t ht => .inl (hl t ht)
  exact ⟨s', g, hx, hr', hall⟩

theorem reqs_via (hr : Reach (.barrier n) Undropped s h) (hq : (s.pc t).reqs = some q) :
    q.goal = .arrive ∧ q.via ≠ .pager := by
  have hg := (undropped_inv hr).arrives hq
  have hreq := ((undropped_inv hr).loc t).reqs q hq
  refine ⟨hg, ?_⟩
  obtain ⟨hv | hv, -⟩ := arrive_fits hreq.1 hg <;> rw [hv] <;> simp

theorem task_slot (hr : Reach (.barrier n) Undropped s h)
    (hs : step (.barrier n) s (.run t) = some (e, s')) (ha : s.slot a = .none) :
    s'.slot a = .none := by
  have hat := (reach_attends hr).2 t
  have hreq : ∀ q, (s.pc t).reqs = some q → q.goal = .arrive ∧ q.via ≠ .pager := fun q =>
    reqs_via hr
  have hleave : ∀ (x : Cfg) (q : Req), x.slot = s.slot → q.via ≠ .pager →
      (x.leave t q).slot a = .none := by
    intro x q hx hv
    unfold Cfg.leave
    split
    · rw [goto_slot, hx, ha]
    · next hp => exact absurd hp hv
    all_goals simp [hx, Function.update_apply, ha]
  simp only [step] at hs
  unfold runStep at hs
  cases hpc : s.pc t <;> rw [hpc] at hat hreq hs
  case idle | fault => cases hs
  case releaseFast | releaseLoop | poisonFast | poisonLoop | clearPoison | wakeAll | gateReset |
      gateDrop | acknowledge | walk | relink | back | tailReset | update | add | remove |
      dropLoad | dropLoop | complete | finish =>
    simp [Pc.Attends, Pc.phase] at hat
  all_goals
    obtain ⟨-, h₂⟩ := Prod.ext_iff.mp (Option.some.inj hs)
    change _ = s' at h₂
    subst h₂
  case start q =>
    unfold startStep
    simp [(hreq q rfl).1, ha]
  case attempt q state spin =>
    unfold attemptStep countDown
    rw [if_pos (hreq q rfl).1]
    repeat' split
    all_goals simp [construct_slot, ha]
  case push =>
    unfold tryPushWaitQueueEntry
    split <;> simp [ha]
  case pushed q retry =>
    unfold pushedStep
    simp [(hreq q rfl).2, ha]
  case settled q =>
    unfold settledStep
    simp [(hreq q rfl).2, Cfg.setFinalized, ha]
  case await q retry =>
    unfold awaitStep
    repeat' split
    · simp [construct_slot, Cfg.consume, ha]
    · exact hleave _ q rfl (hreq q rfl).2
    · exact ha
  case resolve cur r c k =>
    unfold resolveStep
    split
    · cases k <;> simp [Then.step, ha]
    · simp [Cfg.setResult, ha]
  all_goals simp [Cfg.setResult, writeBackStep, finalizeStep, Cfg.setFinalized, ha]

theorem acquireCall_slot (hs : acquireCall s t q = some (e, s')) (hb : a ≠ q.entry) :
    s'.slot a = s.slot a := by
  cases acquireCall_begun hs with
  | refused | tryOnly => rfl
  | bare => exact Function.update_of_ne hb _ _
  | fresh => simp [construct_slot, hb]

theorem reach_entries (hr : Reach (.barrier n) Undropped s h) :
    ∃ l : List Ptr, ∀ a ∉ l, s.slot a = .none := by
  refine hr.invariant (P := fun s _ => ∃ l : List Ptr, ∀ a ∉ l, s.slot a = .none)
    ⟨[], fun _ _ => rfl⟩ ?_
  rintro s h act e s' hr ⟨l, hl⟩ hok hs
  cases act with
  | cancel t => exact hok.elim
  | run t => exact ⟨l, fun a ha => task_slot hr hs (hl a ha)⟩
  | call t op =>
    simp only [system, step, callStep] at hs
    split at hs
    · cases hs
    cases op with
    | acquire q =>
      dsimp only at hs
      split at hs
      · refine ⟨q.entry :: l, fun a ha => ?_⟩
        rw [List.mem_cons, not_or] at ha
        rw [acquireCall_slot hs ha.1]
        exact hl a ha.2
      · cases hs
    | poll b =>
      refine ⟨l, fun a ha => ?_⟩
      simp only [pollCall] at hs
      repeat' split at hs
      all_goals cases hs
      all_goals exact hl a ha
    | drop b => exact hok.elim
    | _ => cases hs

theorem fresh_anchor (l : List Ptr) : ∃ a, a ∉ l ∧ IsAnchor a := by
  obtain ⟨m, hm⟩ : ∃ m : ℕ, m ∉ (l.map fun a : ℕ => a / 128 - 2).toFinset :=
    Infinite.exists_notMem_finset _
  refine ⟨128 * (m + 2), fun hl => ?_, ?_⟩
  · refine hm (List.mem_toFinset.mpr (List.mem_map.mpr ⟨_, hl, ?_⟩))
    omega
  · change 128 * (m + 2) % 128 = 0 ∧ 2 * 128 ≤ 128 * (m + 2)
    omega

theorem Took.entered_queue {v : View} (ht : Took (.barrier n) s v t (.run t) e s')
    (hp : (s.pc t).entered ≠ none ∨ s.pc t = .idle) (hnil : v.queue = []) :
    ((s'.pc t).entered ≠ none ∨ s'.pc t = .idle) ∧ (v.observe e).queue = [] := by
  have hmv := ht.move
  generalize s.pc t = p at hmv hp
  generalize s'.pc t = p' at hmv
  cases hmv with
  | gate hg => cases hg
  | own htry | take htry => exact absurd rfl ht.no_acquire
  | @wait _ retry | @registered _ retry | @pending _ retry =>
    cases retry with
    | false => exact ⟨by simp [Pc.entered], hnil⟩
    | true => simp [Pc.entered] at hp
  | settle | settled | settledWait | consume | counted | arrived =>
    exact ⟨by simp [Pc.entered], hnil⟩
  | writeBack => exact ⟨by simp [Pc.entered], rfl⟩
  | @set _ _ _ k | @finalize _ _ _ _ k =>
    refine ⟨?_, hnil⟩
    cases k <;> simp [Pc.entered] at hp ⊢
  | _ => simp [Pc.entered] at hp

theorem entered_alone (hr : Reach (.barrier n) Undropped s h) (hx : Solo (.barrier n) t s h s' h')
    (hp : (s.pc t).entered ≠ none ∨ s.pc t = .idle) (hnil : (view h).queue = []) :
    (view h').queue = [] := by
  induction hx with
  | done => exact hnil
  | @step s h e s₁ _ _ hs _ ih =>
    have hr₁ : Reach (.barrier n) Undropped s₁ (e :: h) := .step (a := Action.run t) hr trivial hs
    have hok : Undropped s h (.run t) := trivial
    have ht : Took (.barrier n) s (view h) t (.run t) e s₁ := undropped_took hr hok hs
    obtain ⟨hp₁, hnil₁⟩ := ht.entered_queue hp hnil
    exact ih hr₁ hp₁ hnil₁

theorem tasks_return (hr : Reach (.barrier n) Undropped s h) (hq : ∀ u, (s.pc u).Waits)
    (hnil : (view h).queue = []) :
    ∃ s' g, Onward (system (.barrier n)) (Only Action.run) s h s' g ∧ ∀ u, s'.pc u = .idle := by
  have hone : ∀ {s : Cfg} {h : List Event} (t : Tid),
      (Reach (.barrier n) Undropped s h ∧ (∀ u, (s.pc u).Waits) ∧ (view h).queue = []) →
      ∃ s' h', Solo (.barrier n) t s h s' h' ∧ (Reach (.barrier n) Undropped s' h' ∧
        (∀ u, (s'.pc u).Waits) ∧ (view h').queue = []) ∧ s'.pc t = .idle ∧
        ∀ u, u ≠ t → s'.pc u = s.pc u := by
    rintro s h t ⟨hr, hq, hnil⟩
    rcases hq t with hp | ⟨q, hp⟩
    · exact ⟨s, h, .done, ⟨hr, hq, hnil⟩, hp, fun _ _ => rfl⟩
    have hf : (s.state q.entry).finalized = true := by
      rcases rests_resolved hr (fun u => (hq u).rests) hp with hst | ⟨-, hf⟩
      · have hm := ((undropped_inv hr).glob.queued _).mpr hst
        rw [hnil] at hm
        cases hm
      · exact hf
    have hs : step (.barrier n) s (.run t) = some (.consume t q.entry (s.state q.entry).result,
        (s.consume q.entry).leave t q) := by
      simp [step, runStep, hp, awaitStep, hf]
    have hsolo : Solo (.barrier n) t s h _ _ := .step hs .done
    have hidle : ((s.consume q.entry).leave t q).pc t = .idle := by
      rw [leave_pc, Function.update_self]
    have hothers : ∀ u, u ≠ t → ((s.consume q.entry).leave t q).pc u = s.pc u := fun u hu =>
      alone_pc hu hsolo
    refine ⟨_, _, hsolo, ⟨undropped_alone hr hsolo, fun u => ?_, hnil⟩, hidle, hothers⟩
    by_cases hu : u = t
    · exact .inl (hu ▸ hidle)
    · rw [hothers u hu]
      exact hq u
  obtain ⟨l, hl⟩ := reach_support hr.any
  obtain ⟨s', g, hx, -, hall⟩ :=
    sweep Action.run Cfg.pc (· = .idle) hone ⟨hr, hq, hnil⟩ fun t ht => hl t ht
  exact ⟨s', g, hx, hall⟩

theorem task_joins (hr : Reach (.barrier n) Undropped s h) (hq : ∀ u, (s.pc u).Waits)
    (hd : data s.word ≠ 0) (ht : s.pc t = .idle) (ha : IsAnchor a) (hsl : s.slot a = .none) :
    ∃ s₁ s' h', step (.barrier n) s (.call t (.acquire (arrival a))) =
        some (.call t (.acquire (arrival a)), s₁) ∧
      Solo (.barrier n) t s₁ (.call t (.acquire (arrival a)) :: h) s' h' ∧
      Reach (.barrier n) Undropped s' h' ∧ (∀ u, (s'.pc u).Waits) ∧
      ((view h').queue = [] ∨ data s'.word ≠ 0 ∧ data s'.word + 1 = data s.word) := by
  obtain ⟨s₁, hs₁, hp₁, hw₁⟩ : ∃ s₁, step (.barrier n) s (.call t (.acquire (arrival a))) =
        some (.call t (.acquire (arrival a)), s₁) ∧
      s₁.pc t = .start (arrival a) ∧ s₁.word = s.word := by
    refine ⟨({ s with slot := Function.update s.slot a (.used t) }.construct a (.barrier false)
      false).goto t (.start (arrival a)), ?_, goto_pc_self .., rfl⟩
    simp [step, callStep, ht, Req.Fits, acquireCall, Goal.TooMany, ha, hsl,
      Goal.constructsEarly, Goal.opcode, arrival]
  have hr₁ : Reach (.barrier n) Undropped s₁ (.call t (.acquire (arrival a)) :: h) :=
    .step (a := Action.call t (.acquire (arrival a))) hr trivial hs₁
  have hjoin : ∀ {s' h'}, Solo (.barrier n) t s₁ (.call t (.acquire (arrival a)) :: h) s' h' →
      s'.pc t = .await (arrival a) false →
      Reach (.barrier n) Undropped s' h' ∧ ∀ u, (s'.pc u).Waits := by
    intro s' h' hx hp
    refine ⟨undropped_alone hr₁ hx, fun u => ?_⟩
    by_cases hu : u = t
    · rw [hu, hp]
      exact .inr ⟨_, rfl⟩
    · rw [alone_pc hu hx, step_pc hs₁ hu]
      exact hq u
  obtain ⟨s₂, e, hx, ⟨-, rfl, hp₂⟩ | ⟨hone, -, hw₂, hp₂⟩⟩ :=
    counts_down (n := n) (h := .call t (.acquire (arrival a)) :: h) rfl hp₁ (by rwa [hw₁])
  · have hr₂ := undropped_alone hr₁ hx
    obtain ⟨s', h', hy, hp'⟩ := arriver_waits (q := arrival a) hr₂ (by simp [arrival])
      (by rw [hp₂]; rfl)
    obtain ⟨hr', hq'⟩ := hjoin (hx.trans hy) hp'
    refine ⟨s₁, s', h', hs₁, hx.trans hy, hr', hq', .inl ?_⟩
    exact entered_alone hr₂ hy (by rw [hp₂]; simp [Pc.entered]) rfl
  · obtain ⟨s', hy, hp', hw'⟩ := pushed_waits (n := n) (by simp [arrival]) hp₂
    obtain ⟨hr', hq'⟩ := hjoin (hx.trans hy) hp'
    refine ⟨s₁, s', _, hs₁, hx.trans hy, hr', hq', .inr ?_⟩
    rw [hw₁] at hone hw₂
    have hdata : data s'.word = data (s.word - 1) := by
      rw [hw', hw₂]
      exact (join_tag (s.word - 1) ha.1).2.1
    rw [data_eq] at hdata hd hone ⊢
    rw [data_eq] at hdata ⊢
    omega

theorem run_calls (hr : Reach (.barrier n) Undropped s h)
    (hs : step (.barrier n) s (.run t) = some (e, s')) (op : Op) : e ≠ .call u op := by
  rintro rfl
  have hok : Undropped s h (.run t) := trivial
  have hmv : Move (.barrier n) s (view h) t (.run t) (s.pc t) (.call u op) (s'.pc t) :=
    (undropped_took hr hok hs).move
  generalize s.pc t = p at hmv
  generalize s'.pc t = p' at hmv
  cases hmv with
  | gate hg => cases hg

theorem alone_calls {g : List Event} (hr : Reach (.barrier n) Undropped s h)
    (hx : Onward (system (.barrier n)) (Only Action.run) s h s' g) :
    calls g = 0 ∧ Reach (.barrier n) Undropped s' (g ++ h) := by
  induction hx with
  | done => exact ⟨rfl, hr⟩
  | @step s₁ g act e s₂ hx hok hs ih =>
    obtain ⟨t, rfl⟩ := hok
    obtain ⟨hz, hr₁⟩ := ih
    refine ⟨?_, .step (a := Action.run t) hr₁ trivial hs⟩
    cases e with
    | call u op => exact absurd rfl (run_calls hr₁ hs op)
    | _ => exact hz

/-- As many tasks come as the counter says, and the generation is full. -/
theorem generation_fills (hn : 1 ≤ n) (hr : Reach (.barrier n) Undropped s h)
    (hq : ∀ u, (s.pc u).Waits) :
    ∃ s' g, Onward (system (.barrier n)) Joins s h s' g ∧ Reach (.barrier n) Undropped s' (g ++ h) ∧
      (∀ u, (s'.pc u).Waits) ∧ (view (g ++ h)).queue = [] ∧ calls g ≤ data s.word := by
  generalize hm : data s.word = m
  induction m generalizing s h with
  | zero => exact absurd hm (rests_filling hn hr fun u => (hq u).rests).pos
  | succ m ih =>
    obtain ⟨l, hl⟩ := reach_support hr.any
    obtain ⟨t, ht⟩ := Infinite.exists_notMem_finset l.toFinset
    obtain ⟨m', hm'⟩ := reach_entries hr
    obtain ⟨a, hfresh, ha⟩ := fresh_anchor m'
    obtain ⟨s₁, s₂, h₂, hs, hx, hr₂, hq₂, hend⟩ :=
      task_joins hr hq (by omega) (hl t (by simpa using ht)) ha (hm' a hfresh)
    have hcall : Onward (system (.barrier n)) Joins s h s₁ [.call t (.acquire (arrival a))] :=
      .step .done (.inr ⟨t, a, rfl⟩) hs
    have honly : ∀ (s : Cfg) (h : List Event), Only Action.run s h (Action.run t) := fun _ _ =>
      ⟨t, rfl⟩
    obtain ⟨g, rfl, hy⟩ := onward_alone honly hx
    have hr₁ : Reach (.barrier n) Undropped s₁ (.call t (.acquire (arrival a)) :: h) :=
      .step (a := Action.call t (.acquire (arrival a))) hr trivial hs
    have hz := (alone_calls hr₁ hy).1
    have hone : calls (g ++ [.call t (.acquire (arrival a))]) = 1 := by
      simp only [calls, List.countP_append] at hz ⊢
      rw [hz]
      rfl
    have hjoin := onward_trans hcall (onward_mono (fun _ _ _ hu => .inl hu) hy)
    have happ : g ++ .call t (.acquire (arrival a)) :: h =
        (g ++ [.call t (.acquire (arrival a))]) ++ h := by simp
    rw [happ] at hr₂ hend
    rcases hend with hnil | ⟨-, hdata⟩
    · exact ⟨s₂, _, hjoin, hr₂, hq₂, hnil, by omega⟩
    · obtain ⟨s', g', hz', hr', hq', hnil, hle⟩ := ih hr₂ hq₂ (by omega)
      rw [← List.append_assoc] at hr' hnil
      refine ⟨s', g' ++ (g ++ [.call t (.acquire (arrival a))]), onward_trans hjoin hz', hr', hq',
        hnil, ?_⟩
      simp only [calls, List.countP_append] at hone hle ⊢
      omega

/-- A barrier of size at least one holds nobody back for good. From every state of a run in which
no future is dropped, the calls that are under way can be ended by letting them go on and by
fewer further calls of `wait_sync` than the size of the barrier: in the end every call of
`wait_sync` and `wait_async` has returned. -/
theorem everybody_passes (hn : 1 ≤ n) (hr : Reach (.barrier n) Undropped s h) :
    ∃ s' g, Onward (system (.barrier n)) Joins s h s' g ∧ (∀ u, s'.pc u = .idle) ∧
      calls g < tasks n := by
  have hruns : ∀ {s₁ s₂ : Cfg} {h₁ g : List Event},
      Onward (system (.barrier n)) (Only Action.run) s₁ h₁ s₂ g →
      Onward (system (.barrier n)) Joins s₁ h₁ s₂ g := fun hx =>
    onward_mono (fun _ _ _ hu => .inl hu) hx
  obtain ⟨s₁, g₁, hx₁, hr₁, hq₁⟩ := tasks_rest hr
  obtain ⟨s₂, g₂, hx₂, hr₂, hq₂⟩ := tasks_retry hn hr₁ hq₁
  have hz₁ := (alone_calls hr hx₁).1
  have hz₂ := (alone_calls hr₁ hx₂).1
  have hx := onward_trans (hruns hx₁) (hruns hx₂)
  have hf := rests_filling hn hr₂ fun u => (hq₂ u).rests
  have hsum := hf.sum
  rw [rounds_view] at hsum
  by_cases hnil : (view (g₂ ++ (g₁ ++ h))).queue = []
  · obtain ⟨s₃, g₃, hx₃, hidle⟩ := tasks_return hr₂ hq₂ hnil
    have hz₃ := (alone_calls hr₂ hx₃).1
    rw [← List.append_assoc] at hx₃
    refine ⟨s₃, g₃ ++ (g₂ ++ g₁), onward_trans hx (hruns hx₃), hidle, ?_⟩
    have hpos := tasks_pos hn
    simp only [calls, List.countP_append] at hz₁ hz₂ hz₃ ⊢
    omega
  · obtain ⟨s₃, g₃, hx₃, hr₃, hq₃, hnil₃, hle⟩ := generation_fills hn hr₂ hq₂
    obtain ⟨s₄, g₄, hx₄, hidle⟩ := tasks_return hr₃ hq₃ hnil₃
    have hz₄ := (alone_calls hr₃ hx₄).1
    have hpos := List.length_pos_iff.mpr hnil
    have hall := onward_trans hx₃ (hruns hx₄)
    rw [← List.append_assoc] at hall
    refine ⟨s₄, g₄ ++ g₃ ++ (g₂ ++ g₁), onward_trans hx hall, hidle, ?_⟩
    simp only [calls, List.countP_append] at hz₁ hz₂ hz₄ hle ⊢
    omega

end

/-- The first of two tasks waits for the second. -/
theorem everybody_passes_meeting :
    ∃ s h, execIf (system (.barrier 2)) Undropped (Kind.initial (.barrier 2)) []
        (meeting.take 4) = some (s, h) ∧ s.pc 0 ≠ .idle ∧
      ∃ s' g, Onward (system (.barrier 2)) Joins s h s' g ∧ (∀ u, s'.pc u = .idle) ∧
        calls g < 2 := by
  obtain ⟨s, h, hrun, hp⟩ : ∃ s h, execIf (system (.barrier 2)) Undropped
      (Kind.initial (.barrier 2)) [] (meeting.take 4) = some (s, h) ∧
      s.pc 0 = .await ⟨.arrive, .async, 256⟩ false := ⟨_, _, rfl, rfl⟩
  refine ⟨s, h, hrun, by rw [hp]; simp, ?_⟩
  exact everybody_passes (by decide) (Run.execIf .init hrun)

end Saa
