import Saa.Poison

/-! # Pagers that only wait for the lock

`Mode::WaitExclusive` and `Mode::WaitShared` acquire nothing: the pager reports that the
lock was available, or that it was poisoned. The result is fixed by one step, the load of
`register_pager` or the step that takes the entry from the queue. -/
namespace Saa

open Word Lib.Linked Lib.Trace

/-- The result of the pager is fixed: its code is on the way or stored, or its
registration has read a word that answers it. -/
def Answers (s : Cfg) (v : View) (a : Ptr) (r : ℕ) : Prop :=
  Gets s v a r ∨ ∃ t q state i, s.pc t = .attempt q state i ∧ q.entry = a ∧ q.via = .pager ∧
    q.goal.attempt state = .done r

def Mode.Waits (m : Mode) : Prop := m = .waitExclusive ∨ m = .waitShared

/-- What the mode waits for, given the number of units that are taken: no owner at all, or
room for one more shared owner. -/
def Mode.Available (m : Mode) (held : ℕ) : Prop :=
  match m with
  | .waitExclusive => held = 0
  | .waitShared => held < MAX_SHARED_OWNERS
  | .exclusive | .shared => True

/-- The step that fixes the result `r` of the pager is right: it leaves the lock poisoned,
or the lock is not poisoned and available when it is taken. Entries that the same step
serves before this one count as owners. -/
def Right (s : Cfg) (v : View) (e : Event) (s' : Cfg) (a : Ptr) (m : Mode) (r : ℕ) : Prop :=
  r = POISONED ∧ s'.word = POISONED_STATE ∨
  r = ACQUIRED ∧ s.word ≠ POISONED_STATE ∧
    m.Available (data s.word + total s.opcode (behind a (v.served e)))

/-- Whatever result the step fixes for a waiting pager, it is right. -/
def Reports : Guard Cfg Action Event := fun s h act => ∀ e s' a m r,
  step .lock s act = some (e, s') → m.Waits → s'.opcode a = m.opcode →
  Answers s' ((view h).observe e) a r → ¬Answers s (view h) a r → Right s (view h) e s' a m r

/-- The load of `register_pager` in a wait mode meets one of the two words it misreads:
the result code `POISONED` taken for a state, and the poisoned state itself. -/
def Misreads (s : Cfg) : Action → Prop
  | .run t => match s.pc t with
    | .start q => (q.goal = .lock .waitExclusive ∨ q.goal = .lock .waitShared) ∧
        (s.word = POISONED ∨ s.word = POISONED_STATE)
    | _ => False
  | _ => False

section
variable {s s' : Cfg} {v : View} {h : List Event} {t : Tid} {q : Req} {a : Ptr} {r : ℕ}
  {m : Mode} {act : Action} {e : Event}

theorem greedy_mem {max held : ℕ} {o : Ptr → Opcode} {l : List Ptr} (hg : Greedy max o held l)
    (ha : a ∈ l) : Grantable max (held + total o (behind a l)) (o a) := by
  induction l with
  | nil => cases ha
  | cons b l ih =>
    by_cases hb : b = a
    · subst hb
      simpa [behind] using hg.2
    · have hm : a ∈ l := (List.mem_cons.mp ha).resolve_left (Ne.symm hb)
      have hbe : behind a (b :: l) = behind a l := by
        simp only [behind]
        rw [List.dropWhile_cons_of_pos (by simpa using hb)]
      rw [hbe]
      exact ih hg.1 hm

theorem Mode.Waits.available (hm : m.Waits) {held held' : ℕ} (hle : held' ≤ held)
    (hg : Grantable MAX_SHARED_OWNERS held m.opcode) : m.Available held' := by
  have h₁ : MAX_SHARED_OWNERS = 62 := by decide
  have h₂ : DATA_MASK = 63 := by decide
  rcases hm with rfl | rfl <;>
    simp only [Grantable, Mode.opcode, Opcode.desiredCount, Mode.Available] at hg ⊢ <;> omega

theorem Took.served_right (h : Took .lock s v t act e s') (hm : m.Waits)
    (hop : s.opcode a = m.opcode)
    (ha : a ∈ v.served e) : Right s v e s' a m ACQUIRED := by
  refine Or.inr ⟨rfl, ?_⟩
  cases e with
  | grant x tr =>
    obtain ⟨hh, -, ⟨held, hle, hg⟩, -⟩ := h.effect
    refine ⟨h.inv.holds_not_poisoned hh, hm.available (Nat.add_le_add_right hle _) ?_⟩
    rw [← hop]
    exact greedy_mem hg ha
  | tailReset x =>
    obtain ⟨hh, -, -, hg⟩ := h.effect
    refine ⟨h.inv.holds_not_poisoned hh, hm.available le_rfl ?_⟩
    rw [← hop]
    exact greedy_mem hg ha
  | _ => cases ha

/-- A resolver whose list already had the entry carried its code before, unless it has
just counted it. -/
theorem Took.verdict_new (h : Took .lock s v t act e s') (hst' : (v.observe e).stat a = .taken t)
    (hv' : (s'.pc t).verdict = some r) : Gets s v a r ∨ a ∈ v.served e ∧ r = ACQUIRED ∨
      (∃ x, e = .poison x) ∧ a ∈ v.queue ∧ r = POISONED := by
  have hst := stat_taken hst'
  rw [← h.inv.glob.taken] at hst
  have hmem := (h.inv'.glob.taken t a).mpr hst'
  have hl := h.inv.loc t
  have hbefore : (s.pc t).verdict = some r → a ∈ v.taken t → Gets s v a r := fun hv hm =>
    Or.inl ⟨t, (h.inv.glob.taken t a).mp hm, hv⟩
  have hmv := h.move
  generalize s.pc t = p at hmv hl hbefore
  generalize s'.pc t = p' at hmv hv'
  cases hmv with
  | gate hg => cases hg
  | last hn => obtain ⟨n, hn⟩ := hn; cases hn
  | writeBack hn => obtain ⟨n, hn⟩ := hn; cases hn
  | enter hin =>
    cases hin with
    | gate hg => cases hg
    | _ => cases hv'
  | @unreleased o op state => cases o <;> cases hv'
  | @release o op => cases o <;> cases hv'
  | @leave c n k => cases k <;> cases hv'
  | update =>
    cases hv'
    exact Or.inr (Or.inl ⟨hmem, rfl⟩)
  | add =>
    cases hv'
    exact Or.inr (Or.inl ⟨hmem, rfl⟩)
  | tailReset =>
    cases hv'
    refine Or.inr (Or.inl ⟨?_, rfl⟩)
    rcases hst with hm | hm
    · rw [hl.taken_nil rfl] at hm
      cases hm
    · exact hm
  | poison =>
    cases hv'
    refine Or.inr (Or.inr ⟨⟨t, rfl⟩, ?_, rfl⟩)
    rcases hst with hm | hm
    · rw [hl.taken_nil rfl] at hm
      cases hm
    · exact hm
  | set =>
    simp only [View.observe, Function.update_self] at hmem
    exact Or.inl (hbefore hv' (List.mem_of_mem_erase hmem))
  | finalize => exact Or.inl (hbefore hv' hmem)
  | _ => cases hv'

theorem Took.gets_new (h : Took .lock s v t act e s') (hg : Gets s' (v.observe e) a r) :
    Gets s v a r ∨ a ∈ v.served e ∧ r = ACQUIRED ∨
      (∃ x, e = .poison x) ∧ a ∈ v.queue ∧ r = POISONED ∨
      ∃ q, s'.pc t = .settle q r ∧ q.entry = a := by
  rcases hg with ⟨u, hst', hv'⟩ | ⟨u, q, hp', rfl⟩ | ⟨hres', hr'⟩
  · by_cases hu : u = t
    · subst hu
      rcases h.verdict_new hst' hv' with hg | hg | hg
      · exact Or.inl hg
      · exact Or.inr (Or.inl hg)
      · exact Or.inr (Or.inr (Or.inl hg))
    · rw [h.frame.pc u hu] at hv'
      rw [← h.inv'.glob.taken, h.taken_other hu, h.inv.glob.taken] at hst'
      exact Or.inl (Or.inl ⟨u, hst', hv'⟩)
  · by_cases hu : u = t
    · subst hu
      exact Or.inr (Or.inr (Or.inr ⟨q, hp', rfl⟩))
    · rw [h.frame.pc u hu] at hp'
      exact Or.inl (Or.inr (Or.inl ⟨u, q, hp', rfl⟩))
  · left
    have hi' : (v.observe e).stat a ≠ .idle := by
      rcases hres' with hst | ⟨u, hst⟩ <;> rw [hst] <;> simp
    have hkept : (v.stat a).Resolved → (∀ u c, e ≠ .setResult u a c) → Gets s v a r := by
      intro hres hne
      refine Or.inr (Or.inr ⟨hres, ?_⟩)
      rw [← h.frame.result a ?_ hi' hne]
      · exact hr'
      · rcases hres with hst | ⟨u, hst⟩ <;> rw [hst] <;> simp
    rcases stat_resolved hres' with hres | ⟨u, c, rfl⟩ | ⟨u, rfl⟩
    · refine hkept hres ?_
      rintro u c rfl
      rcases (h.frame.set u a c rfl).2.2.2 with hx | hx <;>
        rcases hres with hst | ⟨w, hst⟩ <;> rw [hst] at hx <;> cases hx
    · obtain ⟨rfl, hr, -⟩ := h.frame.set u a c rfl
      rw [hr] at hr'
      subst hr'
      have hmv := h.move
      generalize hp : s.pc u = p at hmv
      generalize s'.pc u = p' at hmv
      cases hmv with
      | gate hg => cases hg
      | @settle q => exact Or.inr (Or.inl ⟨u, q, hp, rfl⟩)
      | set hm => exact Or.inl ⟨u, (h.inv.glob.taken u a).mp hm, by rw [hp]; rfl⟩
    · refine hkept ?_ (by simp)
      have hans : ∃ x, v.stat a = .answered x := by
        have hmv := h.move
        have hl := h.inv.loc t
        generalize s.pc t = p at hmv hl
        generalize s'.pc t = p' at hmv
        cases hmv with
        | gate hg => cases hg
        | settled => exact ⟨t, (hl.answering _).mp rfl⟩
        | settledWait => exact ⟨t, (hl.answering _).mp rfl⟩
        | finalize => exact ⟨t, (hl.answering _).mp rfl⟩
      exact Or.inr hans

theorem Mode.Waits.goal (hm : m.Waits) {g : Goal} (hg : g.opcode = m.opcode) : g = .lock m := by
  have hd : DATA_MASK = 63 := by decide
  rcases hm with rfl | rfl <;> cases g with
  | lock m' => cases m' <;> simp_all [Goal.opcode, Mode.opcode]
  | _ => simp_all [Goal.opcode, Mode.opcode]

theorem Mode.Waits.attempt (hm : m.Waits) (state : ℕ) :
    Goal.attempt (.lock m) state = waitInternal m state := by
  rcases hm with rfl | rfl <;> rfl

theorem Mode.Waits.no_cas (hm : m.Waits) (state new : ℕ) :
    Goal.attempt (.lock m) state ≠ .cas new := by
  rw [hm.attempt, waitInternal]
  split
  · simp
  · split <;> simp

theorem Mode.Waits.done (hm : m.Waits) {w : ℕ} (h₁ : w ≠ POISONED)
    (hd : Goal.attempt (.lock m) w = .done r) : r = ACQUIRED ∧ m.Available (data w) := by
  rw [hm.attempt, waitInternal, if_neg h₁] at hd
  split at hd
  · next hav =>
    cases hd
    refine ⟨rfl, ?_⟩
    rcases hm with rfl | rfl
    · simpa [Mode.Available] using hav
    · simpa [Mode.Available] using hav
  · cases hd

theorem Took.settle_new (h : Took .lock s v t act e s') (haw : Weighs .lock s' (s'.pc t))
    (hm : m.Waits) (hop : s'.opcode q.entry = m.opcode) (hp' : s'.pc t = .settle q r) :
    Answers s v q.entry r := by
  have hmv := h.move
  have hef := h.effect
  have hl := h.inv.loc t
  rw [hp'] at haw
  generalize hp : s.pc t = p at hmv hl
  generalize s'.pc t = p' at hmv hp'
  cases hmv with
  | gate hg => cases hg
  | enter hin =>
    cases hin with
    | gate hg => cases hg
    | _ => cases hp'
  | arrived hn => obtain ⟨n, hn⟩ := hn; cases hn
  | @unreleased o op state => cases o <;> cases hp'
  | @release o op => cases o <;> cases hp'
  | @leave c n k => cases k <;> cases hp'
  | take htry hv =>
    cases hp'
    have hgoal := hm.goal ((haw hv).symm.trans hop)
    rw [hgoal] at hef
    rcases hm with rfl | rfl <;> exact absurd hef.2.1 id
  | @answer _ state i _ hne hd hv =>
    cases hp'
    refine Or.inr ⟨t, q, state, i, hp, rfl, ?_, hd⟩
    refine hv.resolve_right fun hen => ?_
    have hf := (hl.reqs q rfl).1
    simp [Req.Fits, hen] at hf
  | _ => cases hp'

/-- A wait mode decides on the word it has loaded: only a failed compare-exchange would
read it again. -/
theorem Mode.Waits.no_reload (hm : m.Waits) (hg : q.goal = .lock m) {state i state' i' : ℕ}
    (hp' : (attemptStep s t q state i).2.pc t = .attempt q state' i') : state' = state := by
  unfold attemptStep at hp'
  rw [if_neg (by rw [hg]; simp), hg] at hp'
  split at hp'
  · next new hc => exact absurd hc (hm.no_cas _ _)
  · unfold answered at hp'
    split at hp'
    · rw [goto_pc_self] at hp'
      cases hp'
    · rw [leave_pc, Function.update_self] at hp'
      cases hp'
  · split at hp'
    · rw [goto_pc_self] at hp'
      cases hp'
      rfl
    · unfold blocked at hp'
      split at hp'
      · rw [leave_pc, Function.update_self] at hp'
        cases hp'
      · split at hp' <;> rw [goto_pc_self] at hp' <;> cases hp'

theorem Took.load_new (h : Took .lock s v t act e s') (hs : step .lock s act = some (e, s'))
    (haw : Weighs .lock s' (s'.pc t)) (hm : m.Waits) (hop : s'.opcode q.entry = m.opcode)
    {state i : ℕ} (hp' : s'.pc t = .attempt q state i) (hv : q.via = .pager)
    (hd : q.goal.attempt state = .done r) :
    Answers s v q.entry r ∨ act = .run t ∧ s.pc t = .start q ∧ e = .tau ∧ state = s.word ∧
      q.goal = .lock m := by
  have hmv := h.move
  rw [hp'] at haw
  have hgoal := hm.goal ((haw.1 hv).symm.trans hop)
  generalize hp : s.pc t = p at hmv
  have hread : ∀ state₀ i₀, p = .attempt q state₀ i₀ → act = .run t → state = state₀ := by
    rintro state₀ i₀ rfl rfl
    simp only [step, runStep, hp, Option.some.injEq] at hs
    rw [show s' = (attemptStep s t q state₀ i₀).2 by rw [hs]] at hp'
    exact hm.no_reload hgoal hp'
  generalize s'.pc t = p' at hmv hp'
  cases hmv with
  | gate hg => cases hg
  | enter hin =>
    cases hin with
    | gate hg => cases hg
    | _ => cases hp'
  | @unreleased o op state => cases o <;> cases hp'
  | @release o op => cases o <;> cases hp'
  | @leave c n k => cases k <;> cases hp'
  | load =>
    cases hp'
    exact Or.inr ⟨rfl, rfl, rfl, rfl, hgoal⟩
  | spin =>
    cases hp'
    exact Or.inl (Or.inr ⟨t, q, _, _, hp, rfl, hv, hd⟩)
  | reload hne =>
    cases hp'
    exact absurd (hread _ _ rfl rfl) hne
  | _ => cases hp'

/-- A step that does not misread the word fixes only right results. -/
theorem Took.right (h : Took .lock s v t act e s') (hs : step .lock s act = some (e, s'))
    (haw : Weighs .lock s' (s'.pc t)) (hmis : ¬Misreads s act) (hm : m.Waits)
    (hop : s'.opcode a = m.opcode) (hans : Answers s' (v.observe e) a r)
    (hnew : ¬Answers s v a r) : Right s v e s' a m r := by
  rcases hans with hg | ⟨u, q, state, i, hp', rfl, hv, hd⟩
  · rcases h.gets_new hg with hg | ⟨ha, rfl⟩ | ⟨⟨x, rfl⟩, -, rfl⟩ | ⟨q, hp', rfl⟩
    · exact absurd (Or.inl hg) hnew
    · apply h.served_right hm _ ha
      have hst : v.stat a ≠ .idle ∧ (v.observe e).stat a ≠ .idle := by
        cases e with
        | grant x tr =>
          have hst : v.stat a = .taken x := (h.inv.glob.taken x a).mp ha
          exact ⟨by simp [hst], by simp [View.observe, hst]⟩
        | tailReset x =>
          have hm : a ∈ v.queue := ha
          have hst := (h.inv.glob.queued a).mp hm
          exact ⟨by simp [hst], by simp [View.observe, View.detach, hm]⟩
        | _ => cases ha
      rw [← h.frame.kept a hst.1 hst.2]
      exact hop
    · exact Or.inl ⟨rfl, h.effect.2.2⟩
    · exact absurd (h.settle_new haw hm hop hp') hnew
  · by_cases hu : u = t
    · subst hu
      rcases h.load_new hs haw hm hop hp' hv hd with ha | ⟨rfl, hp, rfl, rfl, hgoal⟩
      · exact absurd ha hnew
      · have hread : s.word ≠ POISONED ∧ s.word ≠ POISONED_STATE := by
          rw [← not_or]
          intro hw
          apply hmis
          simp only [Misreads, hp]
          refine ⟨?_, hw⟩
          rcases hm with rfl | rfl
          · exact Or.inl hgoal
          · exact Or.inr hgoal
        rw [hgoal] at hd
        obtain ⟨rfl, hav⟩ := hm.done hread.1 hd
        exact Or.inr ⟨rfl, hread.2, hav⟩
    · rw [h.frame.pc u hu] at hp'
      exact absurd (Or.inr ⟨u, q, state, i, hp', rfl, hv, hd⟩) hnew

theorem Inv.not_answered (h : Inv .lock s v) (hp : s.pc t = .start q) (hv : q.via = .pager) :
    ¬Answers s v q.entry r := by
  have hl := h.loc t
  rw [hp] at hl
  have hent : (Pc.start q).entry = some q.entry := if_neg (by rw [hv]; simp)
  have hst : v.stat q.entry = .idle := hl.stat _ hent
  have hsl := (hl.slot _).mp hent
  have honly : ∀ u, (s.pc u).entry = some q.entry → u = t := by
    intro u hu
    have hsu := ((h.loc u).slot _).mp hu
    rw [hsl] at hsu
    cases hsu
    rfl
  rintro ((⟨u, hx, -⟩ | ⟨u, q', hpu, he⟩ | ⟨hx | ⟨u, hx⟩, -⟩) | ⟨u, q', state, i, hpu, he, hv', -⟩)
  · rw [hst] at hx
    cases hx
  · have hlu := h.loc u
    rw [hpu] at hlu
    obtain rfl := honly u (by rw [hpu, ← he]; exact if_neg hlu.fits)
    rw [hp] at hpu
    cases hpu
  · rw [hst] at hx
    cases hx
  · rw [hst] at hx
    cases hx
  · obtain rfl := honly u (by rw [hpu, ← he]; exact if_neg (by rw [hv']; simp))
    rw [hp] at hpu
    cases hpu

theorem misread (hr : Reach .lock free s h) (hmis : Misreads s act) : ¬Reports s h act := by
  intro hrep
  have hi := reach_inv (by simp) hr
  cases act with
  | call x op => exact hmis
  | cancel x => exact hmis
  | run t =>
    simp only [Misreads] at hmis
    split at hmis
    swap
    · exact hmis
    next q hp =>
    obtain ⟨hgoal, hw⟩ := hmis
    obtain ⟨m, hm, hgoal⟩ : ∃ m : Mode, m.Waits ∧ q.goal = .lock m := by
      rcases hgoal with hg | hg
      · exact ⟨_, Or.inl rfl, hg⟩
      · exact ⟨_, Or.inr rfl, hg⟩
    have hne : m ≠ .exclusive ∧ m ≠ .shared := by rcases hm with rfl | rfl <;> simp
    have hl := hi.loc t
    rw [hp] at hl
    have hv : q.via = .pager := by
      have hf := (hl.reqs q rfl).1
      simpa [Req.Fits, hgoal, hne] using hf
    have hs : step .lock s (.run t) = some (.tau, s.goto t (.attempt q s.word 0)) := by
      simp [step, runStep, hp, startStep, hgoal, hne]
    have hask := (reach_awake (Or.inl rfl) hr).2.weighs t
    rw [hp] at hask
    have hop : (s.goto t (.attempt q s.word 0)).opcode q.entry = m.opcode := by
      rw [goto_opcode, hask hv, hgoal]
      rfl
    have hans : ∀ c, waitInternal m s.word = .done c →
        Right s (view h) .tau (s.goto t (.attempt q s.word 0)) q.entry m c := by
      intro c hc
      apply hrep _ _ _ m _ hs hm hop _ (hi.not_answered hp hv)
      refine Or.inr ⟨t, q, s.word, 0, goto_pc_self .., rfl, hv, ?_⟩
      rw [hgoal, hm.attempt]
      exact hc
    rcases hw with hw | hw
    · rcases hans POISONED (by rw [waitInternal, if_pos hw]) with ⟨-, hx⟩ | ⟨hx, -⟩
      · rw [goto_word, hw] at hx
        cases hx
      · cases hx
    · have hc : waitInternal m s.word = .done ACQUIRED := by
        rw [hw]
        rcases hm with rfl | rfl <;> decide
      rcases hans ACQUIRED hc with ⟨hx, -⟩ | ⟨-, hx, -⟩
      · cases hx
      · exact hx hw

/-- Wait-mode pagers report the condition of the lock correctly in exactly the runs in
which no wait-mode registration loads the word 2 or the poisoned state. -/
theorem wait_pagers_report_iff :
    Reach .lock Reports s h ↔ Reach .lock (fun s _ act => ¬Misreads s act) s h := by
  constructor
  · intro hr
    refine hr.guard fun s h act hr hrep hmis => ?_
    exact misread hr.any hmis hrep
  · intro hr
    refine hr.guard fun s h act hr hmis e s' a m r hs hm hop hans hnew => ?_
    have hr' : Reach .lock free s' (e :: h) := .step hr.any trivial hs
    have htook := took (reach_inv (by simp) hr) (reach_inv (by simp) hr') hs
    have haw := (reach_awake (Or.inl rfl) hr').2.weighs act.actor
    exact htook.right hs haw hmis hm hop hans hnew

end

/-- Two threads share the lock and a third registers a pager in mode `WaitShared`; the
schedule ends before its load. -/
def sharedTwice : List Action :=
  [.call 0 (.acquire ⟨.lock .shared, .tryOnly, 0⟩), .run 0, .run 0,
    .call 1 (.acquire ⟨.lock .shared, .tryOnly, 0⟩), .run 1, .run 1,
    .call 2 (.acquire ⟨.lock .waitShared, .pager, 256⟩)]

/-- The pager is told that the lock is poisoned while two threads share it. -/
theorem wait_pager_misled :
    ∃ s h, exec (system .lock) Kind.lock.initial [] sharedTwice = some (s, h) ∧
      Reach .lock free s h ∧ ¬Reports s h (.run 2) := by
  obtain ⟨s, h, hrun, hmis⟩ : ∃ s h,
      exec (system .lock) Kind.lock.initial [] sharedTwice = some (s, h) ∧
      Misreads s (.run 2) := ⟨_, _, rfl, Or.inr rfl, Or.inl rfl⟩
  have hr := Run.exec .init (admits_free ..) hrun
  exact ⟨s, h, hrun, hr, misread hr hmis⟩

end Saa
