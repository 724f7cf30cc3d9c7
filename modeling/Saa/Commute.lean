import Saa.Outcome

/-! # The order of whole calls

Releases can be split, and a waiter can leave before or after a release: the same waiters
are served. -/
namespace Saa

open Word Lib.Linked Lib.Trace Lib.Greedy

/-- Two runs end with the same data field, the same queue, and the same grants in the same
order, and the entries have heard the same. -/
def Agree (s : Cfg) (h : List Event) (s' : Cfg) (h' : List Event) : Prop :=
  data s.word = data s'.word ∧ (view h).queue = (view h').queue ∧ grants h = grants h' ∧
    s.state = s'.state

section
variable {kind : Kind} {s s₀ s₁ s₂ : Cfg} {h h₁ h₂ : List Event} {t u w : Tid} {a b : Ptr}
  {held : ℕ} {act : Action} {e : Event} {line : List Ptr}

theorem Granted.state_agree {g g' : List Ptr} (hx : Granted s h g s₁ h₁)
    (hy : Granted s h g' s₂ h₂) (hb : b ∈ g ↔ b ∈ g') : s₁.state b = s₂.state b := by
  by_cases hm : b ∈ g
  · rw [hx.result b hm, hy.result b (hb.mp hm)]
  · rw [hx.others b hm, hy.others b (mt hb.mpr hm)]

theorem Served.agree (hx : Served kind s h held line s₁ h₁)
    (hy : Served kind s h held line s₂ h₂) : Agree s₁ h₁ s₂ h₂ := by
  refine ⟨hx.units.trans hy.units.symm, ?_, hx.granted.trans hy.granted.symm, ?_⟩
  · rw [← List.reverse_inj, hx.left, hy.left]
  · funext b
    exact hx.toGranted.state_agree hy.toGranted Iff.rfl

section
variable {n x y : ℕ}

theorem release_many (hr : Reach (.semaphore n) free s h) (hq : Quiescent s) (ht : s.pc t = .idle)
    (hx : x ≤ data s.word) :
    ∃ s₁ h₁, Succeeds (.semaphore n) t (.releaseMany x) s h s₁ h₁ ∧
      Reach (.semaphore n) free s₁ h₁ ∧ Quiescent s₁ ∧ (∀ u, s.pc u = .idle → s₁.pc u = .idle) ∧
      Served (.semaphore n) s h (data s.word - x) (view h).queue.reverse s₁ h₁ := by
  have hk : (Kind.semaphore n).Grants := .inr ⟨n, rfl⟩
  have hn := hq.unlocked (reach_inv hk.not_barrier hr) (by simp)
  have hd := data_lt s.word
  have hs : step (.semaphore n) s (.call t (.releaseMany x)) =
      some (.call t (.releaseMany x), s.goto t (.releaseFast (.semaphore x))) := by
    simp [step, callStep, ht, show x < 256 by omega]
  have hunit : (Op.releaseMany x).unit = some (.semaphore x) := rfl
  obtain ⟨s₁, h₁, hend, hr₁, hq₁, -, hothers, hserved⟩ := release_call hk hr hq hunit hs hx hn
  refine ⟨s₁, h₁, hend, hr₁, hq₁, ?_, hserved⟩
  intro u hu
  by_cases hut : u = t
  · rw [hut]
    exact hend.idle
  · rw [hothers u hut]
    exact hu

theorem release_twice (hr : Reach (.semaphore n) free s h) (hq : Quiescent s) (ht : s.pc t = .idle)
    (hu : s.pc u = .idle) (hle : x + y ≤ data s.word) :
    ∃ s₁ h₁ s₂ h₂, Succeeds (.semaphore n) t (.releaseMany x) s h s₁ h₁ ∧
      Succeeds (.semaphore n) u (.releaseMany y) s₁ h₁ s₂ h₂ ∧
      Served (.semaphore n) s h (data s.word - (x + y)) (view h).queue.reverse s₂ h₂ := by
  obtain ⟨s₁, h₁, hend₁, hr₁, hq₁, hidle, hserved₁⟩ :=
    release_many hr hq ht (show x ≤ data s.word by omega)
  have hd := hserved₁.units
  obtain ⟨s₂, h₂, hend₂, -, -, -, hserved₂⟩ :=
    release_many hr₁ hq₁ (hidle u hu) (show y ≤ data s₁.word by omega)
  refine ⟨s₁, h₁, s₂, h₂, hend₁, hend₂, hserved₁.trans (by omega) ?_⟩
  have hheld : data s₁.word - y = data s.word - (x + y) +
      ((Kind.semaphore n).policy s.opcode).load (((Kind.semaphore n).policy s.opcode).serve
        (data s.word - x) (view h).queue.reverse) := by omega
  rwa [hheld] at hserved₂

/-- Splitting a release changes nothing. In every state of a semaphore that a run reaches and
in which no thread is in the middle of an operation, `release_many(x)` and then
`release_many(y)`, the same calls the other way round, and `release_many(x + y)` all return
`true`, and end with the same data field and the same queue, having granted the same entries
in the same order. -/
theorem split_release_agrees (hr : Reach (.semaphore n) free s h) (hq : Quiescent s)
    (ht : s.pc t = .idle) (hu : s.pc u = .idle) (hw : s.pc w = .idle)
    (hle : x + y ≤ data s.word) :
    ∃ sx hx sxy hxy sy hy syx hyx s' h',
      Succeeds (.semaphore n) t (.releaseMany x) s h sx hx ∧
      Succeeds (.semaphore n) u (.releaseMany y) sx hx sxy hxy ∧
      Succeeds (.semaphore n) u (.releaseMany y) s h sy hy ∧
      Succeeds (.semaphore n) t (.releaseMany x) sy hy syx hyx ∧
      Succeeds (.semaphore n) w (.releaseMany (x + y)) s h s' h' ∧
      Agree sxy hxy s' h' ∧ Agree syx hyx s' h' := by
  obtain ⟨sx, hx, sxy, hxy, hend₁, hend₂, hserved₁⟩ := release_twice hr hq ht hu hle
  obtain ⟨sy, hy, syx, hyx, hend₃, hend₄, hserved₂⟩ :=
    release_twice (x := y) (y := x) hr hq hu ht (by omega)
  obtain ⟨s', h', hend₅, -, -, -, hserved₃⟩ := release_many hr hq hw hle
  rw [Nat.add_comm y x] at hserved₂
  exact ⟨sx, hx, sxy, hxy, sy, hy, syx, hyx, s', h', hend₁, hend₂, hend₃, hend₄, hend₅,
    hserved₁.agree hserved₃, hserved₂.agree hserved₃⟩

end

theorem exec_quiescent {as : List Action} {n : ℕ} (hk : kind.Grants)
    (hx : exec (system kind) kind.initial [] as = some (s, h))
    (ha : ∀ act ∈ as, act.actor < n) (hz : ∀ t < n, s.pc t = .idle) : Quiescent s := by
  intro u
  left
  by_cases hu : u < n
  · exact hz u hu
  · refine (exec_other hk .init hx fun act hm he => hu ?_).trans rfl
    rw [← he]
    exact ha act hm

end

/-- Thread 0 holds the only permit of a semaphore, and pagers of the threads 1 and 2 wait
for it. -/
def twoPagers : List Action :=
  [.call 0 (.acquire ⟨.permits 1, .tryOnly, 0⟩), .run 0, .run 0,
    .call 1 (.acquire ⟨.permits 1, .pager, 256⟩), .run 1, .run 1, .run 1, .run 1,
    .call 2 (.acquire ⟨.permits 1, .pager, 384⟩), .run 2, .run 2, .run 2, .run 2]

/-- Two permits are given back, one by one and at once. -/
theorem split_release_agrees_pagers :
    ∃ s h s₁ h₁ s₂ h₂ s' h',
      exec (system (.semaphore 1)) (Kind.initial (.semaphore 1)) [] twoPagers = some (s, h) ∧
      (view h).queue = [384, 256] ∧
      Succeeds (.semaphore 1) 0 (.releaseMany 1) s h s₁ h₁ ∧
      Succeeds (.semaphore 1) 1 (.releaseMany 1) s₁ h₁ s₂ h₂ ∧
      Succeeds (.semaphore 1) 0 (.releaseMany 2) s h s' h' ∧ Agree s₂ h₂ s' h' := by
  obtain ⟨s, h, hrun, hqueue, hidle, hle⟩ : ∃ s h,
      exec (system (.semaphore 1)) (Kind.initial (.semaphore 1)) [] twoPagers = some (s, h) ∧
      (view h).queue = [384, 256] ∧ (∀ t < 3, s.pc t = .idle) ∧ 1 + 1 ≤ data s.word :=
    ⟨_, _, rfl, rfl, by decide, by decide⟩
  have hr : Reach (.semaphore 1) free s h := Run.exec .init (admits_free ..) hrun
  have hq := exec_quiescent (.inr ⟨1, rfl⟩) hrun (by decide) hidle
  obtain ⟨s₁, h₁, s₂, h₂, -, -, -, -, s', h', hend₁, hend₂, -, -, hend, hagree, -⟩ :=
    split_release_agrees hr hq (hidle 0 (by decide)) (hidle 1 (by decide)) (hidle 0 (by decide)) hle
  exact ⟨s, h, s₁, h₁, s₂, h₂, s', h', hrun, hqueue, hend₁, hend₂, hend, hagree⟩

section
variable {kind : Kind} {s s₀ s₁ s₂ : Cfg} {h h₁ h₂ : List Event} {t u : Tid} {a b : Ptr}
  {held : ℕ} {act : Action} {line : List Ptr}

section
variable {o : Ptr → Opcode} {opc : Opcode} {w w' : ℕ}

theorem serve_room (hpos : 0 < held) (hle : held ≤ kind.maxSharedOwners) :
    held + (kind.policy o).load ((kind.policy o).serve held line) ≤ kind.maxSharedOwners := by
  induction line generalizing held with
  | nil => exact hle
  | cons b line ih =>
    by_cases hg : (kind.policy o).admits held b
    · have hroom : held + (o b).desiredCount ≤ kind.maxSharedOwners := by
        apply hg.resolve_left
        omega
      have hsmall := acquired_le_desired (o b)
      have hb : (kind.policy o).weight b = (o b).acquiredCount := rfl
      rw [serve_cons_of_admits hg, load_cons, ← Nat.add_assoc]
      apply ih <;> omega
    · rw [serve_cons_of_not hg]
      exact hle

theorem serve_shared (ha : a ∈ (kind.policy o).serve held line) (ho : o a = .shared)
    (hmax : 1 ≤ kind.maxSharedOwners) :
    held + (kind.policy o).load ((kind.policy o).serve held line) ≤ kind.maxSharedOwners := by
  induction line generalizing held with
  | nil => cases ha
  | cons b line ih =>
    by_cases hg : (kind.policy o).admits held b
    · rw [serve_cons_of_admits hg] at ha ⊢
      rw [load_cons, ← Nat.add_assoc]
      rcases List.mem_cons.mp ha with rfl | ha
      · have hb : (kind.policy o).weight a = 1 := by simp [Kind.policy, ho, Opcode.acquiredCount]
        have hone : (o a).desiredCount = 1 := by rw [ho]; rfl
        have hroom : held = 0 ∨ held + (o a).desiredCount ≤ kind.maxSharedOwners := hg
        apply serve_room <;> omega
      · exact ih ha
    · rw [serve_cons_of_not hg] at ha
      cases ha

theorem granted_canRelease (ha : a ∈ (kind.policy o).serve held line) (hf : (o a).Fits kind)
    (hd : data w = held + (kind.policy o).load ((kind.policy o).serve held line)) :
    (o a).CanRelease w := by
  have hle := load_erase (P := kind.policy o) ha
  have hlt := data_lt w
  have hm : DATA_MASK = 63 := by decide
  have hw : (kind.policy o).weight a = (o a).acquiredCount := rfl
  cases ho : o a with
  | exclusive =>
    rw [ho] at hw
    simp only [Opcode.acquiredCount] at hw
    simp only [Opcode.CanRelease]
    omega
  | shared =>
    rw [ho] at hw hf
    obtain rfl : kind = .lock := hf
    have hroom := serve_shared ha ho (by decide)
    have hmax : Kind.lock.maxSharedOwners = 62 := by decide
    simp only [Opcode.acquiredCount] at hw
    simp only [Opcode.CanRelease]
    omega
  | semaphore n =>
    rw [ho] at hw
    simp only [Opcode.acquiredCount] at hw
    simp only [Opcode.CanRelease]
    omega
  | barrier | wait => trivial

theorem canRelease_later (hf : Pc.Fits kind (.releaseFast opc)) (hcan : opc.CanRelease w)
    (hd : data w' = data w + (kind.policy o).load ((kind.policy o).serve (data w) line)) :
    opc.CanRelease w' := by
  have hlt := data_lt w'
  have hm : DATA_MASK = 63 := by decide
  rcases hf with ⟨rfl, rfl | rfl⟩ | ⟨n, c, rfl, rfl, -⟩
  · simp only [Opcode.CanRelease] at hcan ⊢
    omega
  · have hlt' := data_lt w
    have hmax : Kind.lock.maxSharedOwners = 62 := by decide
    simp only [Opcode.CanRelease] at hcan ⊢
    have hroom : data w + (Kind.lock.policy o).load ((Kind.lock.policy o).serve (data w) line) ≤
        Kind.lock.maxSharedOwners := serve_room (by omega) (by omega)
    omega
  · simp only [Opcode.CanRelease] at hcan ⊢
    omega

end

section
variable {op : Op} {opc : Opcode} {s' : Cfg} {h' : List Event}

theorem solo_ends_once {s₃ : Cfg} {h₃ : List Event} (hx : Solo kind t s h s₂ h₂)
    (hx' : s₂.pc t = .idle) (hy : Solo kind t s h s₃ h₃) (hy' : s₃.pc t = .idle) :
    s₂ = s₃ ∧ h₂ = h₃ := by
  refine hx.unique ?_ hy ?_
  · simp [system, step, runStep, hx']
  · simp [system, step, runStep, hy']

theorem Succeeds.canRelease (hx : Succeeds kind t op s h s₁ h₁) (hk : kind.Grants)
    (hr : Reach kind free s h) (hop : op.unit = some opc) : opc.CanRelease s.word := by
  obtain ⟨⟨s₀, hs, hsolo⟩, hidle, htaken, -⟩ := hx
  by_contra hcan
  have hr₀ : Reach kind free s₀ (.call t op :: h) := .step (a := Action.call t op) hr trivial hs
  obtain ⟨hno, -⟩ | ⟨-, rfl⟩ := release_begins hop hs
  · cases hno
  set s₀ := s.goto t (.releaseFast opc) with hs₀
  have hp : s₀.pc t = .releaseFast opc := goto_pc_self ..
  have hstep : step kind s₀ (.run t) = some (releaseFast s₀ t opc) := by simp [step, runStep, hp]
  have hef := (took (reach_inv hk.not_barrier hr₀)
    (reach_inv hk.not_barrier (.step (a := Action.run t) hr₀ trivial hstep)) hstep).effect
  have hslow : releaseFast s₀ t opc = (.tau, s₀.goto t (.releaseLoop (.caller t) opc s.word)) := by
    cases opc with
    | exclusive | shared | semaphore =>
      simp only [releaseFast] at hef ⊢
      split at hef
      · exact absurd hef.1 hcan
      · next hc =>
        rw [if_neg hc]
        rfl
    | barrier | wait => rfl
  rw [hslow] at hstep
  have hrefuse : step kind (s₀.goto t (.releaseLoop (.caller t) opc s.word)) (.run t) =
      some (.refuse t 0, s₀.goto t .idle) := by
    simp [step, runStep, releaseLoop, hcan, Cfg.goto, Holder.after, After.pc]
  obtain ⟨-, rfl⟩ := solo_ends_once hsolo hidle (.step hstep (.step hrefuse .done))
    (goto_pc_self ..)
  simp [decrements] at htaken

theorem call_idle {e : Event} (hs : step kind s (.call t op) = some (e, s₁)) : s.pc t = .idle := by
  by_contra hbusy
  simp [step, callStep, hbusy] at hs

theorem release_again (hop : op.unit = some opc)
    (hs : step kind s (.call t op) = some (.call t op, s₁)) (hidle : s'.pc t = .idle) :
    step kind s' (.call t op) = some (.call t op, s'.goto t (.releaseFast opc)) := by
  simp only [step, callStep] at hs ⊢
  rw [if_neg (not_not.mpr hidle)]
  split at hs
  · cases hs
  cases op <;> cases hop <;> cases kind <;> simp only [reduceCtorEq] at hs ⊢
  case releaseMany.refl.semaphore count permits =>
    split at hs
    · next hc => rw [if_pos hc]
    · cases hs

theorem Droppable.later (hd : Droppable s t a act) (hsl : s'.slot = s.slot)
    (hpc : ∀ w, w ≠ u → s'.pc w = s.pc w) (hu : s.pc u = .idle) (hu' : s'.pc u = .idle) :
    Droppable s' t a act := by
  rcases hd with ⟨rfl, hidle, hslot⟩ | ⟨rfl, q, retry, hp, hv, rfl⟩
  · refine .inl ⟨rfl, ?_, by rw [hsl]; exact hslot⟩
    by_cases htu : t = u
    · rw [htu]
      exact hu'
    · rw [hpc t htu]
      exact hidle
  · have htu : t ≠ u := by
      rintro rfl
      rw [hu] at hp
      cases hp
    refine .inr ⟨rfl, q, retry, ?_, hv, rfl⟩
    rw [hpc t htu]
    exact hp

theorem Droppable.final {v : View} {r : ℕ} (hd : Droppable s t a act) (hi : Inv kind s v)
    (hst : s.state a = ⟨r, true, true⟩) : v.stat a = .final := by
  have hclear : s.state a ≠ .clear := by
    rw [hst]
    simp [EntryState.clear]
  cases hv : v.stat a with
  | final => rfl
  | queued => exact absurd (hi.glob.clear a (.inl hv)) hclear
  | taken u => exact absurd (hi.glob.clear a (.inr (.inl ⟨u, hv⟩))) hclear
  | unlinked => exact absurd (hi.glob.clear a (.inr (.inr hv))) hclear
  | answered u =>
    have hset := (hi.glob.set a u hv).2
    rw [hst] at hset
    cases hset
  | idle =>
    rcases hd with ⟨rfl, -, hsl⟩ | ⟨rfl, q, retry, hp, hvia, rfl⟩
    · exact absurd ((hi.glob.pagers a hsl).2.2.2 hv) hclear
    · have hl := hi.loc t
      rw [hp] at hl
      exact absurd hv (hl.stat q.entry (if_neg (by rw [hvia]; simp))).1

theorem reverse_erase {l : List Ptr} (hn : l.Nodup) : (l.erase a).reverse = l.reverse.erase a := by
  rw [hn.erase_eq_filter, (List.nodup_reverse.mpr hn).erase_eq_filter, List.filter_reverse]

theorem drop_waiting (hk : kind.Grants) (hr : Reach kind free s h) (hq : Quiescent s)
    (hn : ¬Locked s.word) (hd : Droppable s t a act) (ha : a ∈ (view h).queue) :
    ∃ s' h', Dropped kind t a act s h s' h' ∧ Reach kind free s' h' ∧ Quiescent s' ∧
      (∀ u, s.pc u = .idle → s'.pc u = .idle) ∧
      Served kind s h (data s.word) ((view h).queue.reverse.erase a) s' h' := by
  have hi := reach_inv hk.not_barrier hr
  apply drop_call hk hr hq hd
  · rw [(hi.glob.queued a).mp ha]
    simp
  · intro s₁ hp hw _ hr₁ _
    rw [← reverse_erase hi.glob.chain.nodup, ← hw]
    exact queued_served hk hr₁ hp (by rwa [hw]) ha

theorem drop_granted {r : ℕ} (hk : kind.Grants) (hr : Reach kind free s h) (hq : Quiescent s)
    (hn : ¬Locked s.word) (hd : Droppable s t a act) (hst : s.state a = ⟨r, true, true⟩)
    (hcan : (s.opcode a).CanRelease s.word) :
    ∃ s' h', Dropped kind t a act s h s' h' ∧ Reach kind free s' h' ∧ Quiescent s' ∧
      (∀ u, s.pc u = .idle → s'.pc u = .idle) ∧
      Served kind s h (data s.word - (s.opcode a).acquiredCount) (view h).queue.reverse s' h' := by
  have hfinal := hd.final (reach_inv hk.not_barrier hr) hst
  apply drop_call hk hr hq hd
  · rw [hfinal]
    simp
  · intro s₁ hp hw ho hr₁ hq₁
    have hn₁ : ¬Locked s₁.word := by rwa [hw]
    have hb := (reach_awake hk hr₁).2.head hn₁
    rw [← hw, ← ho]
    exact final_served hk hr₁ hq₁ hp hn₁ hfinal (by rwa [hw, ho]) hb

/-- The drop first: the release serves the line that is left. -/
theorem drop_then_release (hk : kind.Grants) (hr : Reach kind free s h) (hq : Quiescent s)
    (hn : ¬Locked s.word) (hd : Droppable s t a act) (ha : a ∈ (view h).queue)
    (hop : op.unit = some opc) (hs : step kind s (.call u op) = some (.call u op, s₀))
    (hcan : opc.CanRelease s.word) :
    ∃ s₁ h₁ s' h', Dropped kind t a act s h s₁ h₁ ∧ Succeeds kind u op s₁ h₁ s' h' ∧
      Served kind s h (data s.word - opc.acquiredCount) ((view h).queue.reverse.erase a) s' h' := by
  have hr₀ : Reach kind free s₀ (.call u op :: h) := .step (a := Action.call u op) hr trivial hs
  obtain ⟨hno, -⟩ | ⟨-, rfl⟩ := release_begins hop hs
  · cases hno
  have hfit := ((reach_inv hk.not_barrier hr₀).loc u).fits
  rw [goto_pc_self] at hfit
  have hu := call_idle hs
  obtain ⟨s₁, h₁, hdrop, hr₁, hq₁, hidle, hserved⟩ := drop_waiting hk hr hq hn hd ha
  have hcan₁ := canRelease_later hfit hcan hserved.units
  obtain ⟨s', h', hend, -, -, -, -, hserved'⟩ := release_call hk hr₁ hq₁ hop
    (release_again hop hs (hidle u hu)) hcan₁ hserved.unlocked
  refine ⟨s₁, h₁, s', h', hdrop, hend, hserved.trans (Nat.sub_le ..) ?_⟩
  have hle := acquired_le_data hcan
  have hheld : data s₁.word - opc.acquiredCount = data s.word - opc.acquiredCount +
      (kind.policy s.opcode).load ((kind.policy s.opcode).serve (data s.word)
        ((view h).queue.reverse.erase a)) := by
    rw [hserved.units]
    omega
  rwa [hheld] at hserved'

/-- The line was served as if entry `a` had not been there, whatever became of that entry. -/
structure ServedBut (kind : Kind) (a : Ptr) (s : Cfg) (h : List Event) (held : ℕ)
    (line g : List Ptr) (s' : Cfg) (h' : List Event) : Prop extends Granted s h g s' h' where
  same : g.filter (· ≠ a) = (kind.policy s.opcode).serve held (line.erase a)
  units : data s'.word =
    held + (kind.policy s.opcode).load ((kind.policy s.opcode).serve held (line.erase a))
  left : (view h').queue.reverse = (kind.policy s.opcode).rest held (line.erase a)

theorem serve_sublist {P : Policy Ptr ℕ} : (P.serve held line).Sublist line := by
  conv_rhs => rw [← serve_rest (P := P) (m := held) (l := line)]
  exact List.sublist_append_left ..

theorem not_served_of_erased {P : Policy Ptr ℕ} (hn : line.Nodup) :
    a ∉ P.serve held (line.erase a) := by
  intro hm
  exact hn.not_mem_erase (serve_sublist.subset hm)

theorem filter_append_of_not_mem {g r : List Ptr} (hg : g.Nodup) (hr : a ∉ r) :
    (g ++ r).filter (· ≠ a) = g.erase a ++ r := by
  have hself : r.filter (· ≠ a) = r := by
    apply List.filter_eq_self.mpr
    rintro b hb
    simpa using ne_of_mem_of_not_mem hb hr
  rw [List.filter_append, hself, hg.erase_eq_filter]
  congr 2
  funext b
  by_cases hb : b = a <;> simp [hb]

theorem Served.leaves (hn : line.Nodup) (hx : Served kind s h held line s₁ h₁)
    (ha : a ∉ (kind.policy s.opcode).serve held line)
    (hy : Served kind s₁ h₁ (data s₁.word) ((view h₁).queue.reverse.erase a) s₂ h₂) :
    ∃ g, ServedBut kind a s h held line g s₂ h₂ := by
  obtain ⟨hserve, hrest⟩ := serve_erase_of_waiting ha
  obtain ⟨hgr, hd, hq, -⟩ := hy
  rw [hx.opcode, hx.left, hx.units] at hd hq hgr
  have hno : a ∉ (kind.policy s.opcode).serve held (line.erase a) := not_served_of_erased hn
  refine ⟨_, hx.toGranted.trans hgr, ?_, ?_, ?_⟩
  · rw [hserve, List.mem_append, not_or] at hno
    rw [filter_append_of_not_mem (serve_sublist.nodup hn) hno.2, List.erase_of_not_mem ha, hserve]
  · rw [hserve, load_append, hd]
    omega
  · rw [hrest, hq]

/-- The release first, and the entry is granted: it gives everything back, and the others go
on from there. -/
theorem Served.returns (hn : line.Nodup) (hx : Served kind s h held line s₁ h₁)
    (ha : a ∈ (kind.policy s.opcode).serve held line)
    (hy : Served kind s₁ h₁ (data s₁.word - (s₁.opcode a).acquiredCount) (view h₁).queue.reverse
      s₂ h₂) : ∃ g, ServedBut kind a s h held line g s₂ h₂ := by
  obtain ⟨hserve, hrest⟩ := serve_erase_of_served ha
  obtain ⟨hgr, hd, hq, -⟩ := hy
  have hheld : data s₁.word - (s₁.opcode a).acquiredCount = held +
      (kind.policy s.opcode).load (((kind.policy s.opcode).serve held line).erase a) := by
    have hload := load_erase (P := kind.policy s.opcode) ha
    have hw : (kind.policy s.opcode).weight a = (s₁.opcode a).acquiredCount := by
      rw [hx.opcode]
      rfl
    have hunits := hx.units
    omega
  rw [hheld, hx.opcode, hx.left] at hd hq hgr
  have hno : a ∉ (kind.policy s.opcode).serve held (line.erase a) := not_served_of_erased hn
  refine ⟨_, hx.toGranted.trans hgr, ?_, ?_, ?_⟩
  · rw [hserve, List.mem_append, not_or] at hno
    rw [filter_append_of_not_mem (serve_sublist.nodup hn) hno.2, hserve]
  · rw [hserve, load_append, hd]
    omega
  · rw [hrest, hq]

/-- The release first, and then the drop, whatever has become of the entry. -/
theorem release_then_drop (hk : kind.Grants) (hr : Reach kind free s h) (hq : Quiescent s)
    (hn : ¬Locked s.word) (hd : Droppable s t a act) (ha : a ∈ (view h).queue)
    (hop : op.unit = some opc) (hs : step kind s (.call u op) = some (.call u op, s₀))
    (hcan : opc.CanRelease s.word) :
    ∃ s₁ h₁ s' h' g, Succeeds kind u op s h s₁ h₁ ∧ Dropped kind t a act s₁ h₁ s' h' ∧
      ServedBut kind a s h (data s.word - opc.acquiredCount) (view h).queue.reverse g s' h' := by
  have hi := reach_inv hk.not_barrier hr
  have hnd : (view h).queue.reverse.Nodup := List.nodup_reverse.mpr hi.glob.chain.nodup
  have hu := call_idle hs
  obtain ⟨s₁, h₁, hend, hr₁, hq₁, hsl, hothers, hserved⟩ := release_call hk hr hq hop hs hcan hn
  have hd₁ : Droppable s₁ t a act := hd.later hsl hothers hu hend.idle
  by_cases hin : a ∈ (kind.policy s.opcode).serve (data s.word - opc.acquiredCount)
      (view h).queue.reverse
  · have hfit : (s.opcode a).Fits kind := by
      apply hi.glob.opcodes
      rw [(hi.glob.queued a).mp ha]
      simp
    have hcan₁ : (s₁.opcode a).CanRelease s₁.word := by
      rw [hserved.opcode]
      exact granted_canRelease hin hfit hserved.units
    obtain ⟨s', h', hdrop, -, -, -, hserved'⟩ :=
      drop_granted hk hr₁ hq₁ hserved.unlocked hd₁ (hserved.result a hin) hcan₁
    obtain ⟨g, hbut⟩ := hserved.returns hnd hin hserved'
    exact ⟨s₁, h₁, s', h', g, hend, hdrop, hbut⟩
  · have hwaits : a ∈ (view h₁).queue := by
      have hm : a ∈ (view h).queue.reverse := List.mem_reverse.mpr ha
      rw [← serve_rest (P := kind.policy s.opcode) (m := data s.word - opc.acquiredCount)
        (l := (view h).queue.reverse)] at hm
      rw [← List.mem_reverse, hserved.left]
      exact (List.mem_append.mp hm).resolve_left hin
    obtain ⟨s', h', hdrop, -, -, -, hserved'⟩ :=
      drop_waiting hk hr₁ hq₁ hserved.unlocked hd₁ hwaits
    obtain ⟨g, hbut⟩ := hserved.leaves hnd hin hserved'
    exact ⟨s₁, h₁, s', h', g, hend, hdrop, hbut⟩

/-- Both runs go on from history `h`. They end with the same data field and the same queue,
they have granted the same entries other than `a`, in the same order, and the entries other
than `a` have heard the same. -/
def AgreeBut (a : Ptr) (h : List Event) (s₁ : Cfg) (h₁ : List Event) (s₂ : Cfg)
    (h₂ : List Event) : Prop :=
  data s₁.word = data s₂.word ∧ (view h₁).queue = (view h₂).queue ∧
    (∃ g₁ g₂, grants h₁ = grants h ++ g₁ ∧ grants h₂ = grants h ++ g₂ ∧
      g₁.filter (· ≠ a) = g₂.filter (· ≠ a)) ∧
    ∀ b, b ≠ a → s₁.state b = s₂.state b

theorem ServedBut.agree {g : List Ptr} (hn : line.Nodup)
    (hx : Served kind s h held (line.erase a) s₁ h₁)
    (hy : ServedBut kind a s h held line g s₂ h₂) : AgreeBut a h s₁ h₁ s₂ h₂ := by
  have hno : a ∉ (kind.policy s.opcode).serve held (line.erase a) := not_served_of_erased hn
  have hsame : ((kind.policy s.opcode).serve held (line.erase a)).filter (· ≠ a) =
      g.filter (· ≠ a) := by
    rw [hy.same]
    simpa using filter_append_of_not_mem List.nodup_nil hno
  refine ⟨hx.units.trans hy.units.symm, ?_, ⟨_, _, hx.granted, hy.granted, hsame⟩, ?_⟩
  · rw [← List.reverse_inj, hx.left, hy.left]
  · intro b hb
    apply hx.toGranted.state_agree hy.toGranted
    rw [← hy.same, List.mem_filter]
    simp [hb]

/-- Cancelling before or after a release makes no difference. Take any state of a lock that is
not poisoned, or of a semaphore, that a run reaches and in which no thread is in the middle of
an operation. Let an entry wait in the queue that its owner may drop, and let a release call
of some thread, alone, return `true` there. Then the drop followed by the release, and the
release followed by the drop, run to completion; both releases return `true`, and the two
orders end with the same data field, the same queue and the same other entries granted. -/
theorem drop_release_commute (hk : kind.Grants) (hr : Reach kind free s h) (hq : Quiescent s)
    (hw : kind = .lock → s.word ≠ POISONED_STATE) (ha : a ∈ (view h).queue)
    (hd : step kind s act = some (.call t (.drop a), s₀)) (hop : op.unit = some opc)
    (hx : Succeeds kind u op s h s₂ h₂) :
    ∃ s₁ h₁ s₁₂ h₁₂ s₂₁ h₂₁, Dropped kind t a act s h s₁ h₁ ∧
      Succeeds kind u op s₁ h₁ s₁₂ h₁₂ ∧ Dropped kind t a act s₂ h₂ s₂₁ h₂₁ ∧
      AgreeBut a h s₁₂ h₁₂ s₂₁ h₂₁ := by
  have hi := reach_inv hk.not_barrier hr
  have hn := hq.unlocked hi hw
  have hdrop := (took hi (reach_inv hk.not_barrier (.step hr trivial hd)) hd).droppable hk
  have hcan := hx.canRelease hk hr hop
  obtain ⟨⟨s₃, hs, hsolo⟩, hidle, -, -⟩ := hx
  obtain ⟨s₁, h₁, s₁₂, h₁₂, hd₁, hr₁, hserved⟩ :=
    drop_then_release hk hr hq hn hdrop ha hop hs hcan
  obtain ⟨s₂', h₂', s₂₁, h₂₁, g, ⟨⟨s₃', hs', hsolo'⟩, hidle', -, -⟩, hd₂, hbut⟩ :=
    release_then_drop hk hr hq hn hdrop ha hop hs hcan
  rw [hs] at hs'
  cases hs'
  obtain ⟨rfl, rfl⟩ := solo_ends_once hsolo hidle hsolo' hidle'
  exact ⟨s₁, h₁, s₁₂, h₁₂, s₂₁, h₂₁, hd₁, hr₁, hd₂,
    hbut.agree (List.nodup_reverse.mpr hi.glob.chain.nodup) hserved⟩

end
end

/-- The older of the two pagers is dropped, and the permit is given back. -/
theorem drop_release_commute_pagers :
    ∃ s h s₁ h₁ s₁₂ h₁₂ s₂ h₂ s₂₁ h₂₁,
      exec (system (.semaphore 1)) (Kind.initial (.semaphore 1)) [] twoPagers = some (s, h) ∧
      (view h).queue = [384, 256] ∧
      Dropped (.semaphore 1) 1 256 (.call 1 (.drop 256)) s h s₁ h₁ ∧
      Succeeds (.semaphore 1) 0 .release s₁ h₁ s₁₂ h₁₂ ∧
      Succeeds (.semaphore 1) 0 .release s h s₂ h₂ ∧
      Dropped (.semaphore 1) 1 256 (.call 1 (.drop 256)) s₂ h₂ s₂₁ h₂₁ ∧
      AgreeBut 256 h s₁₂ h₁₂ s₂₁ h₂₁ := by
  have hk : (Kind.semaphore 1).Grants := .inr ⟨1, rfl⟩
  obtain ⟨s, h, s₀, s₃, hrun, hqueue, hidle, hdrop, hcall, hcan, hn⟩ : ∃ s h s₀ s₃,
      exec (system (.semaphore 1)) (Kind.initial (.semaphore 1)) [] twoPagers = some (s, h) ∧
      (view h).queue = [384, 256] ∧ (∀ t < 3, s.pc t = .idle) ∧
      step (.semaphore 1) s (.call 1 (.drop 256)) = some (.call 1 (.drop 256), s₀) ∧
      step (.semaphore 1) s (.call 0 .release) = some (.call 0 .release, s₃) ∧
      Opcode.CanRelease (.semaphore 1) s.word ∧ ¬Locked s.word :=
    ⟨_, _, _, _, rfl, rfl, by decide, rfl, rfl, by decide, by decide⟩
  have hr : Reach (.semaphore 1) free s h := Run.exec .init (admits_free ..) hrun
  have hq := exec_quiescent hk hrun (by decide) hidle
  obtain ⟨s₂, h₂, hend, -⟩ := release_call hk hr hq rfl hcall hcan hn
  obtain ⟨s₁, h₁, s₁₂, h₁₂, s₂₁, h₂₁, hd₁, hr₁, hd₂, hagree⟩ :=
    drop_release_commute hk hr hq (by simp) (by rw [hqueue]; simp) hdrop rfl hend
  exact ⟨s, h, s₁, h₁, s₁₂, h₁₂, s₂, h₂, s₂₁, h₂₁, hrun, hqueue, hd₁, hr₁, hend, hd₂, hagree⟩

end Saa
