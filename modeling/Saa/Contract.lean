import Saa.Assertions
import Saa.Pager
import Saa.Permits

/-! # What owners can rely on

`release_lock`, `release_share`, `poison_lock`, `release` and `release_many` return `false` when
the word does not admit them, and most callers, the `unlock` functions of `lock_api` among
them, throw the answer away. It is `true` for everybody who gives back what is theirs. And who
is told to own something does. -/
namespace Saa

open Word Lib.Linked Lib.Trace

/-- What a call is about to give back. -/
def Pc.gives : Pc → Option Opcode
  | .releaseFast op | .releaseLoop (.caller _) op _ => some op
  | .poisonFast | .poisonLoop _ => some .exclusive
  | _ => none

/-- The word that such a call goes by. -/
def Pc.goesBy : Pc → Option ℕ
  | .releaseLoop (.caller _) _ state | .poisonLoop state => some state
  | _ => none

/-- `Lock::to_result`; nothing where its assertion fails. -/
def lockResult (value : ℕ) (pagerError : Option Pager.Error) : Option (Except Pager.Error Bool) :=
  match pagerError with
  | some error => some (.error error)
  | none => if value = ACQUIRED ∨ value = POISONED then some (.ok (value = ACQUIRED)) else none

/-- `Semaphore::to_result`. -/
def semaphoreResult (_ : ℕ) (pagerError : Option Pager.Error) : Except Pager.Error Unit :=
  match pagerError with
  | some error => .error error
  | none => .ok ()

/-- `Barrier::to_result`. -/
def barrierResult (result : ℕ) (pagerError : Option Pager.Error) : Except Pager.Error Bool :=
  match pagerError with
  | some error => .error error
  | none => .ok (result = 1)

/-- The `to_result` of the primitive makes a result of the code: one of those that its callers
are told. -/
def Kind.Decodes : Kind → ℕ → Prop
  | .lock, r => lockResult r none = some (.ok true) ∨ lockResult r none = some (.ok false)
  | .semaphore _, r => semaphoreResult r none = .ok ()
  | .gate, r => ∀ x, toResult r = .error x → x = .rejected ∨ x = .sealed ∨ x = .spuriousFailure
  | .barrier _, r => barrierResult r none = .ok (r = 1)

section
variable {kind : Kind} {ok : Guard Cfg Action Event} {s s' : Cfg} {v : View} {h : List Event}
  {t u : Tid} {a : Ptr} {act : Action} {e : Event} {op : Opcode} {w r n : ℕ} {l : Ledger}

theorem Took.goesBy (ht : Took kind s v t act e s') (hw : (s'.pc t).goesBy = some w) :
    act = .run t ∧ w = s.word ∧ (s.pc t).gives = (s'.pc t).gives := by
  have hmv := ht.move
  generalize s.pc t = p at hmv
  generalize s'.pc t = p' at hmv hw
  cases hmv with
  | slow | poisonSlow | poisonReload => exact ⟨rfl, (Option.some.inj hw).symm, rfl⟩
  | @reRelease o =>
    cases o with
    | caller x => exact ⟨rfl, (Option.some.inj hw).symm, rfl⟩
    | entry a => cases hw
  | gate _ hg => cases hg <;> cases hw
  | enter hen =>
    cases hen with
    | gate _ hc => cases hc <;> cases hw
    | _ => cases hw
  | drop | cancel => cases kind <;> cases hw
  | @unreleased o | @release o => cases o <;> cases hw
  | @leave _ _ k => cases k <;> cases hw
  | _ => cases hw

theorem refused_goesBy (hp : (s.pc t).gives = some op)
    (hs : step kind s (.run t) = some (.refuse u r, s')) :
    ∃ w, (s.pc t).goesBy = some w ∧ ¬op.CanRelease w := by
  simp only [step, runStep] at hs
  cases hpc : s.pc t with
  | releaseFast opc =>
    rw [hpc] at hs
    cases opc <;> simp only [releaseFast] at hs <;> (try split at hs) <;> cases hs
  | releaseLoop o opc state =>
    rw [hpc] at hs hp
    cases o with
    | entry a => cases hp
    | caller x =>
      obtain rfl : opc = op := Option.some.inj hp
      refine ⟨state, rfl, ?_⟩
      simp only [releaseLoop] at hs
      split at hs
      · assumption
      split at hs
      · cases hs
      split at hs <;> cases hs
  | poisonFast =>
    rw [hpc] at hs
    simp only [poisonFast] at hs
    split at hs <;> cases hs
  | poisonLoop state =>
    rw [hpc] at hs hp
    obtain rfl : Opcode.exclusive = op := Option.some.inj hp
    refine ⟨state, rfl, ?_⟩
    simp only [poisonLockInternal] at hs
    split at hs
    · next hno =>
      rcases hno with rfl | hd
      · decide
      · exact hd
    split at hs
    · cases hs
    split at hs <;> cases hs
  | _ =>
    rw [hpc] at hp
    cases hp

/-- Nobody is refused who only takes steps that the word admits. -/
theorem never_refused (hk : kind.Grants)
    (hcan : ∀ {s h t op}, Reach kind ok s h → ok s h (.run t) → (s.pc t).gives = some op →
      op.CanRelease s.word) (hr : Reach kind ok s h) (hp : (s.pc t).gives = some op)
    (hs : step kind s (.run t) = some (e, s')) : e ≠ .refuse u r := by
  have hall : ∀ t op w, (s.pc t).gives = some op → (s.pc t).goesBy = some w →
      op.CanRelease w := by
    refine hr.invariant (P := fun s _ => ∀ t op w, (s.pc t).gives = some op →
      (s.pc t).goesBy = some w → op.CanRelease w) (fun t op w hp => by cases hp) ?_
    intro s h act e s' hr ih hok hs t op w hp hw
    have ht := took (reach_inv hk.not_barrier hr) (reach_inv hk.not_barrier (.step hr hok hs)) hs
    by_cases hta : t = act.actor
    · subst hta
      obtain ⟨hact, rfl, hg⟩ := ht.goesBy hw
      rw [hact] at hok
      exact hcan hr hok (hg.trans hp)
    · rw [ht.frame.pc t hta] at hp hw
      exact ih t op w hp hw
  rintro rfl
  obtain ⟨w, hw, hno⟩ := refused_goesBy hp hs
  exact hno (hall t op w hp hw)

theorem Books.can_release (hb : Books s l) (ha : Accounts .lock s l) (ht : (t, op) ∈ l.callers) :
    op.CanRelease s.word := by
  have hown : op ∈ l.owned := List.mem_append_left _ (List.mem_map.mpr ⟨_, ht, rfl⟩)
  have hpos : 0 < l.owners op := List.count_pos_iff.mpr hown
  obtain ⟨h₁, h₂, -⟩ := hb.owners ha
  rcases hb.kinds _ ht with hop | hop <;> dsimp only at hop <;> subst hop
  · by_contra hd
    have := (h₂ hd).1
    omega
  · have hne : data s.word ≠ DATA_MASK := fun hd => by
      have := (h₁.mp hd).2
      omega
    refine ⟨?_, hne⟩
    rw [(h₂ hne).2]
    exact hpos

theorem Claims.gives (hc : Claims l t (s.pc t)) (hp : (s.pc t).gives = some op) :
    (t, op) ∈ l.callers := by
  cases hpc : s.pc t with
  | releaseFast opc =>
    rw [hpc] at hc hp
    obtain rfl : opc = op := Option.some.inj hp
    exact hc
  | releaseLoop o opc state =>
    rw [hpc] at hc hp
    cases o with
    | entry a => cases hp
    | caller x =>
      obtain rfl : opc = op := Option.some.inj hp
      exact hc.2
  | poisonFast | poisonLoop =>
    rw [hpc] at hc hp
    obtain rfl : Opcode.exclusive = op := Option.some.inj hp
    exact hc
  | _ =>
    rw [hpc] at hp
    cases hp

theorem Took.gives (ht : Took kind s v t act e s') (hp : (s'.pc t).gives = some op) :
    (s.pc t).gives = some op ∨ ∃ o, Entrance kind o (s'.pc t) := by
  have hmv := ht.move
  generalize s.pc t = p at hmv
  generalize s'.pc t = p' at hmv hp
  cases hmv with
  | slow | poisonSlow | poisonReload => exact .inl hp
  | @reRelease o =>
    cases o with
    | caller x => exact .inl hp
    | entry a => cases hp
  | gate _ hg => cases hg <;> cases hp
  | enter hen => exact .inr ⟨_, hen⟩
  | drop | cancel => cases kind <;> cases hp
  | @unreleased o | @release o => cases o <;> cases hp
  | @leave _ _ k => cases k <;> cases hp
  | _ => cases hp

theorem reach_gives (hr : Reach (.semaphore n) ok s h) :
    ∀ t op, (s.pc t).gives = some op → ∃ c, op = .semaphore c := by
  refine hr.invariant (P := fun s _ => ∀ t op, (s.pc t).gives = some op →
    ∃ c, op = .semaphore c) (fun t op hp => by cases hp) ?_
  intro s h act e s' hr ih hok hs t op hp
  have ht := took (reach_inv (by simp) hr) (reach_inv (by simp) (.step hr hok hs)) hs
  by_cases hta : t = act.actor
  · subst hta
    rcases ht.gives hp with hp | ⟨o, hen⟩
    · exact ih _ op hp
    · generalize s'.pc act.actor = p at hp hen
      cases hen with
      | release | releaseMany => exact ⟨_, (Option.some.inj hp).symm⟩
      | gate hg => cases hg
      | releaseLock hx | releaseShare hx | poisonLock hx | clearPoison hx => cases hx
  · rw [ht.frame.pc t hta] at hp
    exact ih t op hp

theorem Budget.can_release {c : ℕ} (hb : Budget n s (permits h)) (hok : Accounted n s h (.run t))
    (hp : (s.pc t).gives = some (.semaphore c)) : (Opcode.semaphore c).CanRelease s.word := by
  have hsum := hb.sum
  have hle : (permits h).released + c ≤ withheld n + (permits h).acquired := by
    cases hpc : s.pc t with
    | releaseFast op =>
      rw [hpc] at hp
      obtain rfl : op = .semaphore c := Option.some.inj hp
      simpa only [Accounted, hpc, Opcode.acquiredCount] using hok
    | releaseLoop o op state =>
      rw [hpc] at hp
      cases o with
      | entry a => cases hp
      | caller x =>
        obtain rfl : op = .semaphore c := Option.some.inj hp
        simpa only [Accounted, hpc, Opcode.acquiredCount] using hok
    | _ =>
      rw [hpc] at hp
      cases hp
  change c ≤ data s.word
  omega

/-- Owners are never refused. In every run of a lock whose callers release and poison only what
they own, and in which no drop of an entry that was told `POISONED` releases what somebody else
acquired, no call of `release_lock`, `release_share` or `poison_lock` returns `false`. In every
run of a semaphore whose callers release only permits that callers acquired or that were withheld
at the start, no call of `release` or `release_many` does. So it is whatever the others do
meanwhile and however old the word is that the call goes by. -/
theorem owners_never_refused {u : Tid} {r : ℕ} :
    (∀ s h t op e s', Reach .lock Disciplined s h → (s.pc t).gives = some op →
      step .lock s (.run t) = some (e, s') → e ≠ .refuse u r) ∧
    ∀ n s h t op e s', Reach (.semaphore n) (Accounted n) s h → (s.pc t).gives = some op →
      step (.semaphore n) s (.run t) = some (e, s') → e ≠ .refuse u r := by
  constructor
  · intro s h t op e s' hr hp hs
    refine never_refused (.inl rfl) ?_ hr hp hs
    intro s h t op hr _ hp
    obtain ⟨ha, hb⟩ := reach_books hr
    exact hb.can_release ha ((hb.claims t).gives hp)
  · intro n s h t op e s' hr hp hs
    refine never_refused (.inr ⟨n, rfl⟩) ?_ hr hp hs
    intro s h t op hr hok hp
    obtain ⟨c, rfl⟩ := reach_gives hr t op hp
    exact (reach_budget hr).2.can_release hok hp

theorem Kind.Codes.lt (hc : kind.Codes r) : r < Pager.ERROR_WRONG_MODE := by
  have he : Pager.ERROR_WRONG_MODE = 255 := by decide
  cases kind <;> simp only [Kind.Codes, ACQUIRED, POISONED] at hc <;> omega

theorem Kind.Codes.decodes (hc : kind.Codes r) : kind.Decodes r := by
  cases kind with
  | lock => rcases hc with rfl | rfl <;> simp [Kind.Decodes, lockResult, ACQUIRED, POISONED]
  | semaphore n => rfl
  | barrier n => rfl
  | gate =>
    intro x hx
    have herr : ∀ r < 16, r &&& (2 ^ 8 - 1 - STATE_MASK) = 0 ∨ r &&& (2 ^ 8 - 1 - STATE_MASK) = 4 ∨
        r &&& (2 ^ 8 - 1 - STATE_MASK) = 8 ∨ r &&& (2 ^ 8 - 1 - STATE_MASK) = 12 := by decide
    unfold toResult at hx
    rcases herr r hc with hz | hz | hz | hz <;> rw [hz] at hx <;> cases hx <;> decide

theorem Coded.told (hc : Coded kind s v) (ht : Took kind s v t act e s')
    (he : e = .setResult u a r ∨ e = .consume u a r) : kind.Codes r := by
  rcases he with rfl | rfl
  · exact ht.stores (hc.carried t)
  have hmv := ht.move
  generalize s.pc t = p at hmv
  generalize s'.pc t = p' at hmv
  cases hmv with
  | poll _ hst | consume hst => exact hc.stored _ (.inl hst)
  | gate _ hg =>
    cases hg with
    | consumed hst | acknowledged hst => exact hc.stored _ (.inl hst)

/-- Results are never taken for something else. In every run of a lock, a semaphore or a gate,
and in every run of a barrier in which the last arriver does not meet the flag, each code that
is stored in an entry or taken from one is told from the code for a poll in the wrong mode, and
`to_result` makes of it what the primitive says to its callers: at a gate, a state or one of the
errors of its commands. -/
theorem results_decode (he : e = .setResult u a r ∨ e = .consume u a r) :
    (∀ kind s h act s', (∀ n, kind ≠ .barrier n) → Reach kind free s h →
      step kind s act = some (e, s') →
      (∀ waited, Pager.toResult r waited = .ok r) ∧ kind.Decodes r) ∧
    ∀ n s h act s', Reach (.barrier n) Polite s h → Polite s h act →
      step (.barrier n) s act = some (e, s') →
      (∀ waited, Pager.toResult r waited = .ok r) ∧ (Kind.barrier n).Decodes r := by
  have hok : ∀ kind : Kind, kind.Codes r →
      (∀ waited, Pager.toResult r waited = .ok r) ∧ kind.Decodes r := by
    intro kind hc
    have hne := hc.lt.ne
    exact ⟨fun waited => by simp [Pager.toResult, hne], hc.decodes⟩
  constructor
  · intro kind s h act s' hb hr hs
    have ht := took (reach_inv hb hr) (reach_inv hb (.step hr trivial hs)) hs
    exact hok kind ((reach_coded hb hr).told ht he)
  · intro n s h act s' hr hp hs
    have ht := took (reach_barrier hr).1 (reach_barrier (.step hr hp hs)).1 hs
    exact hok _ ((reach_retrying hr).1.told ht he)

theorem Accounts.told (ha : Accounts kind s (ledger h)) (hk : kind.Grants)
    (hs : step kind s act = some (.consume t a r, s')) :
    (r = ACQUIRED ∨ kind = .lock ∧ r = POISONED) ∧
      (a ∈ (ledger h).granted ↔ r = ACQUIRED ∧ ((ledger h).ops a).Acquires) := by
  have hi : Inv kind s (ledger h).view := ha.inv
  have hi' := step_inv hi (hi.not_intrudes hk.not_barrier)
    (fun t q c hp => absurd hp (hi.no_writeBack hk.not_barrier)) hs
  have ht := took hi hi' hs
  generalize act.actor = x at ht
  have hset : (ledger h).view.stat a = .final → s.slot a = .pager ∨ s.slot a = .used x →
      (s.pc x).after = none → (s.state a).result = r →
      (r = ACQUIRED ∨ kind = .lock ∧ r = POISONED) ∧
        (a ∈ (ledger h).granted ↔ r = ACQUIRED ∧ ((ledger h).ops a).Acquires) := by
    rintro hst hsl haft rfl
    rw [ha.credit.ops a (by rw [hst]; simp)]
    exact ha.credit.answer a (.inl hst) (hi.not_spent hsl (by rw [haft]; simp))
  have hl := hi.loc x
  have hmv := ht.move
  generalize s.pc x = p at hmv hl hset
  generalize s'.pc x = p' at hmv
  cases hmv with
  | gate hg => exact absurd hg hk.not_gate
  | poll hsl hst => exact hset hst (.inl hsl) rfl rfl
  | consume hst =>
    refine hset hst (.inr ((hl.slot _).mp (if_neg ?_))) rfl rfl
    rcases hl.fits.1 with hv | hv <;> rw [hv] <;> simp

/-- Who is told to own something does, and nobody else. In every run of a lock whose callers
release and poison only what they own, and in which no drop of an entry that was told `POISONED`
releases what somebody else acquired, a waiter or a pager that takes its result is told `true` or
`false`, and the count it asked for is in the word under its name exactly when it is told `true`
and asked for one. In every run of a semaphore whose callers release only permits that callers
acquired or that were withheld at the start, where everybody is told to have them, everybody who
asked for permits has them. -/
theorem answers_own :
    (∀ s h act t r s', Reach .lock Disciplined s h →
      step .lock s act = some (.consume t a r, s') →
      (lockResult r none = some (.ok true) ∨ lockResult r none = some (.ok false)) ∧
      (a ∈ (ledger h).granted ↔
        lockResult r none = some (.ok true) ∧ ((ledger h).ops a).Acquires)) ∧
    ∀ n s h act t r s', Reach (.semaphore n) (Accounted n) s h →
      step (.semaphore n) s act = some (.consume t a r, s') →
      semaphoreResult r none = .ok () ∧
      (a ∈ (ledger h).granted ↔ ((ledger h).ops a).Acquires) := by
  constructor
  · intro s h act t r s' hr hs
    obtain ⟨hcode, hiff⟩ := (reach_books hr).1.told (.inl rfl) hs
    rw [hiff]
    rcases hcode with rfl | ⟨-, rfl⟩ <;> simp [lockResult, ACQUIRED, POISONED]
  · intro n s h act t r s' hr hs
    obtain ⟨hcode, hiff⟩ := (reach_budget hr).1.told (.inr ⟨n, rfl⟩) hs
    refine ⟨rfl, hiff.trans (and_iff_right ?_)⟩
    rcases hcode with hacq | ⟨hx, -⟩
    · exact hacq
    · cases hx

end

/-- A thread gives its share of a lock back, and two pagers wait for that. The second one
queues when the thread has just read the word. -/
def overtaken : List Action :=
  [.call 0 (.acquire ⟨.lock .shared, .tryOnly, 0⟩), .run 0, .run 0,
    .call 1 (.acquire ⟨.lock .waitExclusive, .pager, 256⟩), .run 1, .run 1, .run 1, .run 1,
    .call 0 .releaseShare, .run 0,
    .call 1 (.acquire ⟨.lock .waitExclusive, .pager, 384⟩), .run 1, .run 1, .run 1, .run 1]

theorem owners_never_refused_overtaken :
    ∃ s h e s', execIf (system .lock) Disciplined Kind.lock.initial [] overtaken = some (s, h) ∧
      (view h).queue = [384, 256] ∧ (s.pc 0).gives = some .shared ∧
      step .lock s (.run 0) = some (e, s') ∧ e ≠ .refuse 0 0 := by
  obtain ⟨s, h, hrun, hqueue, hp, hstep⟩ : ∃ s h,
      execIf (system .lock) Disciplined Kind.lock.initial [] overtaken = some (s, h) ∧
      (view h).queue = [384, 256] ∧ (s.pc 0).gives = some .shared ∧
      (step .lock s (.run 0)).isSome := ⟨_, _, rfl, rfl, rfl, rfl⟩
  obtain ⟨⟨e, s'⟩, hs⟩ := Option.isSome_iff_exists.mp hstep
  exact ⟨s, h, e, s', hrun, hqueue, hp, hs,
    owners_never_refused.1 s h 0 .shared e s' (Run.execIf .init hrun) hp hs⟩

/-- A thread stores the result of the entry to which it has handed its permit over. -/
theorem results_decode_handover :
    ∃ s h s', exec (system (.semaphore 1)) (Kind.initial (.semaphore 1)) [] handover = some (s, h) ∧
      step (.semaphore 1) s (.run 0) = some (.setResult 0 256 0, s') ∧
      (∀ waited, Pager.toResult 0 waited = .ok 0) ∧ (Kind.semaphore 1).Decodes 0 := by
  obtain ⟨s, h, s', hrun, hs⟩ : ∃ s h s', exec (system (.semaphore 1))
        (Kind.initial (.semaphore 1)) [] handover = some (s, h) ∧
      step (.semaphore 1) s (.run 0) = some (.setResult 0 256 0, s') := ⟨_, _, _, rfl, rfl⟩
  exact ⟨s, h, s', hrun, hs,
    (results_decode (.inl rfl)).1 _ s h _ s' (by simp) (Run.exec .init (admits_free ..) hrun) hs⟩

/-- A pager takes the permit that was handed over to it. -/
theorem answers_own_abandoned :
    ∃ s h s', execIf (system (.semaphore 1)) (Accounted 1) (Kind.initial (.semaphore 1)) []
        (abandoned.take 17) = some (s, h) ∧
      step (.semaphore 1) s (.call 2 (.poll 256)) = some (.consume 2 256 0, s') ∧
      256 ∈ (ledger h).granted := by
  obtain ⟨s, h, s', hrun, hops, hs⟩ : ∃ s h s', execIf (system (.semaphore 1)) (Accounted 1)
        (Kind.initial (.semaphore 1)) [] (abandoned.take 17) = some (s, h) ∧
      (ledger h).ops 256 = .semaphore 1 ∧
      step (.semaphore 1) s (.call 2 (.poll 256)) = some (.consume 2 256 0, s') :=
    ⟨_, _, _, rfl, rfl, rfl⟩
  refine ⟨s, h, s', hrun, hs, ?_⟩
  rw [(answers_own.2 1 s h _ 2 0 s' (Run.execIf .init hrun) hs).2, hops]
  decide

end Saa
