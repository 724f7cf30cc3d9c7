import Saa.Owners
import Saa.WaitModes

/-! # The adapters of `lock_api`

The traits of `lock_api` have no room for a failure: their blocking calls return nothing,
and the asynchronous functions build a guard without a check. The adapters call the lock
and drop the `bool` it returns. -/
namespace Saa

open Word Lib.Linked Lib.Trace

/-- `RawMutex::lock`, `RawRwLock::lock_exclusive` and `RawRwLock::lock_shared`, and the
functions `lock_async`, `write_async` and `read_async`. -/
inductive Adapter where
  | lock | lockExclusive | lockShared | lockAsync | writeAsync | readAsync
  deriving DecidableEq, Repr

/-- What the caller may assume to own afterwards. -/
def Adapter.mode : Adapter → Mode
  | .lock | .lockExclusive | .lockAsync | .writeAsync => .exclusive
  | .lockShared | .readAsync => .shared

/-- `lock_sync` and `share_sync`, or `lock_async` and `share_async`. -/
def Adapter.via : Adapter → Via
  | .lock | .lockExclusive | .lockShared => .sync
  | .lockAsync | .writeAsync | .readAsync => .async

/-- The call of the lock whose result the adapter drops. -/
def Adapter.req (f : Adapter) (a : Ptr) : Req := ⟨.lock f.mode, f.via, a⟩

/-- The caller owns the lock in the mode, and the word says so. -/
def Mode.Owner (m : Mode) (t : Tid) (s : Cfg) (l : Ledger) : Prop :=
  (t, m.opcode) ∈ l.callers ∧
    if m = .exclusive then
      data s.word = DATA_MASK ∧ l.owners .exclusive = 1 ∧ l.owners .shared = 0
    else data s.word = l.owners .shared ∧ l.owners .exclusive = 0

instance (m : Mode) (t : Tid) (s : Cfg) (l : Ledger) : Decidable (m.Owner t s l) :=
  inferInstanceAs (Decidable (_ ∧ _))

/-- The call decides on a word that was the poisoned one when it was read. -/
def Pc.SawPoison : Pc → Prop
  | .attempt _ state _ => state = POISONED_STATE
  | _ => False

instance (p : Pc) : Decidable p.SawPoison := by
  unfold Pc.SawPoison
  split <;> infer_instance

/-- The call has read the poisoned word, or its entry was queued when a `poison_lock` took
effect. -/
def MetPoison (s : Cfg) (h : List Event) (t : Tid) (a : Ptr) : Prop :=
  (s.pc t).SawPoison ∨ (bound h).code a = some POISONED

instance (s : Cfg) (h : List Event) (t : Tid) (a : Ptr) : Decidable (MetPoison s h t a) :=
  inferInstanceAs (Decidable (_ ∨ _))

/-- A call that has to queue gives its entry the operation it wants, and only pagers store
a result on their own. -/
def Asked (s : Cfg) : Pc → Prop
  | .push q _ | .pushed q _ | .await q _ => q.via ≠ .pager → s.opcode q.entry = q.goal.opcode
  | .settle q _ | .settled q => q.via = .pager
  | _ => True

/-- What a call knows about its answer on the way: a caller that meets a poisoning owns
nothing, and an entry that waits in the queue is answered through its binding. -/
def Told (s : Cfg) (h : List Event) (t : Tid) : Pc → Prop
  | .attempt _ state _ => state = POISONED_STATE → ∀ op, (t, op) ∉ (ledger h).callers
  | .pushed q _ | .await q _ => q.via ≠ .pager →
      (∀ r, Gets s (view h) q.entry r → (bound h).code q.entry = some r) ∧
      ((bound h).code q.entry = some POISONED → ∀ op, (t, op) ∉ (ledger h).callers)
  | _ => True

section
variable {s s' : Cfg} {v : View} {hist : List Event} {l : Ledger} {t u : Tid} {q : Req} {a : Ptr}
  {r r' : ℕ} {act : Action} {e : Event} {f : Adapter} {op : Opcode}

theorem Gets.unique {kind : Kind} (hi : Inv kind s v) (h₁ : Gets s v a r) (h₂ : Gets s v a r') :
    r = r' := by
  have hsettle : ∀ x q c, s.pc x = .settle q c → q.entry = a → v.stat a = .idle := by
    rintro x q c hp rfl
    exact (hi.settling hp).1
  rcases h₁ with ⟨x, hst, hv⟩ | ⟨x, q, hp, hq⟩ | ⟨hres, hr⟩ <;>
    rcases h₂ with ⟨y, hst', hv'⟩ | ⟨y, q', hp', hq'⟩ | ⟨hres', hr'⟩
  · rw [hst] at hst'
    cases hst'
    rw [hv] at hv'
    exact Option.some.inj hv'
  · rw [hsettle y q' r' hp' hq'] at hst
    cases hst
  · rcases hres' with hx | ⟨z, hx⟩ <;> rw [hst] at hx <;> cases hx
  · rw [hsettle x q r hp hq] at hst'
    cases hst'
  · have h₁ := (hi.settling hp).2.1
    have h₂ := (hi.settling hp').2.1
    rw [hq] at h₁
    rw [hq', h₁] at h₂
    cases h₂
    rw [hp] at hp'
    cases hp'
    rfl
  · rcases hres' with hx | ⟨z, hx⟩ <;> rw [hsettle x q r hp hq] at hx <;> cases hx
  · rcases hres with hx | ⟨z, hx⟩ <;> rw [hst'] at hx <;> cases hx
  · rcases hres with hx | ⟨z, hx⟩ <;> rw [hsettle y q' r' hp' hq'] at hx <;> cases hx
  · exact hr.symm.trans hr'

theorem after_asked (k : After) : Asked s k.pc := by
  cases k <;> trivial

theorem blocked_asked (state : ℕ) (hf : q.Fits .lock) :
    Asked (blocked s t q state).2 ((blocked s t q state).2.pc t) := by
  unfold blocked
  split
  · simp [Asked, leave_pc]
  split
  · next hv =>
    rcases hv with hv | hg
    · simp [Asked, hv]
    · simp [Req.Fits, hg] at hf
  · simp [Asked, Cfg.construct]

theorem step_asked (h : Took .lock s v act.actor act e s') (hs : step .lock s act = some (e, s'))
    (hA : ∀ x, Asked s (s.pc x)) (u : Tid) : Asked s' (s'.pc u) := by
  by_cases hu : u = act.actor
  swap
  · have ha := hA u
    have hl := h.inv.loc u
    have hkeep : ∀ b, (s.pc u).entry = some b → s'.opcode b = s.opcode b := fun b hb =>
      h.frame.opcode b u hu ((hl.slot b).mp hb)
    rw [h.frame.pc u hu]
    generalize s.pc u = p at ha hl hkeep
    cases p with
    | push q state =>
      intro hv
      rw [hkeep q.entry (if_neg hl.fits.1)]
      exact ha hv
    | pushed q retry =>
      intro hv
      rw [hkeep q.entry (if_neg hl.fits.1)]
      exact ha hv
    | await q retry =>
      intro hv
      rw [hkeep q.entry (if_neg (by rcases hl.fits.1 with hx | hx <;> rw [hx] <;> simp))]
      exact ha hv
    | settle q r => exact ha
    | settled q => exact ha
    | _ => trivial
  have hk : Kind.Grants .lock := Or.inl rfl
  have ha := hA u
  have hl := h.inv.loc u
  have hmv := h.move
  rw [← hu] at hmv
  generalize hact : act = act' at hmv
  generalize hp : s.pc u = p at hmv ha hl
  generalize hp' : s'.pc u = p' at hmv
  cases hmv with
  | gate hg => cases hg
  | countDown hn => exact absurd hn hk.no_barrier
  | waitOnly hn => exact absurd hn hk.no_barrier
  | arrived hn => exact absurd hn hk.no_barrier
  | take _ hv => exact hv
  | answer _ _ hv =>
    rcases hv with hv | hv
    · exact hv
    · have hf := (hl.reqs _ rfl).1
      simp [Req.Fits, hv] at hf
  | settle => exact ha
  | settledWait hv => exact absurd ha hv
  | @queue q state i hg hatt hv =>
    subst hact
    simp only [step, runStep, hp, Option.some.injEq, attemptStep, hg, hatt, ↓reduceIte] at hs
    split at hs
    · cases hs
      rw [goto_pc_self] at hp'
      cases hp'
    · have hb := blocked_asked (s := s) (t := u) state (hl.reqs q rfl).1
      rw [hs] at hb
      rwa [hp'] at hb
  | @push q =>
    subst hact
    simp only [step, runStep, hp, Option.some.injEq, tryPushWaitQueueEntry, ↓reduceIte] at hs
    cases hs
    exact ha
  | @wait q retry hv =>
    subst hact
    simp only [step, runStep, hp, Option.some.injEq, pushedStep, hv, ↓reduceIte] at hs
    cases hs
    exact ha
  | @pending q retry hfin =>
    subst hact
    simp only [step, runStep, hp, Option.some.injEq, awaitStep, hfin, Bool.false_eq_true,
      ↓reduceIte] at hs
    cases hs
    exact ha
  | drop | cancel => trivial
  | enter hin =>
    cases hin with
    | gate hg => cases hg
    | _ => trivial
  | unreleased | release | leave => exact after_asked _
  | _ => trivial

theorem reach_asked (hr : Reach .lock free s hist) : ∀ u, Asked s (s.pc u) := by
  refine hr.invariant (P := fun s _ => ∀ u, Asked s (s.pc u)) ?_ ?_
  · exact fun u => trivial
  intro s hist act e s' hr ih hok hs
  have hb : ∀ n, Kind.lock ≠ .barrier n := by simp
  exact step_asked (took (reach_inv hb hr) (reach_inv hb (.step hr hok hs)) hs) hs ih

theorem callers_nil {cs : List (Tid × Opcode)} (hk : ∀ c ∈ cs, c.2 = .exclusive ∨ c.2 = .shared)
    (hz : (cs.map fun c => c.2.acquiredCount).sum = 0) : cs = [] := by
  have hm : DATA_MASK = 63 := by decide
  cases cs with
  | nil => rfl
  | cons c cs =>
    simp only [List.map_cons, List.sum_cons] at hz
    rcases hk c (List.mem_cons_self ..) with hc | hc <;> rw [hc] at hz <;>
      simp only [Opcode.acquiredCount] at hz <;> omega

theorem Books.callers_poisoned (hb : Books s l) (hw : s.word = POISONED_STATE) :
    l.callers = [] := by
  apply callers_nil hb.kinds
  have hs := hb.sum
  have hz : data s.word = 0 := by
    rw [hw]
    decide
  unfold Ledger.held at hs
  omega

theorem Books.callers_poison (hb : Books s l) (ht : (t, .exclusive) ∈ l.callers) :
    l.callers.erase (t, .exclusive) = [] := by
  apply callers_nil fun c hc => hb.kinds c (List.mem_of_mem_erase hc)
  have hd := hb.exclusive (Or.inl ⟨t, ht⟩)
  have hs := hb.sum
  have he := held_erase ht
  have hx : (t, Opcode.exclusive).2.acquiredCount = DATA_MASK := rfl
  rw [hx] at he
  omega

theorem Took.callers_new {kind : Kind} (h : Took kind s l.view t act e s') (hk : kind.Grants)
    (hu : u ≠ t) (hm : (u, op) ∈ (l.observe e).callers) : (u, op) ∈ l.callers := by
  have hcons : ∀ op', (u, op) ∈ (t, op') :: l.callers → (u, op) ∈ l.callers := by
    intro op' hm
    rcases List.mem_cons.mp hm with he | hm
    · cases he
      exact absurd rfl hu
    · exact hm
  have hmv := h.move
  generalize s.pc t = p at hmv
  generalize s'.pc t = p' at hmv
  cases hmv with
  | gate hg => exact absurd hg hk.not_gate
  | own | poll | consume =>
    simp only [Ledger.observe, Ledger.record] at hm
    split at hm
    · exact hcons _ hm
    · exact hm
  | fast | poisonFast | poison => exact List.mem_of_mem_erase hm
  | @release o =>
    cases o with
    | caller x => exact List.mem_of_mem_erase hm
    | entry b => exact hm
  | @releasePass o =>
    cases o with
    | caller x => exact List.mem_of_mem_erase hm
    | entry b => exact hm
  | acquire =>
    simp only [Ledger.observe, Ledger.record] at hm
    split at hm <;> exact hm
  | enter hin =>
    cases hin with
    | gate => next hne => exact absurd ‹_› hk.not_gate
    | _ => exact hm
  | _ => exact hm

theorem bound_keep {b : Bound} (hpush : ∀ x o, e ≠ .push x a o) (hcon : ∀ x c, e ≠ .consume x a c)
    (hdrop : ∀ x, e ≠ .dropped x a) (hc : b.code a ≠ none) : (b.observe e).code a ≠ none := by
  have hclear : ∀ d, a ≠ d → Function.update b.code d none a ≠ none := by
    intro d hd
    rwa [Function.update_of_ne hd]
  have hif : ∀ (as : List Ptr) (c : ℕ), (if a ∈ as then some c else b.code a) ≠ none := by
    intro as c
    split
    · simp
    · exact hc
  cases e with
  | push x d o => exact hclear d (by rintro rfl; exact hpush x o rfl)
  | consume x d c => exact hclear d (by rintro rfl; exact hcon x c rfl)
  | dropped x d => exact hclear d (by rintro rfl; exact hdrop x rfl)
  | poison | grant | tailReset => exact hif _ _
  | acquire x o op =>
    cases o with
    | caller y => exact hc
    | entry d =>
      simp only [Bound.observe, Function.update_apply]
      split
      · simp
      · exact hc
  | _ => exact hc

theorem bound_poisoned {b : Bound} (hc : (b.observe e).code a = some POISONED) :
    b.code a = some POISONED ∨ ∃ x, e = .poison x := by
  have hclear : ∀ d, Function.update b.code d none a = some POISONED →
    b.code a = some POISONED := by
    intro d hd
    rw [Function.update_apply] at hd
    split at hd
    · cases hd
    · exact hd
  have hif : ∀ as : List Ptr, (if a ∈ as then some ACQUIRED else b.code a) = some POISONED →
      b.code a = some POISONED := by
    intro as hd
    split at hd
    · cases hd
    · exact hd
  cases e with
  | poison x => exact Or.inr ⟨x, rfl⟩
  | push | consume | dropped => exact Or.inl (hclear _ hc)
  | grant | tailReset => exact Or.inl (hif _ hc)
  | acquire x o op =>
    cases o with
    | caller y => exact Or.inl hc
    | entry d =>
      simp only [Bound.observe, Function.update_apply] at hc
      split at hc
      · cases hc
      · exact Or.inl hc
  | _ => exact Or.inl hc

theorem Took.borrowed {kind : Kind} (h : Took kind s v t act e s') (hk : kind.Grants)
    (hu : u ≠ t) (hsl : s.slot a = .used u) :
    (∀ x o, e ≠ .push x a o) ∧ (∀ x c, e ≠ .consume x a c) ∧ ∀ x, e ≠ .dropped x a := by
  have hne : ∀ b, (s.pc t).entry = some b → a ≠ b := by
    rintro b hb rfl
    have := ((h.inv.loc t).slot a).mp hb
    rw [hsl] at this
    cases this
    exact hu rfl
  have hpager : ∀ b, s.slot b = .pager → a ≠ b := by
    rintro b hb rfl
    rw [hsl] at hb
    cases hb
  have hl := h.inv.loc t
  have hmv := h.move
  generalize s.pc t = p at hmv hne hl
  generalize s'.pc t = p' at hmv
  cases hmv with
  | gate hg => exact absurd hg hk.not_gate
  | @push q =>
    have := hne q.entry (if_neg hl.fits.1)
    simp [this.symm]
  | @consume q =>
    have := hne q.entry (if_neg (by rcases hl.fits.1 with hv | hv <;> rw [hv] <;> simp))
    simp [this.symm]
  | poll hsl' => simp [(hpager _ hsl').symm]
  | dropIdle hsl' => simp [(hpager _ hsl').symm]
  | @finish b => simp [(hne b rfl).symm]
  | enter hin => cases hin <;> simp
  | _ => simp

theorem Took.poison_callers (h : Took .lock s (ledger hist).view t act e s')
    (hb : Books s (ledger hist)) {x : Tid} (he : e = .poison x) :
    (ledger (e :: hist)).callers = [] := by
  have hcl := hb.claims t
  have hmv := h.move
  generalize s.pc t = p at hmv hcl
  generalize s'.pc t = p' at hmv
  subst he
  cases hmv with
  | gate hg => cases hg
  | poisonFast => exact hb.callers_poison hcl
  | poison => exact hb.callers_poison hcl

theorem Took.waits (h : Took .lock s (view hist) t act e s') (hb : Books s (ledger hist))
    (hon : Honours s' (bound (e :: hist)))
    (hev : (∀ x o, e ≠ .push x a o) ∧ (∀ x c, e ≠ .consume x a c) ∧ ∀ x, e ≠ .dropped x a)
    (hset : ∀ q c, s'.pc t = .settle q c → q.entry ≠ a)
    (hown : ∀ op, (u, op) ∈ (ledger (e :: hist)).callers → (u, op) ∈ (ledger hist).callers)
    (hgets : ∀ r, Gets s (view hist) a r → (bound hist).code a = some r)
    (hnone : (bound hist).code a = some POISONED → ∀ op, (u, op) ∉ (ledger hist).callers) :
    (∀ r, Gets s' (view (e :: hist)) a r → (bound (e :: hist)).code a = some r) ∧
    ((bound (e :: hist)).code a = some POISONED →
      ∀ op, (u, op) ∉ (ledger (e :: hist)).callers) := by
  have hb' : Took .lock s (ledger hist).view t act e s' := by rwa [ledger_view]
  constructor
  · intro r hg
    rcases h.gets_new hg with hold | ⟨hm, rfl⟩ | ⟨⟨x, rfl⟩, hm, rfl⟩ | ⟨q, hp, hq⟩
    · have hsome : (bound hist).code a ≠ none := by
        rw [hgets r hold]
        simp
      have hne : (bound (e :: hist)).code a ≠ none :=
        bound_keep hev.1 hev.2.1 hev.2.2 hsome
      obtain ⟨r', hr'⟩ := Option.ne_none_iff_exists'.mp hne
      have hg' := hon a r' hr'
      rw [bound_view] at hg'
      rw [hr', Gets.unique h.inv' hg hg']
    · cases e with
      | grant x tr => simp only [bound_cons, Bound.observe, bound_view, hm, ↓reduceIte]
      | tailReset x => simp only [bound_cons, Bound.observe, bound_view, hm, ↓reduceIte]
      | _ => cases hm
    · simp only [bound_cons, Bound.observe, bound_view, hm, ↓reduceIte]
    · exact absurd hq (hset q r hp)
  · intro hc op hm
    rcases bound_poisoned hc with hc | ⟨x, hx⟩
    · exact hnone hc op (hown op hm)
    · rw [hb'.poison_callers hb hx] at hm
      cases hm

theorem step_told (h : Took .lock s (view hist) t act e s') (hb : Books s (ledger hist))
    (hon : Honours s' (bound (e :: hist))) (hA : ∀ x, Asked s (s.pc x))
    (hT : ∀ x, Told s hist x (s.pc x)) (u : Tid) :
    Told s' (e :: hist) u (s'.pc u) := by
  have hk : Kind.Grants .lock := Or.inl rfl
  have hled : Took .lock s (ledger hist).view t act e s' := by rwa [ledger_view]
  by_cases hu : u = t
  swap
  · have hown : ∀ op, (u, op) ∈ (ledger (e :: hist)).callers → (u, op) ∈ (ledger hist).callers :=
      fun op => hled.callers_new hk hu
    have hwait : ∀ q : Req, (s.pc u).entry = some q.entry →
        (∀ r, Gets s (view hist) q.entry r → (bound hist).code q.entry = some r) ∧
        ((bound hist).code q.entry = some POISONED → ∀ op, (u, op) ∉ (ledger hist).callers) →
        (∀ r, Gets s' (view (e :: hist)) q.entry r → (bound (e :: hist)).code q.entry = some r) ∧
        ((bound (e :: hist)).code q.entry = some POISONED →
          ∀ op, (u, op) ∉ (ledger (e :: hist)).callers) := by
      intro q hq ht
      have hsl := ((h.inv.loc u).slot _).mp hq
      refine h.waits hb hon (h.borrowed hk hu hsl) ?_ hown ht.1 ht.2
      intro q' c hp hq'
      have h₁ := (h.inv'.settling hp).2.1
      have h₂ := ((h.inv'.loc u).slot q.entry).mp (by rw [h.frame.pc u hu]; exact hq)
      rw [hq', h₂] at h₁
      cases h₁
      exact hu rfl
    have ht := hT u
    have hl := h.inv.loc u
    rw [h.frame.pc u hu]
    generalize s.pc u = p at ht hl hwait
    cases p with
    | attempt q state i => exact fun hp op hm => ht hp op (hown op hm)
    | pushed q retry => exact fun hv => hwait q (if_neg hl.fits.1) (ht hv)
    | await q retry =>
      exact fun hv => hwait q (if_neg (by rcases hl.fits.1 with hx | hx <;> rw [hx] <;> simp))
        (ht hv)
    | _ => trivial
  subst hu
  have hafter : ∀ k : After, Told s' (e :: hist) u k.pc := fun k => by cases k <;> trivial
  have hread : (ledger (e :: hist)).callers = (ledger hist).callers → s.word = POISONED_STATE →
      ∀ op, (u, op) ∉ (ledger (e :: hist)).callers := by
    intro hc hw op hm
    rw [hc, hb.callers_poisoned hw] at hm
    cases hm
  have ht := hT u
  have hl := h.inv.loc u
  have hl' := h.inv'.loc u
  have hmv := h.move
  generalize hp : s.pc u = p at hmv ht hl
  generalize hp' : s'.pc u = p' at hmv hl'
  cases hmv with
  | gate hg => cases hg
  | retry hn => exact absurd hn hk.no_barrier
  | last hn => exact absurd hn hk.no_barrier
  | countDown hn => exact absurd hn hk.no_barrier
  | arrived hn => exact absurd hn hk.no_barrier
  | load => exact hread rfl
  | reload => exact hread rfl
  | spin => exact ht
  | @settledWait q hv =>
    have ha := hA u
    rw [hp] at ha
    exact absurd ha hv
  | @push q =>
    have hst : (view (.push u q.entry (s.opcode q.entry) :: hist)).stat q.entry = .queued := by
      simp [View.observe]
    refine fun _ => ⟨fun r hg => ?_, fun hc => ?_⟩
    · rcases hg with ⟨x, hx, -⟩ | ⟨x, q', hx, hq⟩ | ⟨hx | ⟨y, hx⟩, -⟩
      · rw [hst] at hx
        cases hx
      · have := (h.inv'.settling hx).1
        rw [hq, ← view_cons, hst] at this
        cases this
      · rw [hst] at hx
        cases hx
      · rw [hst] at hx
        cases hx
    · simp [Bound.observe] at hc
  | @wait q retry hv =>
    intro _
    obtain ⟨h₁, h₂⟩ := ht hv
    exact h.waits hb hon (by simp) (by simp [hp']) (fun op hm => hm) h₁ h₂
  | @pending q retry =>
    intro hv
    obtain ⟨h₁, h₂⟩ := ht hv
    exact h.waits hb hon (by simp) (by simp [hp']) (fun op hm => hm) h₁ h₂
  | drop | cancel => trivial
  | enter hin =>
    cases hin with
    | gate hg => cases hg
    | _ => trivial
  | unreleased | release | leave => exact hafter _
  | _ => trivial

theorem reach_told (hr : Reach .lock Disciplined s hist) : ∀ u, Told s hist u (s.pc u) := by
  refine hr.invariant (P := fun s hist => ∀ u, Told s hist u (s.pc u)) ?_ ?_
  · exact fun u => trivial
  intro s hist act e s' hr ih hok hs
  have hb : ∀ n, Kind.lock ≠ .barrier n := by simp
  have htook := took (reach_inv hb hr) (reach_inv hb (.step hr hok hs)) hs
  exact step_told htook (reach_books hr).2 (reach_honours (Or.inl rfl) (.step hr.any trivial hs))
    (reach_asked hr.any) ih

theorem Adapter.not_pager (f : Adapter) (a : Ptr) : (f.req a).via ≠ .pager := by
  cases f <;> simp [Adapter.req, Adapter.via]

theorem Adapter.not_try (f : Adapter) (a : Ptr) : (f.req a).via ≠ .tryOnly := by
  cases f <;> simp [Adapter.req, Adapter.via]

theorem acquired_event (f : Adapter) {new : ℕ} (hx : acquired s t (f.req a) new = (e, s')) :
    e = .acquire t (.caller t) f.mode.opcode := by
  unfold acquired at hx
  split at hx
  · next hv => exact absurd hv (f.not_pager a)
  · exact (Prod.mk.inj hx).1.symm

theorem start_returns (hp : s.pc t = .start (f.req a))
    (hs : step .lock s (.run t) = some (e, s')) (hret : s'.pc t = .idle) :
    e = .acquire t (.caller t) f.mode.opcode := by
  simp only [step, runStep, hp, Option.some.injEq, startStep] at hs
  split at hs
  · exact acquired_event f hs
  split at hs
  · exact acquired_event f hs
  · cases hs
    simp at hret

theorem tryLockInternal_done {state : ℕ} (h : tryLockInternal state = .done r) :
    state = POISONED_STATE ∧ r = POISONED := by
  unfold tryLockInternal at h
  split at h
  · next hp => exact ⟨hp, (Attempt.done.inj h).symm⟩
  · split at h <;> cases h

theorem tryShareInternal_done {state : ℕ} (h : tryShareInternal state = .done r) :
    state = POISONED_STATE ∧ r = POISONED := by
  unfold tryShareInternal at h
  split at h
  · next hp => exact ⟨hp, (Attempt.done.inj h).symm⟩
  · split at h <;> cases h

theorem attempt_returns {state i : ℕ} (hp : s.pc t = .attempt (f.req a) state i)
    (hs : step .lock s (.run t) = some (e, s')) (hret : s'.pc t = .idle) :
    state ≠ POISONED_STATE ∧ e = .acquire t (.caller t) f.mode.opcode ∨
    state = POISONED_STATE ∧ e = .refuse t POISONED := by
  simp only [step, runStep, hp, Option.some.injEq, attemptStep] at hs
  have hdirect : ¬((f.req a).via = .pager ∨ (f.req a).goal = .enter) := by
    rintro (hv | hg)
    · exact f.not_pager a hv
    · cases hg
  rw [if_neg (by simp [Adapter.req])] at hs
  split at hs
  · next new hatt =>
    split at hs
    · refine Or.inl ⟨?_, acquired_event f hs⟩
      rintro rfl
      cases f <;> cases hatt
    · cases hs
      simp at hret
  · next result hatt =>
    have hpo : state = POISONED_STATE ∧ result = POISONED := by
      cases f with
      | lockShared | readAsync => exact tryShareInternal_done hatt
      | _ => exact tryLockInternal_done hatt
    unfold answered at hs
    rw [if_neg hdirect] at hs
    cases hs
    exact Or.inr ⟨hpo.1, by rw [hpo.2]⟩
  · split at hs
    · cases hs
      simp at hret
    · unfold blocked at hs
      rw [if_neg (f.not_try a), if_neg hdirect] at hs
      cases hs
      simp at hret

theorem Books.owner (hb : Books s l) (ha : Accounts .lock s l) (f : Adapter)
    (hm : (t, f.mode.opcode) ∈ l.callers) : f.mode.Owner t s l := by
  obtain ⟨hfull, hrest, -⟩ := hb.owners ha
  have hpos : 0 < l.owners f.mode.opcode :=
    List.count_pos_iff.mpr (List.mem_append_left _ (List.mem_map.mpr ⟨_, hm, rfl⟩))
  refine ⟨hm, ?_⟩
  have hmode : f.mode = .exclusive ∨ f.mode = .shared := by cases f <;> simp [Adapter.mode]
  rcases hmode with hx | hx <;> rw [hx] at hpos ⊢
  · simp only [Mode.opcode, ↓reduceIte] at hpos ⊢
    by_cases hd : data s.word = DATA_MASK
    · exact ⟨hd, hfull.mp hd⟩
    · have := (hrest hd).1
      omega
  · simp only [Mode.opcode, reduceCtorEq, ↓reduceIte] at hpos ⊢
    have hd : data s.word ≠ DATA_MASK := by
      intro hd
      have := (hfull.mp hd).2
      omega
    exact ⟨(hrest hd).2, (hrest hd).1⟩

theorem Inv.unbound (hi : Inv .lock s (view hist)) (hon : Honours s (bound hist))
    (hp : Trying (s.pc t) q) (hv : q.via ≠ .tryOnly) : (bound hist).code q.entry ≠ some r := by
  intro hc
  have hent := hp.deciding.entry_of hv
  have hl := hi.loc t
  have hst : (view hist).stat q.entry = .idle := by
    have := hl.stat _ hent
    rcases hp with hp | ⟨state, i, hp⟩ <;> rw [hp] at this <;> exact this
  have hsl := (hl.slot _).mp hent
  have hg := hon q.entry r hc
  rw [bound_view] at hg
  rcases hg with ⟨x, hx, -⟩ | ⟨x, q', hx, hq⟩ | ⟨hx | ⟨y, hx⟩, -⟩
  · rw [hst] at hx
    cases hx
  · have hsl' := (hi.settling hx).2.1
    rw [hq, hsl] at hsl'
    cases hsl'
    rcases hp with hp | ⟨state, i, hp⟩ <;> rw [hp] at hx <;> cases hx
  · rw [hst] at hx
    cases hx
  · rw [hst] at hx
    cases hx

/-- A call returns from an attempt to acquire, or when it consumes its result. -/
theorem Took.returns (h : Took .lock s v t (.run t) e s') (hp : (s.pc t).reqs = some (f.req a))
    (hret : s'.pc t = .idle) : Trying (s.pc t) (f.req a) ∨
      s.pc t = .await (f.req a) false ∧ v.stat a = .final ∧
        e = .consume t a (s.state a).result := by
  have hl := h.inv.loc t
  have hmv := h.move
  generalize s.pc t = p at hmv hp hl
  generalize s'.pc t = p' at hmv hret
  cases hmv with
  | gate hg => cases hg
  | own htry =>
    have hq := htry.deciding.reqs
    rw [hp] at hq
    cases hq
    exact Or.inl htry
  | @refuse q state i =>
    cases hp
    exact Or.inl (Or.inr ⟨state, i, rfl⟩)
  | registered hv =>
    cases hp
    exact absurd hv (f.not_pager a)
  | settled hv =>
    cases hp
    exact absurd hv (f.not_pager a)
  | consume hst =>
    cases hp
    exact Or.inr ⟨rfl, hst, rfl⟩
  | fast | unreleased | release | poisonFast | poisonRefuse | clear | clearRefuse | leave |
    poisoned | finish =>
    cases hp
  | _ => cases hret

theorem Adapter.acquires (f : Adapter) : f.mode.opcode.Acquires := by
  cases f <;> decide

/-- The result of the call is what makes the caller an owner. -/
theorem Inv.consumed (hi : Inv .lock s (view hist)) (hc : Credit .lock s (ledger hist))
    (hpc : s.pc t = .await (f.req a) false) (hst : (view hist).stat a = .final)
    (hask : s.opcode a = f.mode.opcode) :
    (s.state a).result = ACQUIRED ∧
        (ledger (.consume t a (s.state a).result :: hist)).callers =
          (t, f.mode.opcode) :: (ledger hist).callers ∨
      (s.state a).result = POISONED ∧
        (ledger (.consume t a (s.state a).result :: hist)).callers = (ledger hist).callers := by
  have hidle : (ledger hist).view.stat a ≠ .idle := by simp [hst]
  have hops : (ledger hist).ops a = f.mode.opcode := (hc.ops a hidle).trans hask
  have hsl := ((hi.loc t).slot a).mp (by rw [hpc]; exact if_neg (f.not_try a))
  have hns : ¬Spent s a := hi.not_spent (Or.inr hsl) (by simp [hpc, Pc.after])
  have hans := hc.answer a (Or.inl (by rw [ledger_view]; exact hst)) hns
  rcases hans.1 with hres | ⟨-, hres⟩
  · refine Or.inl ⟨hres, ?_⟩
    simp only [ledger_cons, Ledger.observe, Ledger.record, hres, hops, f.acquires, and_self,
      ↓reduceIte]
  · refine Or.inr ⟨hres, ?_⟩
    simp only [ledger_cons, Ledger.observe, Ledger.record, hres]
    exact if_neg fun hx => absurd hx.1 (by decide)

/-- In every run of a lock whose callers release and poison only what they own, a call made
by an adapter of `lock_api` returns to an owner of the lock, in the mode of the adapter, if
and only if it met no poisoning. -/
theorem adapters_return_owning_iff (hr : Reach .lock Disciplined s hist)
    (hp : (s.pc t).reqs = some (f.req a)) (hs : step .lock s (.run t) = some (e, s'))
    (hret : s'.pc t = .idle) :
    f.mode.Owner t s' (ledger (e :: hist)) ↔ ¬MetPoison s hist t a := by
  have hok : Disciplined s hist (.run t) := by
    refine ⟨?_, trivial⟩
    simp only [Misreleases]
    split
    · next hx =>
      rw [hx] at hp
      cases hp
    · exact id
  have hbar : ∀ n, Kind.lock ≠ .barrier n := by simp
  have hr' : Reach .lock Disciplined s' (e :: hist) := .step hr hok hs
  have hi := reach_inv hbar hr
  obtain ⟨ha, hb⟩ := reach_books hr
  obtain ⟨ha', hb'⟩ := reach_books hr'
  have hon := reach_honours (Or.inl rfl) hr.any
  have htook : Took .lock s (view hist) t (.run t) e s' := took hi (reach_inv hbar hr') hs
  have htold := reach_told hr t
  have hgain : (ledger (e :: hist)).callers = (t, f.mode.opcode) :: (ledger hist).callers →
      f.mode.Owner t s' (ledger (e :: hist)) := by
    intro hc
    apply hb'.owner ha'
    rw [hc]
    exact List.mem_cons_self ..
  have hlose : (ledger (e :: hist)).callers = (ledger hist).callers →
      (∀ op, (t, op) ∉ (ledger hist).callers) → ¬f.mode.Owner t s' (ledger (e :: hist)) := by
    rintro hc hnone ⟨hm, -⟩
    rw [hc] at hm
    exact hnone _ hm
  have hown : e = .acquire t (.caller t) f.mode.opcode →
      f.mode.Owner t s' (ledger (e :: hist)) := by
    rintro rfl
    apply hgain
    simp only [ledger_cons, Ledger.observe, Ledger.record, f.acquires, ↓reduceIte]
  rcases htook.returns hp hret with htry | ⟨hpc, hst, rfl⟩
  · have hfree := hi.unbound (r := POISONED) hon htry (f.not_try a)
    rcases htry with hpc | ⟨state, i, hpc⟩
    · refine iff_of_true (hown (start_returns hpc hs hret)) ?_
      rintro (hx | hx)
      · rw [hpc] at hx
        exact hx
      · exact hfree hx
    rcases attempt_returns hpc hs hret with ⟨hne, he⟩ | ⟨hpo, rfl⟩
    · refine iff_of_true (hown he) ?_
      rintro (hx | hx)
      · rw [hpc] at hx
        exact hne hx
      · exact hfree hx
    · rw [hpc] at htold
      refine iff_of_false (hlose rfl (htold hpo)) (not_not.mpr (Or.inl ?_))
      rw [hpc]
      exact hpo
  · rw [hpc] at htold
    obtain ⟨hgets, hnone⟩ := htold (f.not_pager a)
    have hcode : (bound hist).code a = some (s.state a).result :=
      hgets _ (Or.inr (Or.inr ⟨Or.inl hst, rfl⟩))
    have hmet : MetPoison s hist t a ↔ (s.state a).result = POISONED := by
      rw [MetPoison, hpc, hcode, Option.some.injEq]
      exact or_iff_right id
    rw [hmet]
    have hask := reach_asked hr.any t
    rw [hpc] at hask
    rcases hi.consumed ha.credit hpc hst (hask (f.not_pager a)) with ⟨hres, hc⟩ | ⟨hres, hc⟩
    · exact iff_of_true (hgain hc) (by rw [hres]; decide)
    · exact iff_of_false (hlose hc (hnone (hcode.trans (congrArg some hres)))) (not_not.mpr hres)

end

/-- Thread 0 takes a free lock through `RawMutex::lock`; one step is left. -/
def lockAdapter : List Action := [.call 0 (.acquire (Adapter.lock.req 256))]

theorem adapters_return_owning_iff_free :
    ∃ s h e s', execIf (system .lock) Disciplined (Kind.initial .lock) [] lockAdapter =
        some (s, h) ∧
      step .lock s (.run 0) = some (e, s') ∧ s'.pc 0 = .idle ∧ ¬MetPoison s h 0 256 ∧
      Adapter.lock.mode.Owner 0 s' (ledger (e :: h)) := by
  obtain ⟨s, h, e, s', hrun, hs, hp, hret, hmet⟩ : ∃ s h e s',
      execIf (system .lock) Disciplined (Kind.initial .lock) [] lockAdapter = some (s, h) ∧
      step .lock s (.run 0) = some (e, s') ∧ (s.pc 0).reqs = some (Adapter.lock.req 256) ∧
      s'.pc 0 = .idle ∧ ¬MetPoison s h 0 256 := ⟨_, _, _, _, rfl, rfl, rfl, rfl, by decide⟩
  exact ⟨s, h, e, s', hrun, hs, hret, hmet,
    (adapters_return_owning_iff (Run.execIf .init hrun) hp hs hret).mpr hmet⟩

/-- Thread 0 locks and poisons, thread 1 calls `RawMutex::lock`; one step is left. -/
def poisonedAdapter : List Action :=
  [.call 0 (.acquire ⟨.lock .exclusive, .tryOnly, 0⟩), .run 0, .run 0, .call 0 .poisonLock, .run 0,
    .call 1 (.acquire (Adapter.lock.req 256)), .run 1]

/-- `RawMutex::lock` returns from a poisoned lock to a caller that owns nothing. -/
theorem poisoned_adapter_returns :
    ∃ s h e s', execIf (system .lock) Disciplined (Kind.initial .lock) [] poisonedAdapter =
        some (s, h) ∧
      (s.pc 1).reqs = some (Adapter.lock.req 256) ∧ step .lock s (.run 1) = some (e, s') ∧
      s'.pc 1 = .idle ∧ ¬Adapter.lock.mode.Owner 1 s' (ledger (e :: h)) :=
  ⟨_, _, _, _, rfl, rfl, rfl, rfl, by decide⟩

end Saa
