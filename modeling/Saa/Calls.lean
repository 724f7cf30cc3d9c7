import Saa.Moves

/-! # Acquiring calls keep the invariant -/
namespace Saa

open Word Lib.Linked

/-- How an acquiring call begins: it is refused, or it takes its entry and constructs it, at
once or later. -/
inductive Begun (s : Cfg) (t : Tid) (q : Req) : Event → Cfg → Prop where
  | refused : Begun s t q (.refuse t 0) s
  | tryOnly : ¬q.goal.TooMany → q.via = .tryOnly →
      Begun s t q (.call t (.acquire q)) (s.goto t (.start q))
  | bare : ¬q.goal.TooMany → q.via = .sync ∨ q.via = .async → q.goal.constructsEarly = false →
      IsAnchor q.entry → s.slot q.entry = .none → Begun s t q (.call t (.acquire q))
        ({ s with slot := Function.update s.slot q.entry (.used t) }.goto t (.start q))
  | fresh {had : Bool} : ¬q.goal.TooMany → q.via ≠ .tryOnly → IsAnchor q.entry →
      s.slot q.entry = .none ∧ had = false ∨ s.slot q.entry = .pager ∧ s.pollable q.entry = false →
      Begun s t q (.call t (.acquire q))
        (({ s with slot := Function.update s.slot q.entry (.used t) }.construct q.entry
          q.goal.opcode had).goto t (.start q))

section
variable {kind : Kind} {s : Cfg} {v : View} {t : Tid} {q : Req} {p : Pc}

theorem acquireCall_begun {e : Event} {s' : Cfg} (hs : acquireCall s t q = some (e, s')) :
    Begun s t q e s' := by
  unfold acquireCall at hs
  split at hs
  · cases hs
    exact .refused
  next hmany =>
  have hblock : q.via = .sync ∨ q.via = .async → IsAnchor q.entry ∧ s.slot q.entry = .none →
      Begun s t q (.call t (.acquire q)) ((if q.goal.constructsEarly then
        { s with slot := Function.update s.slot q.entry (.used t) }.construct q.entry
          q.goal.opcode false
        else { s with slot := Function.update s.slot q.entry (.used t) }).goto t (.start q)) := by
    rintro hvia ⟨hanch, hsl⟩
    split
    · exact .fresh hmany (by rcases hvia with hv | hv <;> rw [hv] <;> simp) hanch (.inl ⟨hsl, rfl⟩)
    · next hearly => exact .bare hmany hvia (by simpa using hearly) hanch hsl
  split at hs
  · next hv =>
    cases hs
    exact .tryOnly hmany hv
  · next hv =>
    split at hs
    · next hc =>
      cases hs
      exact hblock (.inl hv) hc
    · cases hs
  · next hv =>
    split at hs
    · next hc =>
      cases hs
      exact hblock (.inr hv) hc
    · cases hs
  · next hv =>
    have htry : q.via ≠ .tryOnly := by rw [hv]; simp
    split at hs
    swap
    · cases hs
    next hanch =>
    split at hs
    · next hsl =>
      cases hs
      exact .fresh hmany htry hanch (.inl ⟨hsl, rfl⟩)
    · next hsl =>
      split at hs
      · cases hs
        exact .refused
      · next hnp =>
        cases hs
        exact .fresh hmany htry hanch (.inr ⟨hsl, by simpa using hnp⟩)
    · cases hs

theorem leave_goto (s : Cfg) (t : Tid) (p : Pc) (q : Req) :
    (s.goto t p).leave t q = s.leave t q := by
  unfold Cfg.leave
  split <;> simp [Cfg.goto]

theorem leave_pc (s : Cfg) (t : Tid) (q : Req) :
    (s.leave t q).pc = Function.update s.pc t .idle := by
  unfold Cfg.leave
  split <;> rfl

structure Preparing (p : Pc) (q : Req) : Prop where
  entry : p.entry = q.held
  answering : p.answering = none
  takePtr : p.takePtr = 0
  stage : p.stage = .prep
  holds : ¬p.Holds

theorem Inv.leavePrep (h : Inv kind s v) (hp : Preparing (s.pc t) q) (hv : q.via ≠ .pager) :
    Inv kind (s.leave t q) v := by
  have hl := h.loc t
  have hna := hl.not_answered hp.answering
  have htn := hl.taken_nil hp.takePtr
  by_cases htry : q.via = .tryOnly
  · have he : (s.pc t).entry = none := by rw [hp.entry, Req.held, if_pos htry]
    have hlv : s.leave t q = s.goto t .idle := by simp [Cfg.leave, htry]
    rw [hlv]
    exact h.goto (.ofIdle (hl.none_used he) hna htn) (iff_of_false id hp.holds)
  · have he : (s.pc t).entry = some q.entry := by rw [hp.entry, Req.held, if_neg htry]
    have hst : v.stat q.entry = .idle := by simpa [hp.stage, Stage.Admits] using hl.stat _ he
    have hlv : s.leave t q =
        { s with slot := Function.update s.slot q.entry .none }.goto t .idle := by
      cases hvia : q.via <;> simp_all [Cfg.leave]
    rw [hlv]
    refine h.onOwn ((hl.slot _).mp he) ⟨rfl, fun _ _ => rfl, fun _ _ => rfl, fun _ _ => rfl,
      fun _ _ => rfl, fun _ _ => rfl, fun b hb => by simp [hb]⟩
      (fun u hu => goto_pc_of_ne _ _ _ hu) rfl (fun _ _ => rfl) (fun _ _ => rfl) Iff.rfl
      (fun _ => Iff.rfl) rfl (fun _ => ⟨rfl, rfl, rfl⟩) ?_ (fun u _ => by simp)
      (fun _ _ => Iff.rfl) (by rw [goto_pc_self]; exact iff_of_false id hp.holds) ?_
    · have he := h.glob.entry q.entry
      constructor <;> simp [hst, he.sets]
    · rw [goto_pc_self]
      refine .ofIdle (fun b => ?_) hna htn
      by_cases hb : b = q.entry
      · subst b; simp
      · simpa [hb] using hl.not_used he hb

theorem construct_slot (s : Cfg) (a : Ptr) (op : Opcode) (had : Bool) :
    (s.construct a op had).slot = s.slot := by
  unfold Cfg.construct; split <;> rfl

theorem construct_pc (s : Cfg) (a : Ptr) (op : Opcode) (had : Bool) :
    (s.construct a op had).pc = s.pc := by
  unfold Cfg.construct; split <;> rfl

theorem construct_sameOff (s : Cfg) (a : Ptr) (op : Opcode) (had : Bool) :
    SameOff s (s.construct a op had) a := by
  unfold Cfg.construct
  split
  · exact ⟨rfl, fun _ _ => rfl, fun b hb => by simp [hb], fun b hb => by simp [hb],
      fun _ _ => rfl, fun _ _ => rfl, fun _ _ => rfl⟩
  · exact ⟨rfl, fun b hb => by simp [hb], fun b hb => by simp [hb], fun b hb => by simp [hb],
      fun b hb => by simp [hb], fun b hb => by simp [hb], fun _ _ => rfl⟩

/-- A constructed entry has no previous link, the given opcode and, if the old one was
left clear, a clear state. -/
theorem construct_fresh (s : Cfg) (a : Ptr) (op : Opcode) (had : Bool)
    (h : had = true → s.state a = .clear) :
    (s.construct a op had).prev a = 0 ∧ (s.construct a op had).opcode a = op ∧
    (s.construct a op had).state a = .clear := by
  unfold Cfg.construct
  cases had
  · simp
  · simpa using h rfl

theorem Inv.construct (h : Inv kind s v) {a : Ptr} {op : Opcode} {had : Bool}
    (he : (s.pc t).entry = some a) (hst : v.stat a = .idle)
    (hclear : had = true → s.state a = .clear) (hop : op.Fits kind)
    (hnh : ¬(s.pc t).Holds) (ha : p.answering = (s.pc t).answering) (hpe : p.entry = some a)
    (hpt : p.takePtr = 0) (hps : p.stage = .prep) (hpf : p.flagged = false)
    (hpq : ∀ r, p.reqs = some r → r.Fits kind ∧ ¬r.goal.TooMany) (hpk : p.Fits kind)
    (hph : ¬p.Holds) (hpc : Counted kind ((s.construct a op had).goto t p) v t p)
    (hpo : Hold kind ((s.construct a op had).goto t p) v p) (htn : v.taken t = []) :
    Inv kind ((s.construct a op had).goto t p) v := by
  have hl := h.loc t
  have hsl := (hl.slot a).mp he
  have hoff := construct_sameOff s a op had
  obtain ⟨hprev, hopc, hstate⟩ := construct_fresh s a op had hclear
  refine h.onOwn hsl ⟨hoff.word, hoff.next, hoff.prev, hoff.opcode, hoff.state, hoff.pollable,
    hoff.slot⟩ (fun u hu => by rw [goto_pc_of_ne _ _ _ hu, construct_pc]) rfl (fun _ _ => rfl)
    (fun _ _ => rfl) Iff.rfl (fun _ => Iff.rfl) rfl ?_ ?_ ?_ (fun _ _ => Iff.rfl) ?_ ?_
  · rintro (hs | ⟨u, hs⟩) <;> rw [hst] at hs <;> cases hs
  · have he := h.glob.entry a
    constructor <;> simp [hst, he.sets, construct_slot, hsl]
  · intro u hu
    rw [goto_slot, construct_slot, hsl]
    simpa using hu.symm
  · rw [goto_pc_self]
    exact iff_of_false hph hnh
  · rw [goto_pc_self]
    exact {
      slot := by
        intro b
        rw [hpe, goto_slot, construct_slot, ← hl.slot b, he]
      stat := by
        intro b hb
        rw [hpe] at hb
        cases hb
        rw [hps]
        exact hst
      anchors := by
        intro b hb
        rw [hpe] at hb
        exact hl.anchors b (he.trans hb)
      built := by
        intro b hb _
        rw [hpe] at hb
        cases hb
        exact ⟨hstate, hprev, by rw [goto_opcode, hopc]; exact hop⟩
      flagged := by
        intro b _ hf
        rw [hpf] at hf
        cases hf
      reqs := hpq
      fits := hpk
      answering := by intro b; rw [ha]; exact hl.answering b
      taken := by rw [hpt, htn]; rfl
      hold := hpo
      counted := hpc }

/-- The program points at which an acquiring call decides what to do with a snapshot. -/
structure Deciding (p : Pc) (q : Req) : Prop extends Preparing p q where
  reqs : p.reqs = some q
  built : q.via = .pager ∨ q.goal.constructsEarly = true → p.built = true

theorem deciding_start (q : Req) : Deciding (.start q) q :=
  ⟨⟨rfl, rfl, rfl, rfl, id⟩, rfl, by simp [Pc.built]⟩

theorem deciding_attempt (q : Req) (state spin : ℕ) : Deciding (.attempt q state spin) q :=
  ⟨⟨rfl, rfl, rfl, rfl, id⟩, rfl, by simp [Pc.built]⟩

theorem Deciding.entry_of (hd : Deciding p q) (hv : q.via ≠ .tryOnly) :
    p.entry = some q.entry := by rw [hd.entry, Req.held, if_neg hv]

theorem Local.decide {p' : Pc} {w : ℕ} {f : Tid → Pc} (h : Local kind s v t p)
    (hd : Deciding p q) (he : p'.entry = q.held) (ha : p'.answering = none)
    (ht : p'.takePtr = 0) (hs : p'.stage = .prep)
    (hb : p'.built = true → q.via = .pager ∨ q.goal.constructsEarly = true)
    (hf : p'.flagged = false) (hq : ∀ r, p'.reqs = some r → r = q) (hk : p'.Fits kind)
    (hh : Hold kind { s with word := w, pc := f } v p')
    (hc : Counted kind { s with word := w, pc := f } v t p') :
    Local kind { s with word := w, pc := f } v t p' :=
  h.move (he.trans hd.entry.symm) (ha.trans hd.answering.symm) (ht.trans hd.takePtr.symm)
    (fun st hst => by rw [hs]; rw [hd.stage] at hst; exact hst) (fun hp => hd.built (hb hp))
    (fun hp => by rw [hf] at hp; cases hp) (fun r hr => by rw [hq r hr]; exact hd.reqs) hk hh hc

theorem Inv.unlocked_of_anchor (h : Inv kind s v) (ha : anchor s.word = 0) (hk : kind ≠ .lock) :
    ¬Locked s.word := by
  intro hl
  rcases h.locked hl with ⟨u, hu⟩ | ⟨he, _⟩
  · exact h.anchor_ne hu ha
  · exact hk he

theorem lt_of_unlocked {w : ℕ} (ha : anchor w = 0) (hl : ¬Locked w) : w < 64 := by
  rw [anchor_eq] at ha
  rw [locked_iff] at hl
  omega

theorem attempt_cas (h : Inv kind s v) (hf : q.Fits kind) {new : ℕ}
    (hc : q.goal.attempt s.word = .cas new) :
    s.word < 64 ∧ new < 64 ∧ new = s.word + q.goal.opcode.acquiredCount := by
  obtain ⟨goal, via, entry⟩ := q
  cases goal with
  | lock mode =>
    cases mode <;> simp only [Goal.attempt, tryLockInternal, tryShareInternal, waitInternal] at hc
    · split at hc
      · cases hc
      · split at hc
        · cases hc
        · cases hc
          simp_all [Goal.opcode, Mode.opcode, Opcode.acquiredCount, DATA_MASK, LOCKED_FLAG,
            VIRTUAL_ALIGNMENT]
    · split at hc
      · cases hc
      · split at hc
        · cases hc
        · next hlt =>
          cases hc
          simp only [MAX_SHARED_OWNERS, DATA_MASK, LOCKED_FLAG, VIRTUAL_ALIGNMENT,
            Nat.reduceShiftRight, Nat.reduceSub, not_le] at hlt
          exact ⟨by omega, by omega, rfl⟩
    all_goals
      split at hc
      · cases hc
      · split at hc <;> cases hc
  | permits n =>
    simp only [Goal.attempt, tryAcquireInternal] at hc
    split at hc
    · cases hc
    · next hn =>
      cases hc
      simp only [MAX_PERMITS, DATA_MASK, LOCKED_FLAG, VIRTUAL_ALIGNMENT, Nat.reduceShiftRight,
        Nat.reduceSub, ne_eq, not_or, not_not, not_lt, data_eq] at hn
      have hk : kind ≠ .lock := by rintro rfl; exact hf
      have hlt := lt_of_unlocked hn.1 (h.unlocked_of_anchor hn.1 hk)
      exact ⟨hlt, by omega, rfl⟩
  | enter =>
    simp only [Goal.attempt, pushWaitQueueEntry] at hc
    split at hc <;> cases hc
  | arrive => cases hc

theorem acquired_inv (h : Inv kind s v) (hd : Deciding (s.pc t) q) {new : ℕ}
    (hs : s.word < 64) (hn : new < 64) :
    Inv kind (acquired s t q new).2 (v.observe (acquired s t q new).1) := by
  have hl := h.loc t
  by_cases hv : q.via = .pager
  · simp only [acquired, hv]
    exact h.freeWord hs hn
      (hl.decide hd rfl rfl rfl rfl (fun _ => Or.inl hv) rfl (by simp [Pc.reqs])
        (by simp [Pc.Fits, hv]) trivial trivial) id
  · have hw : Inv kind ({ s with word := new }.goto t (.start q)) v :=
      h.freeWord hs hn (hl.decide hd rfl rfl rfl rfl (by simp [Pc.built]) rfl (by simp [Pc.reqs])
        trivial trivial trivial) id
    have hlv := hw.leavePrep (t := t) (q := q) (by rw [goto_pc_self]; exact (deciding_start q).1)
      hv
    rw [leave_goto] at hlv
    cases hvia : q.via <;> simp_all [acquired, View.observe]

theorem lock_fits {m : Mode} (hf : q.Fits kind) (hg : q.goal = .lock m) : kind = .lock := by
  obtain ⟨goal, via, entry⟩ := q
  subst hg
  cases kind with
  | lock => rfl
  | _ => cases hf

theorem permits_fits {count : ℕ} (hf : q.Fits kind) (hg : q.goal = .permits count) :
    ∃ n, kind = .semaphore n := by
  obtain ⟨goal, via, entry⟩ := q
  subst hg
  cases kind with
  | semaphore n => exact ⟨n, rfl⟩
  | _ => cases hf

theorem enter_fits (hf : q.Fits kind) (hg : q.goal = .enter) :
    q.via ≠ .tryOnly ∧ kind = .gate := by
  obtain ⟨goal, via, entry⟩ := q
  subst hg
  cases kind with
  | gate => exact ⟨hf, rfl⟩
  | _ => cases hf

theorem arrive_fits (hf : q.Fits kind) (hg : q.goal = .arrive) :
    (q.via = .sync ∨ q.via = .async) ∧ ∃ n, kind = .barrier n := by
  obtain ⟨goal, via, entry⟩ := q
  subst hg
  cases kind with
  | barrier => exact ⟨hf, _, rfl⟩
  | _ => cases hf

theorem via_of_early (hf : q.Fits kind) (hv : q.via = .pager ∨ q.goal = .enter) :
    q.via ≠ .tryOnly := by
  rcases hv with hv | hg
  · rw [hv]
    simp
  · exact (enter_fits hf hg).1

theorem answered_inv (h : Inv kind s v) (hd : Deciding (s.pc t) q) (r : ℕ) :
    Inv kind (answered s t q r).2 (v.observe (answered s t q r).1) := by
  have hl := h.loc t
  by_cases hv : q.via = .pager ∨ q.goal = .enter
  · simp only [answered, hv, ↓reduceIte]
    refine h.goto (hl.decide hd rfl rfl rfl rfl (fun _ => ?_) rfl (by simp [Pc.reqs])
      (via_of_early (hl.reqs q hd.reqs).1 hv) trivial trivial) (iff_of_false id hd.holds)
    exact hv.imp id fun he => by rw [he]; rfl
  · simp only [answered, hv, ↓reduceIte]
    exact h.leavePrep hd.1 fun he => hv (Or.inl he)

theorem opcode_fits (hf : q.Fits kind) (h : ¬q.goal.TooMany) : q.goal.opcode.Fits kind := by
  cases hg : q.goal with
  | lock m =>
    obtain rfl := lock_fits hf hg
    cases m <;> simp [Goal.opcode, Mode.opcode, Opcode.Fits, DATA_MASK, LOCKED_FLAG,
      VIRTUAL_ALIGNMENT]
  | permits n =>
    rw [hg] at h
    exact ⟨by simpa [Goal.TooMany, MAX_PERMITS] using h, permits_fits hf hg⟩
  | enter => exact ⟨Nat.zero_le _, .inr (enter_fits hf hg).2⟩
  | arrive => exact (arrive_fits hf hg).2

theorem blocked_inv (h : Inv kind s v) (hd : Deciding (s.pc t) q) {state : ℕ}
    (hp : kind = .lock → state ≠ POISONED_STATE) :
    Inv kind (blocked s t q state).2 (v.observe (blocked s t q state).1) := by
  have hl := h.loc t
  by_cases htry : q.via = .tryOnly
  · simp only [blocked, htry, ↓reduceIte]
    exact h.leavePrep hd.1 (by rw [htry]; simp)
  · by_cases hv : q.via = .pager ∨ q.goal = .enter
    · simp only [blocked, htry, hv, ↓reduceIte]
      refine h.goto (hl.decide hd rfl rfl rfl rfl (fun _ => ?_) rfl (by simp [Pc.reqs]) ⟨htry, hp⟩
        trivial trivial) (iff_of_false id hd.holds)
      exact hv.imp id fun he => by rw [he]; rfl
    · simp only [blocked, htry, hv, ↓reduceIte]
      have he := hd.entry_of htry
      have hst : v.stat q.entry = .idle := by simpa [hd.stage, Stage.Admits] using hl.stat _ he
      have hreq := hl.reqs q hd.reqs
      refine h.construct he hst (fun hf => by cases hf) (opcode_fits hreq.1 hreq.2) hd.holds
        (by rw [hd.answering]; rfl) (by rw [← he, hd.entry]; rfl) rfl rfl rfl ?_ ⟨htry, hp⟩ id
        trivial trivial (hl.taken_nil hd.takePtr)
      intro r hr
      simp only [Pc.reqs, Option.some.injEq] at hr
      subst r
      exact hreq

theorem startStep_inv (h : Inv kind s v) (hpc : s.pc t = .start q) :
    Inv kind (startStep s t q).2 (v.observe (startStep s t q).1) := by
  have hd : Deciding (s.pc t) q := by rw [hpc]; exact deciding_start q
  unfold startStep
  split
  · next hc => exact acquired_inv h hd (by omega) (by decide)
  · split
    · next hc =>
      have hlt := hc.2.2
      simp only [MAX_SHARED_OWNERS, DATA_MASK, LOCKED_FLAG, VIRTUAL_ALIGNMENT,
        Nat.reduceShiftRight, Nat.reduceSub] at hlt
      exact acquired_inv h hd (by omega) (by omega)
    · exact h.goto ((h.loc t).decide hd rfl rfl rfl rfl (by simp [Pc.built]) rfl
        (by simp [Pc.reqs]) trivial trivial trivial) (iff_of_false id hd.holds)

theorem Inv.setNext (h : Inv kind s v) {a x : Ptr} (he : (s.pc t).entry = some a)
    (hst : v.stat a = .idle) (hh : p.Holds ↔ (s.pc t).Holds)
    (hl : Local kind ({ s with next := Function.update s.next a x }.goto t p) v t p) :
    Inv kind ({ s with next := Function.update s.next a x }.goto t p) v := by
  have hsl := ((h.loc t).slot a).mp he
  refine h.onOwn hsl ⟨rfl, fun b hb => by simp [hb], fun _ _ => rfl, fun _ _ => rfl,
    fun _ _ => rfl, fun _ _ => rfl, fun _ _ => rfl⟩ (fun u hu => goto_pc_of_ne _ _ _ hu) rfl
    (fun _ _ => rfl) (fun _ _ => rfl) Iff.rfl (fun _ => Iff.rfl) rfl ?_
    ((h.glob.entry a).congr rfl rfl rfl rfl rfl rfl) ?_ (fun _ _ => Iff.rfl)
    (by rw [goto_pc_self]; exact hh) (by rw [goto_pc_self]; exact hl)
  · rintro (hs | ⟨u, hs⟩) <;> rw [hst] at hs <;> cases hs
  · intro u hu
    rw [goto_slot, hsl]
    simpa using hu.symm

theorem Local.pushed {a : Ptr} {w : ℕ} {next : Ptr → Ptr} {f : Tid → Pc} {retry : Bool}
    (h : Local kind s v t p) (he : p.entry = some a) (hqe : q.held = some a)
    (hr : p.reqs = some q) (hv : q.via ≠ .tryOnly ∧ (retry = true → q.goal = .arrive))
    (hans : p.answering = none) (htn : v.taken t = []) :
    Local kind { s with word := w, next := next, pc := f }
      { v with queue := a :: v.queue, stat := Function.update v.stat a .queued } t
      (.pushed q retry) where
  slot b := by
    rw [show (Pc.pushed q retry).entry = some a from hqe, ← he]
    exact h.slot b
  stat b hb := by
    rw [show (Pc.pushed q retry).entry = some a from hqe] at hb
    cases hb
    simp [Pc.stage, Stage.Admits]
  anchors b hb := h.anchors b (by rw [he, ← hqe]; exact hb)
  built _ _ hb := by cases hb
  flagged _ _ hb := by cases hb
  reqs r hr' := by
    simp only [Pc.reqs, Option.some.injEq] at hr'
    subst r
    exact h.reqs _ hr
  fits := hv
  answering b := by
    have hb := h.answering b
    rw [hans] at hb
    by_cases hba : b = a
    · subst b; simp [Pc.answering]
    · simpa [Pc.answering, hba] using hb
  taken := by rw [htn]; rfl
  hold := trivial
  counted := trivial

theorem push_inv (h : Inv kind s v) {state : ℕ} (hpc : s.pc t = .push q state) :
    Inv kind (tryPushWaitQueueEntry s t q state).2
      (v.observe (tryPushWaitQueueEntry s t q state).1) := by
  have hl := h.loc t
  rw [hpc] at hl
  have hreq := hl.reqs q rfl
  have htn := hl.taken_nil rfl
  have htry : q.via ≠ .tryOnly := hl.fits.1
  have hqe : q.held = some q.entry := if_neg htry
  have hst := hl.stat q.entry hqe
  unfold tryPushWaitQueueEntry
  split
  · next hw =>
    have hanch := (hl.anchors q.entry hqe).1
    obtain ⟨ha, hd, hlk⟩ := join_tag state hanch
    subst hw
    refine h.push _ (by rw [hpc]; exact hqe) hst (by rw [hpc]; rfl) (by rw [hpc]; exact id)
      ha hlk (le_of_eq hd) ?_ id (hl.pushed hqe hqe rfl ⟨htry, by simp⟩ rfl htn)
    intro hpo
    by_cases hk : kind = .lock
    · exact hl.fits.2 hk hpo
    · have := h.unlocked_of_anchor (by rw [hpo]; decide) hk
      exact this (by rw [hpo]; decide)
  · refine h.setNext (by rw [hpc]; exact hqe) hst (by rw [hpc]; exact Iff.rfl) ?_
    have hm : Local kind { s with word := s.word, pc := s.pc } v t (.start q) :=
      hl.move rfl rfl rfl (fun _ hs => hs) (fun _ => rfl) (fun hf => by cases hf) (fun _ hr => hr)
        trivial trivial trivial
    exact { hm with taken := by rw [htn]; rfl, hold := trivial, counted := trivial }

theorem countDown_inv (h : Inv kind s v) {state spin : ℕ} (hpc : s.pc t = .attempt q state spin)
    (hg : q.goal = .arrive)
    (hin : data state = 1 → s.word = state → ¬Locked s.word) :
    Inv kind (countDown s t q state).2 (v.observe (countDown s t q state).1) := by
  have hl := h.loc t
  rw [hpc] at hl
  have hreq := hl.reqs q rfl
  obtain ⟨hvia, n, rfl⟩ := arrive_fits hreq.1 hg
  have htry : q.via ≠ .tryOnly := by rcases hvia with hv | hv <;> rw [hv] <;> simp
  have hqe : q.held = some q.entry := if_neg htry
  have hst := hl.stat q.entry hqe
  have htn := hl.taken_nil rfl
  have hbuilt : (Pc.attempt q state spin).built = true := by
    simp [Pc.built, hg, Goal.constructsEarly]
  have hclear := (hl.built q.entry hqe hbuilt).1
  unfold countDown
  split
  · refine h.construct (by rw [hpc]; exact hqe) hst (fun _ => hclear)
      ⟨n, rfl⟩ (by rw [hpc]; exact id) (by rw [hpc]; rfl) hqe rfl rfl rfl
      ?_ ⟨htry, fun hk => by cases hk⟩ id trivial trivial htn
    intro r hr
    simp only [Pc.reqs, Option.some.injEq] at hr
    subst r
    exact hreq
  · split
    · next hd =>
      split
      · next hw =>
        subst hw
        refine h.takeAll 0 (hin hd rfl) (by decide) (fun hk => absurd hk (by decide)) htn id ?_
        refine hl.detached (fun a ha => (h.glob.queued a).mp ha) hqe.symm rfl (fun _ hs => hs)
          (fun _ hs _ => by cases hs) (fun _ => hbuilt) (fun hf => by cases hf) (fun _ hr => hr)
          ⟨n, rfl⟩ h.glob.chain trivial trivial
      · exact h.goto (hl.move rfl rfl rfl (fun _ hs => hs) (fun _ => hbuilt) (fun hf => by cases hf)
          (fun _ hr => hr) trivial trivial trivial) (by rw [hpc]; exact Iff.rfl)
    · next hd0 hd1 =>
      split
      · next hw =>
        subst hw
        have hanch := (hl.anchors q.entry hqe).1
        obtain ⟨ha, hd, hlk⟩ := join_tag (s.word - 1) hanch
        have hdec : data (s.word - 1) ≤ data s.word ∧ (Locked (s.word - 1) ↔ Locked s.word) := by
          simp only [data_eq, locked_iff] at hd0 hd1 ⊢
          omega
        refine h.push _ (by rw [hpc]; exact hqe) hst (by rw [hpc]; exact hbuilt)
          (by rw [hpc]; exact id) ha (hlk.trans hdec.2) (hd.trans_le hdec.1) ?_ id
          (hl.pushed hqe hqe rfl ⟨htry, fun hb => by cases hb⟩ rfl htn)
        intro hpo
        rw [hpo] at hd0
        exact hd0 (by decide)
      · refine h.setNext (by rw [hpc]; exact hqe) hst (by rw [hpc]; exact Iff.rfl) ?_
        have hm : Local (.barrier n) { s with word := s.word, pc := s.pc } v t
          (.attempt q s.word 0) :=
          hl.move rfl rfl rfl (fun _ hs => hs) (fun _ => hbuilt) (fun hf => by cases hf)
            (fun _ hr => hr) trivial
          trivial trivial
        exact { hm with taken := by rw [htn]; rfl, hold := trivial, counted := trivial }

theorem blocked_not_poisoned {g : Goal} {state : ℕ} (h : g.attempt state = .blocked)
    (hg : ∃ m, g = .lock m) : state ≠ POISONED_STATE := by
  obtain ⟨m, rfl⟩ := hg
  rintro rfl
  cases m <;> simp [Goal.attempt, tryLockInternal, tryShareInternal, waitInternal] at h
  all_goals
    revert h
    decide

theorem attemptStep_inv (h : Inv kind s v) {state spin : ℕ} (hpc : s.pc t = .attempt q state spin)
    (hin : q.goal = .arrive → data state = 1 → s.word = state → ¬Locked s.word) :
    Inv kind (attemptStep s t q state spin).2 (v.observe (attemptStep s t q state spin).1) := by
  have hd : Deciding (s.pc t) q := by rw [hpc]; exact deciding_attempt q state spin
  have hl := h.loc t
  have hreq := hl.reqs q hd.reqs
  have hstay : ∀ w i, Inv kind (s.goto t (.attempt q w i)) v := fun w i =>
    h.goto (hl.decide hd rfl rfl rfl rfl (by simp [Pc.built]) rfl (by simp [Pc.reqs]) trivial
      trivial trivial) (iff_of_false id hd.holds)
  unfold attemptStep
  split
  · next hg => exact countDown_inv h hpc hg (hin hg)
  · next hg =>
    split
    · next new hc =>
      split
      · next hw =>
        rw [← hw] at hc
        obtain ⟨h₁, h₂, -⟩ := attempt_cas h hreq.1 hc
        exact acquired_inv h hd h₁ h₂
      · exact hstay _ _
    · exact answered_inv h hd _
    · next hb =>
      split
      · exact hstay _ _
      · refine blocked_inv h hd fun hk => blocked_not_poisoned hb ?_
        obtain ⟨goal, via, entry⟩ := q
        subst hk
        cases goal with
        | lock m => exact ⟨m, rfl⟩
        | _ => exact absurd hreq.1 id

end
end Saa
