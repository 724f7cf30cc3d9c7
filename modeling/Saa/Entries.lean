import Saa.Calls

/-! # Steps of a call on the entry it borrows

Making it pollable, answering it in place, consuming its result and giving it back. -/
namespace Saa

open Word Lib.Linked

section
variable {kind : Kind} {s : Cfg} {v : View} {t : Tid} {q : Req} {p : Pc} {a : Ptr}

theorem EntryOk.reslot {s' : Cfg} {v' : View} (h : EntryOk kind s v a) (hst : v'.stat a = v.stat a)
    (hse : v'.sets a = v.sets a) (hs : s'.state a = s.state a) (ho : s'.opcode a = s.opcode a)
    (halive : s'.slot a ≠ .none)
    (hpager : s'.slot a = .pager → IsAnchor a ∧ v.stat a ≠ .unlinked ∧
      (s'.pollable a = true ↔ v.stat a ≠ .idle) ∧ (v.stat a = .idle → s.state a = .clear)) :
    EntryOk kind s' v' a where
  anchors := by rw [hst]; exact h.anchors
  alive := fun _ => halive
  clear := by rw [hst, hs]; exact h.clear
  set := by rw [hst, hs]; exact h.set
  final := by rw [hst, hs]; exact h.final
  pagers := by rw [hst, hs]; exact hpager
  opcodes := by rw [hst, ho]; exact h.opcodes
  sets := by rw [hst, hse]; exact h.sets

theorem EntryOk.ofIdle (hst : v.stat a = .idle) (hse : v.sets a = 0)
    (hp : s.slot a = .pager → IsAnchor a ∧ s.pollable a = false ∧ s.state a = .clear) :
    EntryOk kind s v a := by
  constructor <;> simp [hst, hse, Stat.setCount]
  intro hs
  obtain ⟨h₁, h₂, h₃⟩ := hp hs
  exact ⟨h₁, by simp [h₂], h₃⟩

theorem Inv.stay {s' : Cfg} {v' : View} (h : Inv kind s v) (he : (s.pc t).entry = some a)
    (hoff : SameOff s s' a) (hslot : s'.slot = s.slot) (hpc : s'.pc = Function.update s.pc t p)
    (hqueue : v'.queue = v.queue) (hstat : ∀ b, b ≠ a → v'.stat b = v.stat b)
    (hsets : ∀ b, b ≠ a → v'.sets b = v.sets b)
    (hq : v'.stat a = .queued ↔ v.stat a = .queued)
    (htk : ∀ u, v'.stat a = .taken u ↔ v.stat a = .taken u) (htn : v'.taken = v.taken)
    (hans : ∀ u, u ≠ t → (v'.stat a = .answered u ↔ v.stat a = .answered u))
    (hlink : s'.next = s.next ∧ s'.prev = s.prev ∧ s'.opcode = s.opcode)
    (hok : EntryOk kind s' v' a) (hh : p.Holds ↔ (s.pc t).Holds) (hpe : p.entry = some a)
    (hst : p.stage.Admits t (v'.stat a))
    (hb : p.built = true →
      s'.state a = .clear ∧ s'.prev a = 0 ∧ (s'.opcode a).Fits kind)
    (hf : p.flagged = true → s'.pollable a = true)
    (hr : ∀ r, p.reqs = some r → r.Fits kind ∧ ¬r.goal.TooMany) (hfit : p.Fits kind)
    (ha : ∀ b, p.answering = some b ↔ v'.stat b = .answered t)
    (htp : p.takePtr = (s.pc t).takePtr) (hold : Hold kind s' v' p)
    (hc : Counted kind s' v' t p) : Inv kind s' v' := by
  have hl := h.loc t
  have hsl := (hl.slot a).mp he
  have hpt : s'.pc t = p := by rw [hpc, Function.update_self]
  refine h.onOwn hsl hoff (fun u hu => by rw [hpc, Function.update_of_ne hu]) hqueue hstat hsets
    hq htk htn (fun _ => by rw [hlink.1, hlink.2.1, hlink.2.2]; exact ⟨rfl, rfl, rfl⟩) hok ?_ hans
    (by rw [hpt]; exact hh) ?_
  · intro u hu
    rw [hslot, hsl]
    simpa using hu.symm
  · rw [hpt]
    exact {
      slot := fun b => by rw [hpe, ← he, hslot]; exact hl.slot b
      stat := fun b hb => by rw [hpe] at hb; cases hb; exact hst
      anchors := fun b hb => hl.anchors b (by rw [he, ← hpe]; exact hb)
      built := fun b hb' hbu => by rw [hpe] at hb'; cases hb'; exact hb hbu
      flagged := fun b hb' hfl => by rw [hpe] at hb'; cases hb'; exact hf hfl
      reqs := hr
      fits := hfit
      answering := ha
      taken := by rw [htn, htp, hlink.1]; exact hl.taken
      hold := hold
      counted := hc }

theorem Inv.give {s' : Cfg} {v' : View} (h : Inv kind s v) (he : (s.pc t).entry = some a)
    (hoff : SameOff s s' a) (hslot : s'.slot a = .none ∨ s'.slot a = .pager)
    (hpc : s'.pc = Function.update s.pc t .idle)
    (hqueue : v'.queue = v.queue) (hstat : ∀ b, b ≠ a → v'.stat b = v.stat b)
    (hsets : ∀ b, b ≠ a → v'.sets b = v.sets b)
    (hq : v'.stat a = .queued ↔ v.stat a = .queued)
    (htk : ∀ u, v'.stat a = .taken u ↔ v.stat a = .taken u) (htn : v'.taken = v.taken)
    (hans : ∀ u, u ≠ t → (v'.stat a = .answered u ↔ v.stat a = .answered u))
    (hna : ∀ b, v'.stat b ≠ .answered t)
    (hlink : s'.next = s.next ∧ s'.prev = s.prev ∧ s'.opcode = s.opcode)
    (hok : EntryOk kind s' v' a) (hh : ¬(s.pc t).Holds) (htp : (s.pc t).takePtr = 0) :
    Inv kind s' v' := by
  have hl := h.loc t
  have hpt : s'.pc t = .idle := by rw [hpc, Function.update_self]
  refine h.onOwn ((hl.slot a).mp he) hoff (fun u hu => by rw [hpc, Function.update_of_ne hu])
    hqueue hstat hsets hq htk htn
    (fun _ => by rw [hlink.1, hlink.2.1, hlink.2.2]; exact ⟨rfl, rfl, rfl⟩) hok ?_ hans
    (by rw [hpt]; exact iff_of_false id hh) ?_
  · intro u _
    rcases hslot with hs | hs <;> rw [hs] <;> simp
  · rw [hpt]
    refine .ofIdle (fun b => ?_) hna (by rw [htn]; exact hl.taken_nil htp)
    by_cases hb : b = a
    · subst b
      rcases hslot with hs | hs <;> rw [hs] <;> simp
    · rw [hoff.slot b hb]
      exact hl.not_used he hb

theorem pushedStep_inv (h : Inv kind s v) {retry : Bool} (hpc : s.pc t = .pushed q retry) :
    Inv kind (pushedStep s t q retry).2 (v.observe (pushedStep s t q retry).1) := by
  have hl := h.loc t
  rw [hpc] at hl
  have htry : q.via ≠ .tryOnly := hl.fits.1
  have hqe : q.held = some q.entry := if_neg htry
  have hst := hl.stat q.entry hqe
  have hpe : (s.pc t).entry = some q.entry := by rw [hpc]; exact hqe
  have hok := h.glob.entry q.entry
  have hanch := hl.anchors q.entry hqe
  simp only [pushedStep, View.observe]
  split
  · next hv =>
    rw [show Cfg.leave _ t q = _ by simp only [Cfg.leave, hv]; rfl]
    refine h.give hpe ⟨rfl, fun _ _ => rfl, fun _ _ => rfl, fun _ _ => rfl, fun _ _ => rfl,
      fun b hb => by simp [hb], fun b hb => by simp [hb]⟩ (Or.inr (by simp)) rfl rfl
      (fun _ _ => rfl) (fun _ _ => rfl) Iff.rfl (fun _ => Iff.rfl) rfl (fun _ _ => Iff.rfl)
      (hl.not_answered rfl) ⟨rfl, rfl, rfl⟩ ?_ (by rw [hpc]; exact id) (by rw [hpc]; rfl)
    exact hok.reslot rfl rfl rfl rfl (by simp)
      fun _ => ⟨hanch, hst.2, by simpa using hst.1, fun he => absurd he hst.1⟩
  · next hv =>
    have hvia : q.via = .sync ∨ q.via = .async := by
      cases hvia : q.via <;> simp_all
    refine h.stay hpe ⟨rfl, fun _ _ => rfl, fun _ _ => rfl, fun _ _ => rfl, fun _ _ => rfl,
      fun b hb => by simp [hb], fun _ _ => rfl⟩ rfl rfl rfl (fun _ _ => rfl) (fun _ _ => rfl)
      Iff.rfl (fun _ => Iff.rfl) rfl (fun _ _ => Iff.rfl) ⟨rfl, rfl, rfl⟩ ?_
      (by rw [hpc]; exact Iff.rfl) hqe hst (fun hb => by cases hb) (fun _ => by simp)
      (fun r hr => hl.reqs r hr) ⟨hvia, hl.fits.2⟩ (fun b => hl.answering b) (by rw [hpc]; rfl)
        trivial trivial
    have hsl := (hl.slot q.entry).mp hqe
    exact hok.reslot rfl rfl rfl rfl (by simp [hsl]) (by simp [hsl])

theorem settle_inv (h : Inv kind s v) {r : ℕ} (hpc : s.pc t = .settle q r) :
    Inv kind ((s.setResult q.entry r).goto t (.settled q))
      (v.observe (.setResult t q.entry r)) := by
  have hl := h.loc t
  rw [hpc] at hl
  have htry : q.via ≠ .tryOnly := hl.fits
  have hqe : q.held = some q.entry := if_neg htry
  have hst : v.stat q.entry = .idle := hl.stat q.entry hqe
  have hpe : (s.pc t).entry = some q.entry := by rw [hpc]; exact hqe
  have hsl := (hl.slot q.entry).mp hqe
  have htn := hl.taken_nil rfl
  have hse := h.glob.sets q.entry
  rw [hst] at hse
  obtain ⟨hclear, hprev, hcount⟩ := hl.built q.entry hqe rfl
  refine h.stay hpe ⟨rfl, fun _ _ => rfl, fun _ _ => rfl, fun _ _ => rfl,
    fun b hb => by simp [Cfg.setResult, hb], fun b hb => by simp [Cfg.setResult, hb],
    fun _ _ => rfl⟩ rfl rfl rfl (fun b hb => by simp [View.observe, hb])
    (fun b hb => by simp [View.observe, hb]) (by simp [View.observe, hst])
    (by simp [View.observe, hst]) ?_ ?_ ⟨rfl, rfl, rfl⟩ ?_ (by rw [hpc]; exact Iff.rfl) hqe
    (by simp [View.observe, Pc.stage, Stage.Admits]) (fun hb => by cases hb)
    (fun _ => by simp [Cfg.setResult]) (fun r hr => hl.reqs r hr) htry ?_ (by rw [hpc]; rfl)
    trivial trivial
  · simp only [View.observe, htn, List.erase_nil]
    rw [← htn, Function.update_eq_self]
  · intro u hu
    simpa [View.observe, hst] using hu.symm
  · constructor <;> simp [View.observe, Cfg.setResult, EntryState.set, hclear, EntryState.clear,
      hl.anchors _ hqe, hsl, hcount, hse, Stat.setCount]
  · intro b
    by_cases hb : b = q.entry
    · subst b; simp [View.observe, Pc.answering]
    · simpa [View.observe, Pc.answering, hb, Ne.symm hb] using hl.not_answered rfl b

theorem settledStep_inv (h : Inv kind s v) (hpc : s.pc t = .settled q) :
    Inv kind (settledStep s t q).2 (v.observe (settledStep s t q).1) := by
  have hl := h.loc t
  rw [hpc] at hl
  have htry : q.via ≠ .tryOnly := hl.fits
  have hqe : q.held = some q.entry := if_neg htry
  have hst : v.stat q.entry = .answered t := hl.stat q.entry hqe
  have hpe : (s.pc t).entry = some q.entry := by rw [hpc]; exact hqe
  have hsl := (hl.slot q.entry).mp hqe
  have hse := h.glob.sets q.entry
  rw [hst] at hse
  have hset := (h.glob.set _ _ hst).1
  have hcount := h.glob.opcodes q.entry (by simp [hst])
  have hflag := hl.flagged q.entry hqe rfl
  have hna : ∀ b, (v.observe (.finalize t q.entry)).stat b ≠ .answered t := by
    intro b
    by_cases hb : b = q.entry
    · subst b; simp [View.observe]
    · have := (hl.answering b).not.mp (by simpa [Pc.answering] using Ne.symm hb)
      simpa [View.observe, hb] using this
  simp only [settledStep]
  split
  · next hv =>
    rw [show Cfg.leave _ t q = _ by simp only [Cfg.leave, hv]; rfl]
    refine h.give hpe ⟨rfl, fun _ _ => rfl, fun _ _ => rfl, fun _ _ => rfl,
      fun b hb => by simp [Cfg.setFinalized, hb], fun _ _ => rfl,
      fun b hb => by simp [Cfg.setFinalized, hb]⟩ (Or.inr (by simp)) rfl rfl
      (fun b hb => by simp [View.observe, hb]) (fun _ _ => rfl) (by simp [View.observe, hst])
      (by simp [View.observe, hst]) rfl ?_ hna ⟨rfl, rfl, rfl⟩ ?_ (by rw [hpc]; exact id)
      (by rw [hpc]; rfl)
    · intro u hu
      simpa [View.observe, hst] using hu.symm
    · constructor <;> simp [View.observe, Cfg.setFinalized, hset, hl.anchors _ hqe, hcount, hse,
        Stat.setCount, hflag]
  · next hv =>
    have hvia : q.via = .sync ∨ q.via = .async := by
      cases hvia : q.via <;> simp_all
    refine h.stay hpe ⟨rfl, fun _ _ => rfl, fun _ _ => rfl, fun _ _ => rfl,
      fun b hb => by simp [Cfg.setFinalized, hb], fun _ _ => rfl, fun _ _ => rfl⟩ rfl rfl rfl
      (fun b hb => by simp [View.observe, hb]) (fun _ _ => rfl) (by simp [View.observe, hst])
      (by simp [View.observe, hst]) rfl ?_ ⟨rfl, rfl, rfl⟩ ?_ (by rw [hpc]; exact Iff.rfl) hqe
      (by simp [View.observe, Pc.stage, Stage.Admits]) (fun hb => by cases hb)
      (fun _ => hflag) (fun r hr => hl.reqs r hr) ⟨hvia, fun hb => by cases hb⟩ ?_
        (by rw [hpc]; rfl) trivial trivial
    · intro u hu
      simpa [View.observe, hst] using hu.symm
    · constructor <;> simp [View.observe, Cfg.setFinalized, hset, hl.anchors _ hqe, hcount, hse,
        Stat.setCount, hsl]
    · exact fun b => iff_of_false (by simp [Pc.answering]) (hna b)

theorem Global.final_of (h : Global kind s v) (hi : v.stat a ≠ .idle)
    (hf : (s.state a).finalized = true) : v.stat a = .final := by
  have hnc : s.state a ≠ .clear := by
    intro he
    rw [he] at hf
    cases hf
  cases hst : v.stat a with
  | idle => exact absurd hst hi
  | queued => exact absurd (h.clear a (Or.inl hst)) hnc
  | taken u => exact absurd (h.clear a (Or.inr (Or.inl ⟨u, hst⟩))) hnc
  | unlinked => exact absurd (h.clear a (Or.inr (Or.inr hst))) hnc
  | answered u =>
    rw [(h.set a u hst).2] at hf
    cases hf
  | final => rfl

theorem Inv.consume (h : Inv kind s v) (r : ℕ) (he : (s.pc t).entry = some a)
    (hst : v.stat a = .final) (hh : ¬(s.pc t).Holds) (ha : (s.pc t).answering = none)
    (htp : (s.pc t).takePtr = 0) :
    Inv kind ((s.consume a).goto t (.finish a)) (v.observe (.consume t a r)) := by
  have hl := h.loc t
  have hsl := (hl.slot a).mp he
  refine h.stay he ⟨rfl, fun _ _ => rfl, fun _ _ => rfl, fun _ _ => rfl,
    fun b hb => by simp [Cfg.consume, hb], fun b hb => by simp [Cfg.consume, hb],
    fun _ _ => rfl⟩ rfl rfl rfl (fun b hb => by simp [View.observe, hb])
    (fun b hb => by simp [View.observe, hb]) (by simp [View.observe, hst])
    (by simp [View.observe, hst]) rfl (by simp [View.observe, hst]) ⟨rfl, rfl, rfl⟩
    (.ofIdle (by simp [View.observe]) (by simp [View.observe]) (by simp [Cfg.consume, hsl]))
    (iff_of_false id hh) rfl (by simp [View.observe, Pc.stage, Stage.Admits])
    (fun hb => by cases hb) (fun hb => by cases hb) (fun _ hr => by cases hr) trivial ?_ htp.symm
    trivial trivial
  intro b
  refine iff_of_false (by simp [Pc.answering]) ?_
  by_cases hb : b = a
  · subst b; simp [View.observe]
  · simpa [View.observe, hb] using hl.not_answered ha b

theorem Inv.free {s' : Cfg} (h : Inv kind s v) (hpc : s.pc t = .finish a)
    (hoff : SameOff s s' a) (hslot : s'.slot a = .none)
    (hpc' : s'.pc = Function.update s.pc t .idle)
    (hlink : s'.next = s.next ∧ s'.prev = s.prev ∧ s'.opcode = s.opcode) :
    Inv kind s' (v.observe (.dropped t a)) := by
  have hl := h.loc t
  rw [hpc] at hl
  have hst := hl.stat a rfl
  have hno : v.stat a ≠ .queued ∧ (∀ u, v.stat a ≠ .taken u) ∧ ∀ u, v.stat a ≠ .answered u := by
    rcases hst with hst | hst | hst <;> simp [hst]
  refine h.give (by rw [hpc]; rfl) hoff (Or.inl hslot) hpc' rfl
    (fun b hb => by simp [View.observe, hb]) (fun b hb => by simp [View.observe, hb])
    (iff_of_false (by simp [View.observe]) hno.1)
    (fun u => iff_of_false (by simp [View.observe]) (hno.2.1 u)) rfl
    (fun u _ => iff_of_false (by simp [View.observe]) (hno.2.2 u)) ?_ hlink
    (.ofIdle (by simp [View.observe]) (by simp [View.observe]) (by simp [hslot]))
    (by rw [hpc]; exact id) (by rw [hpc]; rfl)
  intro b
  by_cases hb : b = a
  · subst b; simp [View.observe]
  · simpa [View.observe, hb] using hl.not_answered rfl b

theorem finishStep_inv (h : Inv kind s v) (hpc : s.pc t = .finish a) :
    Inv kind (finishStep s t a).2 (v.observe (finishStep s t a).1) :=
  h.free hpc ⟨rfl, fun _ _ => rfl, fun _ _ => rfl, fun _ _ => rfl, fun _ _ => rfl,
    fun b hb => by simp [finishStep, hb], fun b hb => by simp [finishStep, hb]⟩
    (by simp [finishStep]) rfl ⟨rfl, rfl, rfl⟩

theorem observe_consume_dropped (v : View) (t : Tid) (a : Ptr) (r : ℕ) :
    (v.observe (.consume t a r)).observe (.dropped t a) = v.observe (.consume t a r) := by
  simp [View.observe]

theorem awaitStep_inv (h : Inv kind s v) {retry : Bool} (hpc : s.pc t = .await q retry) :
    Inv kind (awaitStep s t q retry).2 (v.observe (awaitStep s t q retry).1) := by
  have hl := h.loc t
  rw [hpc] at hl
  have hvia : q.via = .sync ∨ q.via = .async := hl.fits.1
  have htry : q.via ≠ .tryOnly := by rcases hvia with hv | hv <;> rw [hv] <;> simp
  have hqe : q.held = some q.entry := if_neg htry
  have hlive := hl.stat q.entry hqe
  unfold awaitStep
  split
  · next hf =>
    have hst := h.glob.final_of hlive.1 hf
    have hc := h.consume (s.state q.entry).result (by rw [hpc]; exact hqe) hst
      (by rw [hpc]; exact id) (by rw [hpc]; rfl) (by rw [hpc]; rfl)
    have hpc' := goto_pc_self (s.consume q.entry) t (.finish q.entry)
    cases retry with
    | true =>
      have hcon : Inv kind ((((s.consume q.entry).goto t (.finish q.entry)).construct q.entry
          (.barrier false) true).goto t (.start q))
          (v.observe (.consume t q.entry (s.state q.entry).result)) :=
        hc.construct (by rw [hpc']; rfl) (by simp [View.observe])
          (fun _ => by simp [Cfg.consume])
        (arrive_fits (hl.reqs q rfl).1 (hl.fits.2 rfl)).2 (by rw [hpc']; exact id)
          (by rw [hpc']; rfl) hqe rfl rfl
        rfl (fun r hr => hl.reqs r hr) trivial id trivial trivial (hl.taken_nil rfl)
      simpa [Cfg.construct, Cfg.goto, View.observe] using hcon
    | false =>
      have hfree : Inv kind ((s.consume q.entry).leave t q)
          ((v.observe (.consume t q.entry (s.state q.entry).result)).observe
            (.dropped t q.entry)) := hc.free hpc' ?_ ?_ ?_ ?_
      · rw [observe_consume_dropped] at hfree
        simpa using hfree
      all_goals
        rcases hvia with hv | hv <;> simp only [Cfg.leave, hv]
      · exact ⟨rfl, fun _ _ => rfl, fun _ _ => rfl, fun _ _ => rfl, fun _ _ => rfl,
          fun _ _ => rfl, fun b hb => by simp [hb]⟩
      · exact ⟨rfl, fun _ _ => rfl, fun _ _ => rfl, fun _ _ => rfl, fun _ _ => rfl,
          fun _ _ => rfl, fun b hb => by simp [hb]⟩
      · simp
      · simp
      · simp [Cfg.goto]
      · simp [Cfg.goto]
      · exact ⟨rfl, rfl, rfl⟩
      · exact ⟨rfl, rfl, rfl⟩
  · exact h

theorem gateDropStep_inv (h : Inv kind s v) (hpc : s.pc t = .gateDrop a) :
    Inv kind (gateDropStep s t a).2 (v.observe (gateDropStep s t a).1) := by
  have hl := h.loc t
  rw [hpc] at hl
  unfold gateDropStep
  split
  · next hf =>
    exact h.consume _ (by rw [hpc]; rfl) (h.glob.final_of (hl.stat a rfl).1 hf)
      (by rw [hpc]; exact id) (by rw [hpc]; rfl) (by rw [hpc]; rfl)
  · exact h.goto (hl.move rfl rfl rfl (fun _ hs => hs) (fun hb => by cases hb)
      (fun hb => by cases hb) (fun _ hr => by cases hr) ⟨hl.fits, Or.inr ⟨a, rfl⟩⟩ trivial trivial)
      (by rw [hpc]; exact Iff.rfl)

theorem acknowledgeStep_inv (h : Inv kind s v) (hpc : s.pc t = .acknowledge a) :
    Inv kind (acknowledgeStep s t a).2 (v.observe (acknowledgeStep s t a).1) := by
  have hl := h.loc t
  rw [hpc] at hl
  unfold acknowledgeStep
  split
  · next hf =>
    exact h.consume _ (by rw [hpc]; rfl) (h.glob.final_of (hl.stat a rfl).1 hf)
      (by rw [hpc]; exact id) (by rw [hpc]; rfl) (by rw [hpc]; rfl)
  · exact h

theorem Inv.borrow {s' : Cfg} (h : Inv kind s v) (hidle : s.pc t = .idle)
    (hun : ∀ u, s.slot a ≠ .used u) (hoff : SameOff s s' a) (hslot : s'.slot a = .used t)
    (hpc : s'.pc = Function.update s.pc t p)
    (hlink : v.stat a = .queued ∨ (∃ u, v.stat a = .taken u) →
      s'.next a = s.next a ∧ s'.prev a = s.prev a ∧ s'.opcode a = s.opcode a)
    (hok : EntryOk kind s' v a) (hpe : p.entry = some a) (hanch : IsAnchor a)
    (hst : p.stage.Admits t (v.stat a))
    (hb : p.built = true →
      s'.state a = .clear ∧ s'.prev a = 0 ∧ (s'.opcode a).Fits kind)
    (hf : p.flagged = false) (hr : ∀ r, p.reqs = some r → r.Fits kind ∧ ¬r.goal.TooMany)
    (hfit : p.Fits kind) (ha : p.answering = none) (htp : p.takePtr = 0) (hp : ¬p.Holds)
    (hold : Hold kind s' v p) (hc : Counted kind s' v t p) : Inv kind s' v := by
  have hl := h.loc t
  rw [hidle] at hl
  have hpt : s'.pc t = p := by rw [hpc, Function.update_self]
  refine h.onEntry a hoff (fun u hu => by rw [hpc, Function.update_of_ne hu]) rfl (fun _ _ => rfl)
    (fun _ _ => rfl) Iff.rfl (fun _ _ => Iff.rfl) (h.glob.taken t) (fun _ _ => rfl) hlink hok ?_
    (fun _ _ => Iff.rfl) (fun u _ hs => absurd hs (hun u))
    (by rw [hpt, hidle]; exact iff_of_false hp id) ?_
  · intro u hu
    rw [hslot]
    exact iff_of_false (by simpa using hu.symm) (hun u)
  · rw [hpt]
    exact {
      slot := by
        intro b
        rw [hpe]
        by_cases hba : b = a
        · subst b; simp [hslot]
        · rw [hoff.slot b hba]
          exact iff_of_false (by simpa using Ne.symm hba) (hl.none_used rfl b)
      stat := fun b hb => by rw [hpe] at hb; cases hb; exact hst
      anchors := fun b hb => by rw [hpe] at hb; cases hb; exact hanch
      built := fun b hb' hbu => by rw [hpe] at hb'; cases hb'; exact hb hbu
      flagged := fun b _ hfl => by rw [hf] at hfl; cases hfl
      reqs := hr
      fits := hfit
      answering := fun b => by rw [ha]; exact hl.answering b
      taken := by rw [htp, hl.taken_nil rfl]; rfl
      hold := hold
      counted := hc }

theorem Inv.touch {s' : Cfg} {v' : View} (h : Inv kind s v) (hidle : s.pc t = .idle)
    (hsl : s.slot a = .pager) (hoff : SameOff s s' a)
    (hslot : s'.slot a = .pager ∨ s'.slot a = .none)
    (hpc : s'.pc = s.pc) (hst : v.stat a = .final ∨ v.stat a = .idle) (hst' : v'.stat a = .idle)
    (hqueue : v'.queue = v.queue) (hstat : ∀ b, b ≠ a → v'.stat b = v.stat b)
    (hsets : ∀ b, b ≠ a → v'.sets b = v.sets b) (htn : v'.taken = v.taken)
    (hok : EntryOk kind s' v' a) : Inv kind s' v' := by
  have hl := h.loc t
  rw [hidle] at hl
  have hno : v.stat a ≠ .queued ∧ (∀ u, v.stat a ≠ .taken u) ∧ ∀ u, v.stat a ≠ .answered u := by
    rcases hst with hst | hst <;> simp [hst]
  have hun : ∀ u, s'.slot a ≠ .used u := by
    intro u
    rcases hslot with hs | hs <;> simp [hs]
  refine h.onEntry (t := t) a hoff (fun u _ => by rw [hpc]) hqueue hstat hsets
    (iff_of_false (by simp [hst']) hno.1) (fun u _ => iff_of_false (by simp [hst']) (hno.2.1 u))
    ?_ (fun u _ => by rw [htn]) ?_ hok (fun u _ => iff_of_false (hun u) (by simp [hsl]))
    (fun u _ => iff_of_false (by simp [hst']) (hno.2.2 u))
      (fun u _ hs => by rw [hsl] at hs; cases hs)
    (by rw [hpc]) ?_
  · intro b
    rw [htn, h.glob.taken]
    by_cases hb : b = a
    · subst b; exact iff_of_false (hno.2.1 t) (by simp [hst'])
    · rw [hstat b hb]
  · rintro (hs | ⟨u, hs⟩)
    · exact absurd hs hno.1
    · exact absurd hs (hno.2.1 u)
  · rw [hpc, hidle]
    refine .ofIdle (fun b => ?_) (fun b => ?_) (by rw [htn]; exact hl.taken_nil rfl)
    · by_cases hb : b = a
      · subst b; exact hun t
      · rw [hoff.slot b hb]; exact hl.none_used rfl b
    · by_cases hb : b = a
      · subst b; simp [hst']
      · rw [hstat b hb]; exact hl.not_answered rfl b

theorem Global.idle_of_none (h : Global kind s v) (hs : s.slot a = .none) : v.stat a = .idle := by
  by_contra hi
  exact h.alive a hi hs

theorem Global.idle_of_unpolled (h : Global kind s v) (hs : s.slot a = .pager)
    (hp : s.pollable a = false) : v.stat a = .idle := by
  by_contra hi
  rw [(h.pagers a hs).2.2.1.mpr hi] at hp
  cases hp

theorem Inv.borrowFresh (h : Inv kind s v) (hidle : s.pc t = .idle)
    (hreq : q.Fits kind ∧ ¬q.goal.TooMany) (htry : q.via ≠ .tryOnly) (hanch : IsAnchor q.entry)
    (hun : ∀ u, s.slot q.entry ≠ .used u) (hst : v.stat q.entry = .idle) (had : Bool)
    (hclear : had = true → s.state q.entry = .clear) :
    Inv kind (({ s with slot := Function.update s.slot q.entry (.used t) }.construct
      q.entry q.goal.opcode had).goto t (.start q)) v := by
  have hoff := construct_sameOff { s with slot := Function.update s.slot q.entry (.used t) }
    q.entry q.goal.opcode had
  obtain ⟨hprev, hop, hstate⟩ := construct_fresh
    { s with slot := Function.update s.slot q.entry (.used t) } q.entry q.goal.opcode had hclear
  have hse := h.glob.sets q.entry
  rw [hst] at hse
  refine h.borrow (p := .start q) hidle hun ⟨hoff.word, hoff.next, hoff.prev, hoff.opcode,
    hoff.state, hoff.pollable, fun b hb => by simp [construct_slot, hb]⟩
    (by simp [construct_slot])
    (by simp [Cfg.goto, construct_pc]) ?_ (.ofIdle hst hse (by simp [construct_slot]))
    (if_neg htry) hanch hst (fun _ => ⟨hstate, hprev, ?_⟩) rfl ?_ trivial rfl rfl id trivial
    trivial
  · rintro (hs | ⟨u, hs⟩) <;> rw [hst] at hs <;> cases hs
  · rw [goto_opcode, hop]
    exact opcode_fits hreq.1 hreq.2
  · intro r hr
    cases hr
    exact hreq

theorem Inv.borrowBare (h : Inv kind s v) (hidle : s.pc t = .idle)
    (hreq : q.Fits kind ∧ ¬q.goal.TooMany) (hvia : q.via = .sync ∨ q.via = .async)
    (hearly : q.goal.constructsEarly = false) (hanch : IsAnchor q.entry)
    (hsl : s.slot q.entry = .none) :
    Inv kind ({ s with slot := Function.update s.slot q.entry (.used t) }.goto t (.start q)) v := by
  have hst := h.glob.idle_of_none hsl
  have hse := h.glob.sets q.entry
  rw [hst] at hse
  have htry : q.via ≠ .tryOnly := by rcases hvia with hv | hv <;> rw [hv] <;> simp
  refine h.borrow hidle (by simp [hsl]) ⟨rfl, fun _ _ => rfl, fun _ _ => rfl, fun _ _ => rfl,
    fun _ _ => rfl, fun _ _ => rfl, fun b hb => by simp [hb]⟩ (by simp) rfl
    (fun _ => ⟨rfl, rfl, rfl⟩) (.ofIdle hst hse (by simp)) (if_neg htry) hanch hst ?_ rfl ?_
    trivial rfl rfl id trivial trivial
  · intro hb
    rcases hvia with hv | hv <;> simp [Pc.built, hv, hearly] at hb
  · intro r hr
    cases hr
    exact hreq

theorem Inv.enter (h : Inv kind s v) (hidle : s.pc t = .idle) (hpe : p.entry = none)
    (ha : p.answering = none) (htp : p.takePtr = 0) (hp : ¬p.Holds)
    (hr : ∀ r, p.reqs = some r → r.Fits kind ∧ ¬r.goal.TooMany) (hfit : p.Fits kind)
    (hold : Hold kind (s.goto t p) v p) (hc : Counted kind (s.goto t p) v t p) :
    Inv kind (s.goto t p) v := by
  have hl := h.loc t
  rw [hidle] at hl
  refine h.goto ?_ (by rw [hidle]; exact iff_of_false hp id)
  exact {
    slot := fun b => by rw [hpe]; exact hl.slot b
    stat := fun b hb => by rw [hpe] at hb; cases hb
    anchors := fun b hb => by rw [hpe] at hb; cases hb
    built := fun b hb => by rw [hpe] at hb; cases hb
    flagged := fun b hb => by rw [hpe] at hb; cases hb
    reqs := hr
    fits := hfit
    answering := fun b => by rw [ha]; exact hl.answering b
    taken := by rw [htp]; exact hl.taken
    hold := hold
    counted := hc }

theorem acquireCall_inv (h : Inv kind s v) (hidle : s.pc t = .idle) (hfit : q.Fits kind)
    {e : Event} {s' : Cfg} (hs : acquireCall s t q = some (e, s')) :
    Inv kind s' (v.observe e) := by
  cases acquireCall_begun hs with
  | refused => exact h
  | tryOnly htoo hv =>
    refine h.enter hidle (if_pos hv) rfl rfl id ?_ trivial trivial trivial
    intro r hr
    cases hr
    exact ⟨hfit, htoo⟩
  | bare htoo hvia hearly hanch hsl =>
    exact h.borrowBare hidle ⟨hfit, htoo⟩ hvia hearly hanch hsl
  | fresh htoo htry hanch hor =>
    rcases hor with ⟨hsl, rfl⟩ | ⟨hsl, hpoll⟩
    · exact h.borrowFresh hidle ⟨hfit, htoo⟩ htry hanch (by simp [hsl]) (h.glob.idle_of_none hsl)
        false (fun hf => by cases hf)
    · have hst := h.glob.idle_of_unpolled hsl hpoll
      exact h.borrowFresh hidle ⟨hfit, htoo⟩ htry hanch (by simp [hsl]) hst _
        fun _ => (h.glob.pagers _ hsl).2.2.2 hst

theorem pollCall_inv (h : Inv kind s v) (hidle : s.pc t = .idle) {e : Event} {s' : Cfg}
    (hs : pollCall s t a = some (e, s')) : Inv kind s' (v.observe e) := by
  unfold pollCall at hs
  split at hs
  swap
  · cases hs
  next hsl =>
  split at hs
  · next hf =>
    cases hs
    obtain ⟨hanch, -, hpoll, -⟩ := h.glob.pagers a hsl
    have hst := h.glob.final_of (hpoll.mp hf.1) hf.2
    exact h.touch hidle hsl ⟨rfl, fun _ _ => rfl, fun _ _ => rfl, fun _ _ => rfl,
      fun b hb => by simp [Cfg.consume, hb], fun b hb => by simp [Cfg.consume, hb],
      fun _ _ => rfl⟩ (Or.inl hsl) rfl (Or.inl hst) (by simp [View.observe]) rfl
      (fun b hb => by simp [View.observe, hb]) (fun b hb => by simp [View.observe, hb]) rfl
      (.ofIdle (by simp [View.observe]) (by simp [View.observe]) (by simp [Cfg.consume, hanch]))
  · cases hs
    exact h

theorem dropPc_spec (kind : Kind) (a : Ptr) :
    (kind.dropPc a).entry = some a ∧ (kind.dropPc a).stage = .live ∧
    (kind.dropPc a).answering = none ∧ (kind.dropPc a).takePtr = 0 ∧
    (kind.dropPc a).built = false ∧ (kind.dropPc a).flagged = false ∧
    (kind.dropPc a).reqs = none ∧ (kind.dropPc a).Fits kind ∧ ¬(kind.dropPc a).Holds := by
  cases kind <;> simp [Kind.dropPc, Pc.entry, Pc.stage, Pc.answering, Pc.takePtr, Pc.built,
    Pc.flagged, Pc.reqs, Pc.Fits, Pc.Holds]

theorem dropPc_hold (k kind : Kind) (s : Cfg) (v : View) (t : Tid) (a : Ptr) :
    Hold kind s v (k.dropPc a) ∧ Counted kind s v t (k.dropPc a) := by
  cases k <;> exact ⟨trivial, trivial⟩

theorem dropCall_inv (h : Inv kind s v) (hidle : s.pc t = .idle) {e : Event} {s' : Cfg}
    (hs : dropCall kind s t a = some (e, s')) : Inv kind s' (v.observe e) := by
  unfold dropCall at hs
  split at hs
  swap
  · cases hs
  next hsl =>
  obtain ⟨hanch, hnu, hpoll, hclear⟩ := h.glob.pagers a hsl
  split at hs
  · next hf =>
    cases hs
    have hi := hpoll.mp hf
    obtain ⟨h₁, h₂, h₃, h₄, h₅, h₆, h₇, h₈, h₉⟩ := dropPc_spec kind a
    exact h.borrow hidle (by simp [hsl]) ⟨rfl, fun _ _ => rfl, fun _ _ => rfl, fun _ _ => rfl,
      fun _ _ => rfl, fun _ _ => rfl, fun b hb => by simp [hb]⟩ (by simp) rfl
      (fun _ => ⟨rfl, rfl, rfl⟩)
      ((h.glob.entry a).reslot rfl rfl rfl rfl (by simp) (by simp)) h₁ hanch
      (by rw [h₂]; exact ⟨hi, hnu⟩) (fun hb => by rw [h₅] at hb; cases hb) h₆
      (fun r hr => by rw [h₇] at hr; cases hr) h₈ h₃ h₄ h₉ (dropPc_hold _ _ _ _ t _).1
        (dropPc_hold _ _ _ _ t _).2
  · next hnp =>
    cases hs
    have hst : v.stat a = .idle := by
      by_contra hi
      exact hnp (hpoll.mpr hi)
    exact h.touch hidle hsl ⟨rfl, fun _ _ => rfl, fun _ _ => rfl, fun _ _ => rfl,
      fun _ _ => rfl, fun _ _ => rfl, fun b hb => by simp [hb]⟩ (Or.inr (by simp)) rfl
      (Or.inr hst) (by simp [View.observe]) rfl (fun b hb => by simp [View.observe, hb])
      (fun b hb => by simp [View.observe, hb]) rfl
      (.ofIdle (by simp [View.observe]) (by simp [View.observe]) (by simp))

theorem cancelStep_inv (h : Inv kind s v) {e : Event} {s' : Cfg}
    (hs : cancelStep kind s t = some (e, s')) : Inv kind s' (v.observe e) := by
  unfold cancelStep at hs
  split at hs
  swap
  · cases hs
  next q retry hpc =>
  have hl := h.loc t
  rw [hpc] at hl
  split at hs
  swap
  · cases hs
  next hv =>
  have hqe : q.held = some q.entry := if_neg (by rw [hv]; simp)
  rw [if_pos (hl.flagged q.entry hqe rfl)] at hs
  cases hs
  obtain ⟨h₁, h₂, h₃, h₄, h₅, h₆, h₇, h₈, h₉⟩ := dropPc_spec kind q.entry
  exact h.goto (hl.move (h₁.trans hqe.symm) h₃ h₄ (fun _ hs => by rw [h₂]; exact hs)
    (fun hb => by rw [h₅] at hb; cases hb) (fun hb => by rw [h₆] at hb; cases hb)
    (fun r hr => by rw [h₇] at hr; cases hr) h₈ (dropPc_hold _ _ _ _ t _).1
      (dropPc_hold _ _ _ _ t _).2)
    (by rw [hpc]; exact iff_of_false h₉ id)

theorem callStep_inv (h : Inv kind s v) {op : Op} {e : Event} {s' : Cfg}
    (hs : callStep kind s t op = some (e, s')) : Inv kind s' (v.observe e) := by
  unfold callStep at hs
  split at hs
  · cases hs
  next hidle =>
  rw [not_not] at hidle
  split at hs
  · split at hs
    · next hfit => exact acquireCall_inv h hidle hfit hs
    · cases hs
  · exact pollCall_inv h hidle hs
  · exact dropCall_inv h hidle hs
  case h_9 =>
    split at hs
    · next hc =>
      cases hs
      exact h.enter hidle rfl rfl rfl id (fun _ hr => by cases hr)
        (Or.inr ⟨_, _, rfl, rfl, hc⟩) trivial trivial
    · cases hs
      exact h
  case h_15 => cases hs
  all_goals
    cases hs
    exact h.enter hidle rfl rfl rfl id (fun _ hr => by cases hr) (by simp [Pc.Fits]) trivial trivial

end
end Saa
