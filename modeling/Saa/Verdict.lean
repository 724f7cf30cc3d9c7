import Saa.Fifo

/-! # Which code an entry gets

An entry is bound to a result code long before the code is stored: by the thread that
detached it, or by the call that found the answer on its own. `Gets` follows the code
from there to the entry. -/
namespace Saa

open Word Lib.Linked Lib.Trace

/-- The code a thread gives to the entries it has detached. -/
def Pc.verdict : Pc → Option ℕ
  | .resolve _ r _ _ | .finalize _ _ r _ _ => some r
  | _ => none

/-- The entry was or will be resolved with the code `r`: its resolver carries the code, its
own call is about to store it, or it is stored. -/
def Gets (s : Cfg) (v : View) (a : Ptr) (r : ℕ) : Prop :=
  (∃ t, v.stat a = .taken t ∧ (s.pc t).verdict = some r) ∨
  (∃ t q, s.pc t = .settle q r ∧ q.entry = a) ∨
  (v.stat a).Resolved ∧ (s.state a).result = r

section
variable {kind : Kind} {s s' : Cfg} {v : View} {h : List Event} {t : Tid} {a : Ptr} {r : ℕ}
  {act : Action} {e : Event}

theorem Took.pushed (h : Took kind s v t act e s') (hq : (v.observe e).stat a = .queued) :
    v.stat a = .queued ∨ v.stat a = .idle := by
  rcases stat_queued hq with hq | ⟨u, op, rfl | rfl⟩
  · exact Or.inl hq
  · obtain ⟨-, -, ⟨q, hp, rfl⟩, -⟩ := h.effect
    have hl := h.inv.loc u
    rw [hp] at hl
    exact Or.inr (hl.stat _ (if_neg hl.fits.1))
  · obtain ⟨-, -, ⟨q, i, hp, rfl, hg⟩, -⟩ := h.effect
    have hl := h.inv.loc u
    rw [hp] at hl
    refine Or.inr (hl.stat _ (if_neg ?_))
    obtain ⟨hv | hv, -⟩ := arrive_fits (hl.reqs q rfl).1 hg <;> rw [hv] <;> simp

theorem Took.resolved (h : Took kind s v t act e s') (hres : (v.stat a).Resolved)
    (hu : (v.observe e).stat a ≠ .unlinked) (hi : (v.observe e).stat a ≠ .idle) :
    ((v.observe e).stat a).Resolved := by
  have hst : v.stat a ≠ .idle ∧ v.stat a ≠ .queued ∧ ∀ u, v.stat a ≠ .taken u := by
    rcases hres with hst | ⟨u, hst⟩ <;> rw [hst] <;> simp
  cases hst' : (v.observe e).stat a with
  | final => exact Or.inl rfl
  | answered u => exact Or.inr ⟨u, rfl⟩
  | unlinked => exact absurd hst' hu
  | idle => exact absurd hst' hi
  | queued =>
    rcases h.pushed hst' with hq | hq
    · exact absurd hq hst.2.1
    · exact absurd hq hst.1
  | taken u =>
    rcases stat_taken hst' with hq | hq
    · exact absurd hq (hst.2.2 u)
    · exact absurd ((h.inv.glob.queued a).mp hq) hst.2.1

theorem stat_ends (hi : (v.observe e).stat a = .idle) : v.stat a = .idle ∨
    (∃ x c, e = .consume x a c) ∨ (∃ x, e = .retry x a) ∨ ∃ x, e = .dropped x a := by
  cases e <;> simp only [View.observe, View.detach, Function.update_apply] at hi <;>
    (try split at hi) <;> simp_all

/-- The code of an entry is carried on by every step that does not end its registration,
if the resolvers keep their lists. -/
theorem Gets.carried (h : Took kind s v t act e s') (hg : Gets s v a r)
    (hu : v.stat a ≠ .queued → v.stat a ≠ .unlinked → (v.observe e).stat a ≠ .unlinked)
    (hi : (v.observe e).stat a = .idle → v.stat a = .idle)
    (hother : ∀ u, u ≠ t → (v.observe e).taken u = v.taken u)
    (hown : ∀ c, (s.pc t).verdict = some c → a ∈ v.taken t →
      (s'.pc t).verdict = some c ∧ a ∈ (v.observe e).taken t ∨ e = .setResult t a c)
    (hsettle : ∀ q c, s.pc t = .settle q c → e = .setResult t q.entry c) :
    Gets s' (v.observe e) a r := by
  have hset : e = .setResult t a r → Gets s' (v.observe e) a r := by
    rintro rfl
    refine Or.inr (Or.inr ⟨Or.inr ⟨t, by simp [View.observe]⟩, ?_⟩)
    exact (h.frame.set t a r rfl).2.1
  rcases hg with ⟨u, hst, hp⟩ | ⟨u, q, hp, rfl⟩ | ⟨hres, hr⟩
  · by_cases hut : u = t
    · subst hut
      rcases hown r hp ((h.inv.glob.taken u a).mpr hst) with ⟨hp', hm⟩ | he
      · exact Or.inl ⟨u, (h.inv'.glob.taken u a).mp hm, hp'⟩
      · exact hset he
    · refine Or.inl ⟨u, ?_, by rw [h.frame.pc u hut]; exact hp⟩
      rw [← h.inv'.glob.taken, hother u hut, h.inv.glob.taken]
      exact hst
  · by_cases hut : u = t
    · subst hut
      exact hset (hsettle q r hp)
    · exact Or.inr (Or.inl ⟨u, q, by rw [h.frame.pc u hut]; exact hp, rfl⟩)
  · have hst : v.stat a ≠ .idle ∧ v.stat a ≠ .queued ∧ v.stat a ≠ .unlinked := by
      rcases hres with hst | ⟨u, hst⟩ <;> rw [hst] <;> simp
    have hi' : (v.observe e).stat a ≠ .idle := fun hx => hst.1 (hi hx)
    refine Or.inr (Or.inr ⟨h.resolved hres (hu hst.2.1 hst.2.2) hi', ?_⟩)
    rw [h.frame.result a hst.1 hi' ?_]
    · exact hr
    rintro u c rfl
    rcases (h.frame.set u a c rfl).2.2.2 with hx | hx
    · exact hst.1 hx
    · rcases hres with hst | ⟨w, hst⟩ <;> rw [hst] at hx <;> cases hx

/-- Every resolver keeps its list and its code, so codes are carried on by every step. -/
theorem Took.gets (h : Took kind s v t act e s') (hg : Gets s v a r)
    (hi : (v.observe e).stat a = .idle → v.stat a = .idle) : Gets s' (v.observe e) a r := by
  refine hg.carried h h.unlinked hi (fun u hu => h.taken_other hu) ?_ ?_
  · intro c hc hm
    have hmv := h.move
    have hl := h.inv.loc t
    generalize s.pc t = p at hmv hc hl
    generalize s'.pc t = p' at hmv
    cases hmv with
    | gate _ hg =>
      cases hg with
      | woken hnil => rw [hnil] at hm; cases hm
      | woke hnil => rw [hnil] at hm; cases hm
      | _ => cases hc
    | own htry => rcases htry with rfl | ⟨_, _, rfl⟩ <;> cases hc
    | take htry => rcases htry with rfl | ⟨_, _, rfl⟩ <;> cases hc
    | @set cur c' n k =>
      cases hc
      by_cases hac : a = cur
      · exact Or.inr (by rw [hac])
      · refine Or.inl ⟨rfl, ?_⟩
        simp only [View.observe, Function.update_self]
        exact (List.mem_erase_of_ne hac).mpr hm
    | finalize => exact Or.inl ⟨hc, hm⟩
    | pass hnil => rw [hnil] at hm; cases hm
    | leave hnil => rw [hnil] at hm; cases hm
    | counted _ hnil => rw [hnil] at hm; cases hm
    | arrived _ hnil => rw [hnil] at hm; cases hm
    | poisoned =>
      rw [hl.taken_nil rfl] at hm
      cases hm
    | _ => cases hc
  · intro q c hp
    have hmv := h.move
    rw [hp] at hmv
    generalize s'.pc t = p' at hmv
    cases hmv with
    | gate _ hg => cases hg
    | own htry => rcases htry with hx | ⟨_, _, hx⟩ <;> cases hx
    | take htry => rcases htry with hx | ⟨_, _, hx⟩ <;> cases hx
    | settle => rfl

theorem finalize_alone (hi : Inv kind s (view h)) (hst : (view h).stat a = .answered t) :
    ∃ s' h', Solo kind t s h s' h' ∧ Inv kind s' (view h') ∧ (view h').stat a = .final ∧
      (s'.state a).result = (s.state a).result ∧ (view h').taken t = (view h).taken t ∧
      ∀ b nx c n k, s.pc t = .finalize b nx c n k → s'.pc t = .resolve nx c (n + 1) k := by
  have hans := ((hi.loc t).answering a).mpr hst
  cases hp : s.pc t with
  | finalize cur nx c n k =>
    rw [hp] at hans
    cases hans
    have hs : step kind s (.run t) = some (.finalize t a,
        (s.setFinalized a).goto t (.resolve nx c (n + 1) k)) := by
      simp [step, runStep, hp, finalizeStep]
    refine ⟨_, _, .step hs .done, hi.run (by simp [hp]) (by simp [hp]) hs, by simp [View.observe],
      ?_, rfl, ?_⟩
    · exact setFinalized_result s a a
    · intro b nx' c' n' k' hx
      cases hx
      rw [goto_pc_self]
  | settled q =>
    rw [hp] at hans
    cases hans
    have hs : step kind s (.run t) = some (.finalize t q.entry, if q.via = .pager then
        (s.setFinalized q.entry).leave t q
        else (s.setFinalized q.entry).goto t (.await q false)) := by
      simp [step, runStep, hp, settledStep]
    refine ⟨_, _, .step hs .done, hi.run (by simp [hp]) (by simp [hp]) hs, by simp [View.observe],
      ?_, rfl, ?_⟩
    · split
      · rw [leave_state]
        exact setFinalized_result s _ _
      · exact setFinalized_result s _ _
    · intro b nx' c' n' k' hx
      cases hx
  | _ =>
    rw [hp] at hans
    cases hans

theorem settle_alone {q : Req} (hi : Inv kind s (view h)) (hp : s.pc t = .settle q r) :
    ∃ s' h', Solo kind t s h s' h' ∧ (view h').stat q.entry = .final ∧
      (s'.state q.entry).result = r := by
  obtain ⟨-, -, hclear⟩ := hi.settling hp
  have hs : step kind s (.run t) = some (.setResult t q.entry r,
      (s.setResult q.entry r).goto t (.settled q)) := by simp [step, runStep, hp]
  have hst : (view (.setResult t q.entry r :: h)).stat q.entry = .answered t := by
    simp [View.observe]
  obtain ⟨s', h', hsolo, -, hfin, hres, -⟩ :=
    finalize_alone (hi.run (by simp [hp]) (by simp [hp]) hs) hst
  refine ⟨s', h', .step hs hsolo, hfin, ?_⟩
  rw [hres]
  simp [Cfg.setResult, EntryState.set, hclear, EntryState.clear]

/-- The thread that carries the code of an entry stores it when it runs on alone. -/
theorem Gets.delivered (hi : Inv kind s (view h)) (hg : Gets s (view h) a r) :
    ∃ t s' h', Solo kind t s h s' h' ∧ (view h').stat a = .final ∧ (s'.state a).result = r := by
  rcases hg with ⟨t, hst, hv⟩ | ⟨t, q, hp, rfl⟩ | ⟨hst | ⟨t, hst⟩, hres⟩
  · have hm := (hi.glob.taken t a).mpr hst
    cases hp : s.pc t with
    | resolve cur c n k =>
      rw [hp] at hv
      cases hv
      obtain ⟨s', h', hsolo, -, -, -, hall⟩ := resolve_alone hi hp
      obtain ⟨hs, hst'⟩ := hall.given a hm
      exact ⟨t, s', h', hsolo, hst', by rw [hs]⟩
    | finalize cur nx c n k =>
      rw [hp] at hv
      cases hv
      have hcur : (view h).stat cur = .answered t :=
        ((hi.loc t).answering cur).mp (by rw [hp]; rfl)
      obtain ⟨s₁, h₁, hsolo, hi₁, -, -, htk, hp₁⟩ := finalize_alone hi hcur
      obtain ⟨s', h', hrest, -, -, -, hall⟩ := resolve_alone hi₁ (hp₁ _ _ _ _ _ hp)
      rw [htk] at hall
      obtain ⟨hs, hst'⟩ := hall.given a hm
      exact ⟨t, s', h', hsolo.trans hrest, hst', by rw [hs]⟩
    | _ =>
      rw [hp] at hv
      cases hv
  · exact ⟨t, settle_alone hi hp⟩
  · exact ⟨0, s, h, .done, hst, hres⟩
  · obtain ⟨s', h', hsolo, -, hfin, hres', -⟩ := finalize_alone hi hst
    exact ⟨t, s', h', hsolo, hfin, hres'.trans hres⟩

end
end Saa
