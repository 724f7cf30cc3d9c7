import Saa.Ledger

/-! # The ledger of entries in whole runs

An entry is in the ledger exactly when its result says that it acquired something, from
the step that adds its count to the word to the step that consumes or releases it. -/
namespace Saa

open Word Lib.Linked Lib.Trace

section
variable {kind : Kind} {s s' : Cfg} {l : Ledger} {t u : Tid} {a : Ptr} {act : Action}
  {e : Event} {p : Pc} {k : After}

theorem after_entry (h : p.after = some k) : p.entry = k.entry ∧ p.stage = k.stage ∧
    p.reqs = none := by
  cases p with
  | resolve cur r n j =>
    cases j with
    | pass | leave =>
      cases h
      exact ⟨rfl, rfl, rfl⟩
    | _ => cases h
  | finalize cur nx r n j =>
    cases j with
    | pass | leave =>
      cases h
      exact ⟨rfl, rfl, rfl⟩
    | _ => cases h
  | dropLoop b state =>
    simp only [Pc.after] at h
    split at h
    · cases h
    · next hz =>
      cases h
      rw [not_or, not_not] at hz
      exact ⟨rfl, if_pos hz.2, rfl⟩
  | walk | relink | back | tailReset | update | add | complete | finish =>
    cases h
    exact ⟨rfl, rfl, rfl⟩
  | _ => cases h

theorem Trying.not_after {q : Req} (h : Trying p q) (hk : p.after = some k) : False := by
  rcases h with rfl | ⟨state, i, rfl⟩ <;> cases hk

theorem stat_idle {v : View} (h : (v.observe e).stat a = .idle) : v.stat a = .idle ∨
    e.Removes a ∨ ∃ t, e = .retry t a := by
  cases e <;> simp only [View.observe, View.detach, Function.update_apply] at h <;>
    (try split at h) <;> simp_all [Event.Removes]

theorem Took.taken_other {v : View} (h : Took kind s v t act e s') (hu : u ≠ t) :
    (v.observe e).taken u = v.taken u := by
  have hm := h.move
  generalize s.pc t = p at hm
  generalize s'.pc t = p' at hm
  cases hm with
  | gate _ hg =>
    cases hg with
    | wakeAll => exact Function.update_of_ne hu _ _
    | _ => rfl
  | last | settle | writeBack | poisonFast | poison | cut | tailReset | tailCut | set =>
    exact Function.update_of_ne hu _ _
  | _ => rfl

theorem Took.queue_kept {v : View} (h : Took kind s v t act e s') (hk : kind.Grants)
    (hu : u ≠ t) (hh : (s.pc u).Holds) (ha : v.stat a = .queued) :
    (v.observe e).stat a = .queued := by
  rw [← h.inv.glob.queued] at ha
  rw [← h.inv'.glob.queued]
  have hlk := h.inv.word_locked hh
  have hno : ¬(s.pc t).Holds := fun ht => hu (h.inv.unique u t hh ht)
  have hl := h.inv.loc t
  have hm := h.move
  have hef := h.effect
  generalize s.pc t = p at hm hno hl
  generalize s'.pc t = p' at hm
  cases hm with
  | gate hg => exact absurd hg hk.not_gate
  | cut | tailCut | tailReset | unlink | unlinkOnly => exact absurd trivial hno
  | poisonFast | poison => exact absurd hlk hef.2.1
  | writeBack hn => exact absurd hn hk.no_barrier
  | last hn => exact absurd hn hk.no_barrier
  | push | countDown => exact List.mem_cons_of_mem _ ha
  | _ => exact ha

theorem Credit.settles (hc : Credit kind s l) {r : ℕ}
    (hadd : ¬l.Adds a e) (hrem : ¬e.Removes a) (hop : s'.opcode a = s.opcode a)
    (hs : Settles kind s l a r) : Settles kind s' (l.observe e) a r := by
  refine ⟨hs.1, ?_⟩
  rw [mem_granted hc.nodup, hop]
  simpa only [hadd, hrem, false_or, not_false_eq_true, and_true] using hs.2

theorem Took.not_adds (h : Took kind s l.view t act e s') (hk : kind.Grants)
    (hsl : s.slot a = .used u) (hu : u ≠ t ∨ ∀ q, ¬Trying (s.pc t) q) (ho : ¬Owed s l.view a) :
    ¬l.Adds a e := by
  intro ha
  rcases h.move.adds hk h.inv rfl rfl ha with ho' | ⟨q, htry, hv, rfl, -⟩
  · exact ho ho'
  · rcases hu with hu | hu
    · have hq := ((h.inv.loc t).slot _).mp (htry.deciding.entry_of (by rw [hv]; simp))
      rw [hsl] at hq
      cases hq
      exact hu rfl
    · exact hu q htry

theorem Took.no_retry {v : View} (h : Took kind s v t act e s') (hk : ¬∃ n, kind = .barrier n)
    (x : Tid) (b : Ptr) : e ≠ .retry x b := by
  rintro rfl
  have hm := h.move
  generalize s.pc t = p at hm
  generalize s'.pc t = p' at hm
  cases hm with
  | gate _ hg => cases hg
  | retry hn => exact absurd hn hk

theorem Took.registered {v : View} (h : Took kind s v t act e s') (hk : kind.Grants)
    (hi : v.stat a ≠ .idle) (hrem : ¬e.Removes a) : (v.observe e).stat a ≠ .idle := by
  intro hi'
  rcases stat_idle hi' with hi' | hr | ⟨x, hx⟩
  · exact hi hi'
  · exact hrem hr
  · exact h.no_retry hk.no_barrier x a hx

theorem Took.keeps (h : Took kind s l.view t act e s') (hk : kind.Grants) {state : ℕ}
    (hp : (s.pc t).after = some (.complete a state)) : ¬e.Removes a := by
  have hm := h.move
  generalize s.pc t = p at hm hp
  generalize s'.pc t = p' at hm
  cases hm with
  | gate hg => exact absurd hg hk.not_gate
  | own htry => exact (htry.not_after hp).elim
  | take htry => exact (htry.not_after hp).elim
  | poll | dropIdle | consume | release | releasePass | finish => cases hp
  | _ => exact id

theorem Took.not_removes (h : Took kind s l.view t act e s') (hk : kind.Grants)
    (hsl : s.slot a = .used u) (hu : u ≠ t) : ¬e.Removes a := by
  intro hrem
  rcases (h.move.removes hk h.inv rfl hrem).1 with hs | hs <;> rw [hsl] at hs <;> cases hs
  exact hu rfl

theorem Took.receipt_complete (h : Took kind s l.view t act e s') (hk : kind.Grants)
    (hc : Credit kind s l) {state : ℕ} (hsl : s.slot a = .used u)
    (htry : u ≠ t ∨ ∀ q, ¬Trying (s.pc t) q) (hi : l.view.stat a ≠ .idle) (hrem : ¬e.Removes a)
    (hr : Receipt s l (.complete a state)) : Receipt s' (l.observe e) (.complete a state) := by
  refine ⟨h.move.not_owed hk h.inv h.frame rfl rfl hi hr.1, fun hg => ?_⟩
  rw [h.frame.kept a hi (h.registered hk hi hrem)]
  rcases (mem_granted hc.nodup).mp hg with ha | ⟨hg, -⟩
  · exact absurd ha (h.not_adds hk hsl htry hr.1)
  · exact hr.2 hg

theorem Took.receipt (h : Took kind s l.view t act e s') (hk : kind.Grants) (hc : Credit kind s l)
    (hp : (s.pc u).after = some k) : Receipt s' (l.observe e) k := by
  have hr := hc.after u k hp
  obtain ⟨hent, hstage, -⟩ := after_entry hp
  have hl := h.inv.loc u
  have htry : u ≠ t ∨ ∀ q, ¬Trying (s.pc t) q := by
    by_cases hu : u = t
    · subst hu
      exact Or.inr fun q hq => hq.not_after hp
    · exact Or.inl hu
  cases k with
  | returned => trivial
  | finish a =>
    have hst := hl.stat a hent
    rw [hstage] at hst
    have ho : ¬Owed s l.view a := by
      rintro (hq | ⟨x, hq, -⟩) <;> rcases hst with hst | hst | hst <;> rw [hq] at hst <;> cases hst
    intro hg
    rcases (mem_granted hc.nodup).mp hg with ha | ⟨hg, -⟩
    · exact h.not_adds hk ((hl.slot a).mp hent) htry ho ha
    · exact hr hg
  | complete a state =>
    have hst := hl.stat a hent
    rw [hstage] at hst
    refine h.receipt_complete hk hc ((hl.slot a).mp hent) htry hst.1 ?_ hr
    by_cases hu : u = t
    · subst hu
      exact h.keeps hk hp
    · exact h.not_removes hk ((hl.slot a).mp hent) hu

theorem Took.settles_taken (h : Took kind s l.view t act e s') (hk : kind.Grants)
    (hc : Credit kind s l) {r : ℕ} (ha : l.view.stat a = .taken u) (hn : ¬(s.pc u).Counting)
    (hs : Settles kind s l a r) : Settles kind s' (l.observe e) a r := by
  have hrem : ¬e.Removes a := by
    intro hrem
    rcases (h.move.removes hk h.inv rfl hrem).2.1 with hst | hst | hst <;> rw [ha] at hst <;>
      cases hst
  have hi : l.view.stat a ≠ .idle := by rw [ha]; simp
  refine hc.settles ?_ hrem (h.frame.kept a hi (h.registered hk hi hrem)) hs
  intro hadd
  rcases h.move.adds hk h.inv rfl rfl hadd with (hq | ⟨x, hx, hcount⟩) | ⟨q, htry, hv, rfl, -⟩
  · rw [ha] at hq
    cases hq
  · rw [ha] at hx
    cases hx
    exact hn hcount
  · have hst := (h.inv.loc t).stat _ (htry.deciding.entry_of (by rw [hv]; simp))
    rw [htry.deciding.stage] at hst
    exact hi hst

theorem Took.dues_other (h : Took kind s l.view t act e s') (hk : kind.Grants)
    (hc : Credit kind s l)
    (hu : u ≠ t) : Dues kind s' (l.observe e) u (s'.pc u) := by
  have hd := hc.dues u
  have hl := h.inv.loc u
  rw [h.frame.pc u hu]
  have hops : ∀ b, (s.pc u).entry = some b → (l.observe e).ops b = l.ops b := by
    intro b hb
    refine ops_observe fun hn => ?_
    have hsl := (hl.slot b).mp hb
    rcases (h.move.names hk h.inv rfl hn).2 with hs | hs
    · rw [hsl] at hs
      cases hs
      exact hu rfl
    · exact hs u hsl
  have hask : ∀ q : Req, (s.pc u).entry = q.held →
      (q.via = .pager → l.ops q.entry = q.goal.opcode) →
      q.via = .pager → (l.observe e).ops q.entry = q.goal.opcode := by
    intro q he ha hv
    rw [hops q.entry (he.trans (if_neg (by rw [hv]; simp)))]
    exact ha hv
  have hset : ∀ b r, (s.pc u).entry = some b → ¬Owed s l.view b → Settles kind s l b r →
      Settles kind s' (l.observe e) b r := by
    intro b r hb ho hs
    have hsl := (hl.slot b).mp hb
    exact hc.settles (h.not_adds hk hsl (Or.inl hu) ho) (h.not_removes hk hsl hu)
      (h.frame.opcode b u hu hsl) hs
  have htaken : ¬(s.pc u).Counting → ∀ r, (∀ b ∈ l.view.taken u, Settles kind s l b r) →
      ∀ b ∈ (l.view.observe e).taken u, Settles kind s' (l.observe e) b r := by
    intro hn r hall b hb
    rw [h.taken_other hu] at hb
    exact h.settles_taken hk hc ((h.inv.glob.taken u b).mp hb) hn (hall b hb)
  cases hp : s.pc u with
  | start q => rw [hp] at hd hask; exact hask q rfl hd
  | attempt q => rw [hp] at hd hask; exact hask q rfl hd
  | push q => rw [hp] at hd hask; exact hask q rfl hd
  | settle q r =>
    rw [hp] at hd hl hops hset
    have hent : q.held = some q.entry := if_neg hl.fits
    refine ⟨hd.1, (hops _ hent).trans hd.2.1, hset _ _ hent ?_ hd.2.2⟩
    have hst := hl.stat _ hent
    rintro (hq | ⟨x, hq, -⟩) <;> rw [hst] at hq <;> cases hq
  | resolve cur r n k =>
    rw [hp] at hd htaken
    exact htaken id r hd
  | finalize cur nx r n k =>
    rw [hp] at hd htaken
    exact htaken id r hd
  | remove b found state cur again =>
    rw [hp] at hd hl
    have hh : (s.pc u).Holds := by rw [hp]; trivial
    rcases hd with hd | hd
    · exact Or.inl (h.queue_kept hk hu hh hd)
    · have hsl := (hl.slot b).mp rfl
      have hst := hl.stat b rfl
      exact Or.inr (h.receipt_complete hk hc hsl (Or.inl hu) hst.1 (h.not_removes hk hsl hu) hd)
  | releaseLoop o op state =>
    rw [hp] at hd hl
    cases o with
    | caller x => trivial
    | entry b =>
      have hsl := (hl.slot b).mp rfl
      have hst : l.view.stat b = .final := hl.stat b rfl
      have ho : ¬Owed s l.view b := by
        rintro (hq | ⟨x, hq, -⟩) <;> rw [hst] at hq <;> cases hq
      refine ⟨by rw [h.frame.opcode b u hu hsl]; exact hd.1, fun hg => ?_⟩
      rcases (mem_granted hc.nodup).mp hg with ha | ⟨hg, -⟩
      · exact absurd ha (h.not_adds hk hsl (Or.inl hu) ho)
      · exact hd.2 hg
  | _ => trivial

def Solvent (s : Cfg) (l : Ledger) : Prop := ∀ b ∈ l.granted, (l.ops b).CanRelease s.word

theorem Inv.not_owed {v : View} (h : Inv kind s v) (hn : ¬Locked s.word)
    (hq : v.stat a ≠ .queued) : ¬Owed s v a := by
  rintro (hst | ⟨x, -, hx⟩)
  · exact hq hst
  · exact h.none_holds hn x hx.holds

theorem Credit.receipt_word (hc : Credit kind s l) (h : Inv kind s l.view) (hcan : Solvent s l)
    (hi : l.view.stat a ≠ .idle) (hn : ¬Locked s.word) (hq : l.view.stat a ≠ .queued) :
    Receipt s l (.complete a s.word) :=
  ⟨h.not_owed hn hq, fun hg => hc.ops a hi ▸ hcan a hg⟩

theorem holder_after {o : Holder} (h : o.after.pc.after = some k) :
    ∃ b, o = .entry b ∧ k = .finish b := by
  cases o with
  | caller x => cases h
  | entry b =>
    cases h
    exact ⟨b, rfl, rfl⟩

theorem Took.after (h : Took kind s l.view t act e s') (hk : kind.Grants) (hc : Credit kind s l)
    (hcan : Solvent s l) (hp' : (s'.pc t).after = some k) : Receipt s' (l.observe e) k := by
  have hcarry : (s.pc t).after = some k → Receipt s' (l.observe e) k := h.receipt hk hc
  have hd := hc.dues t
  have hl := h.inv.loc t
  have hword : ∀ b, (s.pc t).entry = some b → (∀ q, ¬Trying (s.pc t) q) → ¬e.Removes b →
      l.view.stat b ≠ .idle → (if Locked s.word ∨ anchor s.word ≠ 0 then none
        else some (After.complete b s.word)) = some k → Receipt s' (l.observe e) k := by
    intro b hent hno hrem hi hk'
    split at hk'
    · cases hk'
    next hz =>
    rw [not_or, not_not] at hz
    cases hk'
    refine h.receipt_complete hk hc ((h.inv.loc t).slot b |>.mp hent) (Or.inr hno) hi hrem
      (hc.receipt_word h.inv hcan hi hz.1 fun hq => ?_)
    have hnil := h.inv.glob.chain.eq_nil_iff.mpr hz.2
    rw [← h.inv.glob.queued, hnil] at hq
    cases hq
  have hgone : ∀ b, ¬l.Adds b e → (b ∉ l.granted ∨ e.Removes b) → b ∉ (l.observe e).granted := by
    intro b hadd hor hg
    rcases (mem_granted hc.nodup).mp hg with ha | ⟨hg, hr⟩
    · exact hadd ha
    · exact hor.elim (fun hn => hn hg) hr
  have hunowed : ∀ b, l.view.stat b = .queued → b ∉ l.granted := fun b hb hg =>
    (hc.source b hg).1 (Or.inl hb)
  have hm := h.move
  generalize hp : s.pc t = p at hm hcarry hd hl hword
  generalize s'.pc t = p' at hm hp'
  cases hm with
  | gate hg => exact absurd hg hk.not_gate
  | enter hin =>
    cases hin with
    | gate hg => exact absurd hg hk.not_gate
    | _ => cases hp'
  | drop | cancel =>
    rcases hk with rfl | ⟨n, rfl⟩ <;> cases hp'
  | unreleased hcr =>
    obtain ⟨b, rfl, rfl⟩ := holder_after hp'
    exact hgone b id (Or.inl fun hg => hcr (hd.2 hg))
  | release =>
    obtain ⟨b, rfl, rfl⟩ := holder_after hp'
    exact hgone b id (Or.inr rfl)
  | @releasePass o op w =>
    cases o with
    | caller x => cases hp'; trivial
    | entry b =>
      cases hp'
      exact hgone b id (Or.inr rfl)
  | dropLoad =>
    exact hword _ rfl (fun q hq => by rcases hq with hq | ⟨_, _, hq⟩ <;> cases hq) id
      (hl.stat _ rfl).1 hp'
  | @dropReload b state hre =>
    refine hword _ rfl (fun q hq => by rcases hq with hq | ⟨_, _, hq⟩ <;> cases hq) id ?_ hp'
    have hst := hl.stat b rfl
    intro hi
    rw [hi] at hst
    revert hst
    simp only [Pc.stage]
    split <;> exact fun hst => hst.1 rfl
  | dropGone hlk hz => exact hcarry (by simpa [Pc.after, hlk, hz] using hp')
  | missing hq =>
    cases hp'
    rcases hd with hd | hd
    · exact absurd hd hq
    · exact h.receipt_complete hk hc ((hl.slot _).mp rfl)
        (Or.inr fun q hq => by rw [hp] at hq; rcases hq with hq | ⟨_, _, hq⟩ <;> cases hq)
        (hl.stat _ rfl).1 id hd
  | unlink hst =>
    cases hp'
    exact hgone _ id (Or.inl (hunowed _ hst))
  | unlinkOnly hq =>
    cases hp'
    exact hgone _ id (Or.inl (hunowed _ ((h.inv.glob.queued _).mp (by rw [hq]; simp))))
  | leave =>
    obtain rfl := after_pc_after hp'
    exact hcarry rfl
  | own | take | lockQueue | complete | finish => cases hp'
  | _ => exact hcarry hp'

theorem done_settles {g : Goal} {state r : ℕ} (hd : g.attempt state = .done r) (hg : g ≠ .enter) :
    (∃ m, g = .lock m) ∧ r = POISONED ∨ r = ACQUIRED ∧ ¬g.opcode.Acquires := by
  cases g with
  | lock m =>
    cases m <;> simp only [Goal.attempt, tryLockInternal, tryShareInternal, waitInternal] at hd <;>
      split at hd <;> (try cases hd) <;> (try exact Or.inl ⟨⟨_, rfl⟩, rfl⟩) <;> split at hd <;>
        cases hd
    all_goals exact Or.inr ⟨rfl, fun ha => ha rfl⟩
  | permits n =>
    simp only [Goal.attempt, tryAcquireInternal] at hd
    split at hd <;> cases hd
  | enter => exact absurd rfl hg
  | arrive => cases hd

theorem Credit.not_granted {v : View} (hc : Credit kind s l) (h : Inv kind s v) (hv : l.view = v)
    (hent : (s.pc t).entry = some a) (hi : v.stat a = .idle)
    (hn : ∀ q r, s.pc t ≠ .settle q r) : a ∉ l.granted := by
  subst hv
  intro hg
  obtain ⟨x, q, hx, rfl⟩ := (hc.source a hg).2.2 hi
  have hlx := h.loc x
  rw [hx] at hlx
  have hsl := (hlx.slot q.entry).mp (if_neg hlx.fits)
  rw [((h.loc t).slot q.entry).mp hent] at hsl
  cases hsl
  exact hn _ _ hx

theorem Credit.settles_new (hc : Credit kind s l) (ho : Owed s l.view a)
    (hadd : l.Adds a e ↔ (l.ops a).Acquires) (hop : l.ops a = s'.opcode a) :
    Settles kind s' (l.observe e) a ACQUIRED := by
  refine ⟨Or.inl rfl, ?_⟩
  rw [mem_granted hc.nodup, hadd, hop]
  simp only [true_and]
  refine or_iff_left ?_
  rintro ⟨hg, -⟩
  exact (hc.source a hg).1 ho

theorem after_dues (k : After) : Dues kind s l t k.pc := by
  cases k <;> trivial

theorem Took.opcode_kept (h : Took kind s l.view t act e s') (hk : kind.Grants)
    (hi : l.view.stat a ≠ .idle) (hrem : ¬e.Removes a) : s'.opcode a = s.opcode a :=
  h.frame.kept a hi (h.registered hk hi hrem)

theorem Took.dues_take (h : Took kind s l.view t act e s') (hc : Credit kind s l) {q : Req}
    (htry : Trying (s.pc t) q) (hv : q.via = .pager) (haw : Weighs kind s' (.settle q ACQUIRED))
    (he : e = .acquire t (.entry q.entry) q.goal.opcode) :
    Dues kind s' (l.observe e) t (.settle q ACQUIRED) := by
  subst he
  have hd := hc.dues t
  have hl := h.inv.loc t
  have hent := htry.deciding.entry_of (by rw [hv]; simp)
  have hi : l.view.stat q.entry = .idle := by
    have hst := hl.stat _ hent
    rwa [htry.deciding.stage] at hst
  have hops : l.ops q.entry = q.goal.opcode := by
    rcases htry with hp | ⟨state, i, hp⟩ <;> rw [hp] at hd <;> exact hd hv
  have hng : q.entry ∉ l.granted := hc.not_granted h.inv rfl hent hi fun q' r hq => by
    rcases htry with hp | ⟨state, i, hp⟩ <;> rw [hp] at hq <;> cases hq
  refine ⟨hv, hops, .inl rfl, ?_⟩
  rw [mem_granted hc.nodup, haw hv, ← hops]
  simp [Ledger.Adds, hng]

theorem Took.dues_answer (h : Took kind s l.view t act .tau s') (hk : kind.Grants)
    (hc : Credit kind s l) {q : Req} {state i r : ℕ} (hp : s.pc t = .attempt q state i)
    (hdone : q.goal.attempt state = .done r) (hvia : q.via = .pager ∨ q.goal = .enter)
    (haw : Weighs kind s' (.settle q r)) : Dues kind s' (l.observe .tau) t (.settle q r) := by
  have hd := hc.dues t
  have hl := h.inv.loc t
  rw [hp] at hd hl
  have hgoal := grants_goal hk (hl.reqs q rfl).1
  have hen : q.goal ≠ .enter := by
    intro he
    rcases hgoal with ⟨⟨m, hm⟩, -⟩ | ⟨⟨m, hm⟩, -⟩ <;> rw [he] at hm <;> cases hm
  have hv : q.via = .pager := hvia.resolve_right hen
  have hent : (Pc.attempt q state i).entry = some q.entry := if_neg (by rw [hv]; simp)
  have hng : q.entry ∉ l.granted :=
    hc.not_granted h.inv rfl (hp ▸ hent) (hl.stat _ hent) (by simp [hp])
  refine ⟨hv, hd hv, ?_, ?_⟩
  · rcases done_settles hdone hen with ⟨⟨m, hm⟩, hr⟩ | ⟨hr, -⟩
    · rcases hgoal with ⟨-, hlock⟩ | ⟨⟨c, hcount⟩, -⟩
      · exact .inr ⟨hlock, hr⟩
      · rw [hm] at hcount
        cases hcount
    · exact .inl hr
  · rw [haw hv]
    refine iff_of_false hng ?_
    rintro ⟨rfl, hacq⟩
    rcases done_settles hdone hen with ⟨-, hr⟩ | ⟨-, hno⟩
    · exact absurd hr (by decide)
    · exact hno hacq

theorem Took.dues_poison (h : Took kind s l.view t act (.poison t) s') (hc : Credit kind s l)
    (hlock : kind = .lock) :
    ∀ b ∈ (l.observe (.poison t)).view.taken t,
      Settles kind s' (l.observe (.poison t)) b POISONED := by
  intro b hb
  have hb : b ∈ l.view.queue := by
    simpa [Ledger.observe, View.observe, View.detach] using hb
  have hst := (h.inv.glob.queued b).mp hb
  refine ⟨.inr ⟨hlock, rfl⟩, iff_of_false (fun hg => ?_) fun hx => absurd hx.1 (by decide)⟩
  rcases (mem_granted hc.nodup).mp hg with ha | ⟨hg, -⟩
  · exact ha
  · exact (hc.source b hg).1 (.inl hst)

theorem Took.dues_reset (h : Took kind s l.view t act (.tailReset t) s') (hk : kind.Grants)
    (hc : Credit kind s l) : ∀ b ∈ (l.observe (.tailReset t)).view.taken t,
      Settles kind s' (l.observe (.tailReset t)) b ACQUIRED := by
  intro b hb
  have hb : b ∈ l.view.queue := by
    simpa [Ledger.observe, View.observe, View.detach] using hb
  have hst := (h.inv.glob.queued b).mp hb
  have hi : l.view.stat b ≠ .idle := by rw [hst]; simp
  exact hc.settles_new (.inl hst) (and_iff_right hb)
    ((hc.ops b hi).trans (h.opcode_kept hk hi id).symm)

theorem Took.dues_grant {tr : ℕ} (h : Took kind s l.view t act (.grant t tr) s') (hk : kind.Grants)
    (hc : Credit kind s l) (hp : (s.pc t).Counting) :
    ∀ b ∈ (l.observe (.grant t tr)).view.taken t,
      Settles kind s' (l.observe (.grant t tr)) b ACQUIRED := by
  intro b hb
  have hst := (h.inv.glob.taken t b).mp hb
  have hi : l.view.stat b ≠ .idle := by rw [hst]; simp
  exact hc.settles_new (.inr ⟨t, hst, hp⟩) (and_iff_right hb)
    ((hc.ops b hi).trans (h.opcode_kept hk hi id).symm)

theorem Took.dues_lockQueue {b : Ptr} (h : Took kind s l.view t act (.lockQueue t) s')
    (hk : kind.Grants) (hc : Credit kind s l) (hcan : Solvent s l)
    (hp : s.pc t = .dropLoop b s.word) (hlk : ¬Locked s.word) :
    l.view.stat b = .queued ∨ Receipt s' (l.observe (.lockQueue t)) (.complete b s.word) := by
  by_cases hq : l.view.stat b = .queued
  · exact .inl hq
  have hl := h.inv.loc t
  rw [hp] at hl
  have hst := hl.stat b rfl
  have hi : l.view.stat b ≠ .idle := by
    intro hi
    rw [hi] at hst
    revert hst
    simp only [Pc.stage]
    split <;> exact fun hst => hst.1 rfl
  refine .inr (h.receipt_complete hk hc ((hl.slot b).mp rfl) (.inr fun q htry => ?_) hi id
    (hc.receipt_word h.inv hcan hi hlk hq))
  rw [hp] at htry
  rcases htry with hx | ⟨_, _, hx⟩ <;> cases hx

theorem Took.dues_seek {b cur : Ptr} {found state : ℕ} {again : Bool}
    (h : Took kind s l.view t act .tau s') (hk : kind.Grants) (hc : Credit kind s l)
    (hp : s.pc t = .remove b found state cur again) :
    l.view.stat b = .queued ∨ Receipt s' (l.observe .tau) (.complete b found) := by
  have hd := hc.dues t
  have hl := h.inv.loc t
  rw [hp] at hd hl
  refine hd.imp id fun hd => h.receipt_complete hk hc ((hl.slot b).mp rfl)
    (.inr fun q htry => ?_) (hl.stat b rfl).1 id hd
  rw [hp] at htry
  rcases htry with hx | ⟨_, _, hx⟩ <;> cases hx

theorem Took.dues_reRelease {o : Holder} {op : Opcode} {state : ℕ}
    (h : Took kind s l.view t act .tau s') (hk : kind.Grants) (hc : Credit kind s l)
    (hcan : Solvent s l) (hp : s.pc t = .releaseLoop o op state) :
    Dues kind s' (l.observe .tau) t (.releaseLoop o op s.word) := by
  have hd := hc.dues t
  have hl := h.inv.loc t
  rw [hp] at hd hl
  cases o with
  | caller x => trivial
  | entry b =>
    have hst : l.view.stat b = .final := hl.stat b rfl
    have hi : l.view.stat b ≠ .idle := by rw [hst]; simp
    refine ⟨by rw [h.opcode_kept hk hi id]; exact hd.1, fun hg => ?_⟩
    rcases (mem_granted hc.nodup).mp hg with ha | ⟨hg, -⟩
    · exact absurd ha id
    · rw [hd.1, ← hc.ops b hi]
      exact hcan b hg

theorem Took.dues_complete {b : Ptr} {state : ℕ} (h : Took kind s l.view t act .tau s')
    (hk : kind.Grants) (hc : Credit kind s l) (hp : s.pc t = .complete b state)
    (hfin : l.view.stat b = .final) :
    Dues kind s' (l.observe .tau) t (.releaseLoop (.entry b) (s.opcode b) state) := by
  have hi : l.view.stat b ≠ .idle := by rw [hfin]; simp
  have hr : Receipt s' (l.observe .tau) (.complete b state) := h.receipt hk hc (by rw [hp]; rfl)
  refine ⟨(h.opcode_kept hk hi id).symm, fun hg => ?_⟩
  rw [← h.opcode_kept hk hi id]
  exact hr.2 hg

theorem Took.dues (h : Took kind s l.view t act e s') (hk : kind.Grants) (hc : Credit kind s l)
    (hcan : Solvent s l) (haw : Weighs kind s' (s'.pc t)) :
    Dues kind s' (l.observe e) t (s'.pc t) := by
  have hd := hc.dues t
  have hl := h.inv.loc t
  have hm := h.move
  generalize hp : s.pc t = p at hm hd hl
  generalize hp' : s'.pc t = p' at hm haw
  cases hm with
  | gate hg => exact absurd hg hk.not_gate
  | enter hin =>
    cases hin with
    | gate hg => exact absurd hg hk.not_gate
    | _ => trivial
  | drop | cancel => rcases hk with rfl | ⟨n, rfl⟩ <;> trivial
  | @acquire q hf =>
    intro hv
    have hne : q.via ≠ .tryOnly := by rw [hv]; simp
    simp [Ledger.observe, Ledger.record, hne]
  | take htry hv => exact h.dues_take hc (hp ▸ htry) hv haw rfl
  | answer hg hdone hvia => exact h.dues_answer hk hc hp hdone hvia haw
  | retry hn | waitOnly hn | last hn | writeBack hn | arrived hn => exact absurd hn hk.no_barrier
  | poison => exact h.dues_poison hc hl.fits
  | tailReset => exact h.dues_reset hk hc
  | update | add => exact h.dues_grant hk hc (by rw [hp]; trivial)
  | set =>
    intro b hb
    have hb : b ∈ l.view.taken t := by
      simp only [Ledger.observe, View.observe, Function.update_self] at hb
      exact List.mem_of_mem_erase hb
    exact h.settles_taken hk hc ((h.inv.glob.taken t b).mp hb) (by rw [hp]; exact id) (hd b hb)
  | finalize =>
    intro b hb
    exact h.settles_taken hk hc ((h.inv.glob.taken t b).mp hb) (by rw [hp]; exact id) (hd b hb)
  | lockQueue hlk => exact h.dues_lockQueue hk hc hcan hp hlk
  | seek => exact h.dues_seek hk hc hp
  | complete hfin => exact h.dues_complete hk hc hp hfin
  | reRelease => exact h.dues_reRelease hk hc hcan hp
  | load | reload | spin | again | queue => exact hd
  | unreleased | release | leave => exact after_dues _
  | _ => trivial

theorem stat_fresh {v : View} (hi : v.stat a = .idle) (hi' : (v.observe e).stat a ≠ .idle) :
    (∃ t op, e = .push t a op ∨ e = .countDown t a op) ∨ (∃ t r, e = .setResult t a r) ∨
      (∃ t, e = .finalize t a ∨ e = .unlink t a) ∨ a ∈ v.queue := by
  have hbehind : ∀ b, a ∈ behind b v.queue → a ∈ v.queue := fun b hb =>
    (List.dropWhile_sublist _).subset (List.mem_of_mem_tail hb)
  cases e with
  | cut t b =>
    simp only [View.observe, View.detach] at hi'
    split at hi'
    · next hm => exact Or.inr (Or.inr (Or.inr (hbehind b hm)))
    · exact absurd hi hi'
  | push | countDown | last | writeBack | tailReset | unlink | poison | wakeAll | setResult |
    finalize | consume | retry | dropped =>
    simp only [View.observe, View.detach, Function.update_apply] at hi'
    split at hi' <;> simp_all
  | _ => exact absurd hi hi'

theorem Took.fresh {v : View} (h : Took kind s v t act e s') (hk : kind.Grants)
    (hi : v.stat a = .idle) (hi' : (v.observe e).stat a ≠ .idle) :
    (∃ q, s.pc t = .push q s.word ∧ q.entry = a ∧ e = .push t a (s.opcode a)) ∨
      ∃ q r, s.pc t = .settle q r ∧ q.entry = a ∧ e = .setResult t a r := by
  have hl := h.inv.loc t
  have hm := h.move
  generalize s.pc t = p at hm hl
  generalize s'.pc t = p' at hm
  rcases stat_fresh hi hi' with ⟨x, op, rfl | rfl⟩ | ⟨x, r, rfl⟩ | ⟨x, rfl | rfl⟩ | hq
  · cases hm with
    | gate hg => exact absurd hg hk.not_gate
    | push => exact Or.inl ⟨_, rfl, rfl, rfl⟩
  · cases hm with
    | gate hg => exact absurd hg hk.not_gate
    | countDown hn => exact absurd hn hk.no_barrier
  · cases hm with
    | gate hg => exact absurd hg hk.not_gate
    | settle => exact Or.inr ⟨_, _, rfl, rfl, rfl⟩
    | set hmem =>
      rw [(h.inv.glob.taken t a).mp hmem] at hi
      cases hi
  · cases hm with
    | gate hg => exact absurd hg hk.not_gate
    | settled | settledWait | finalize =>
      have := (hl.answering _).mp rfl
      rw [hi] at this
      cases this
  · cases hm with
    | gate hg => exact absurd hg hk.not_gate
    | unlink hst =>
      rw [hi] at hst
      cases hst
    | unlinkOnly hq =>
      have := (h.inv.glob.queued a).mp (by rw [hq]; simp)
      rw [hi] at this
      cases this
  · have := (h.inv.glob.queued a).mp hq
    rw [hi] at this
    cases this

theorem Took.ops (h : Took kind s l.view t act e s') (hk : kind.Grants) (hc : Credit kind s l)
    (haw : Weighs kind s (s.pc t)) (hi' : (l.view.observe e).stat a ≠ .idle) :
    (l.observe e).ops a = s'.opcode a := by
  by_cases hi : l.view.stat a = .idle
  · rcases h.fresh hk hi hi' with ⟨q, hp, rfl, rfl⟩ | ⟨q, r, hp, rfl, rfl⟩
    · rw [h.effect.2.1]
      simp [Ledger.observe, Ledger.record]
    · have hd := hc.dues t
      have hl := h.inv.loc t
      rw [hp] at hd haw hl
      rw [h.frame.held _ _ _ rfl, ops_observe id, hd.2.1]
      exact (haw hd.1).symm
  · rw [h.frame.kept a hi hi', ← hc.ops a hi]
    exact ops_observe fun hn => hi (h.move.names hk h.inv rfl hn).1

theorem stat_unlinked {v : View} (h : (v.observe e).stat a = .unlinked) :
    v.stat a = .unlinked ∨ ∃ t, e = .unlink t a := by
  cases e <;> simp only [View.observe, View.detach, Function.update_apply] at h <;>
    (try split at h) <;> simp_all

theorem Took.unlinked {v : View} (h : Took kind s v t act e s')
    (hq : v.stat a ≠ .queued) (hu : v.stat a ≠ .unlinked) :
    (v.observe e).stat a ≠ .unlinked := by
  intro hu'
  have hm := h.move
  generalize s.pc t = p at hm
  generalize s'.pc t = p' at hm
  rcases stat_unlinked hu' with hst | ⟨x, rfl⟩
  · exact hu hst
  · cases hm with
    | gate _ hg => cases hg
    | unlink hst => exact hq hst
    | unlinkOnly hl => exact hq ((h.inv.glob.queued a).mp (by rw [hl]; simp))

theorem not_owed_idle {v : View} (hi : v.stat a = .idle) : ¬Owed s v a := by
  rintro (hq | ⟨x, hq, -⟩) <;> rw [hi] at hq <;> cases hq

theorem Took.source_new (h : Took kind s l.view t act e s') (hk : kind.Grants)
    (ha : l.Adds a e) : ¬Owed s' (l.view.observe e) a ∧
      (l.view.observe e).stat a ≠ .unlinked ∧
      ((l.view.observe e).stat a = .idle → ∃ u q, s'.pc u = .settle q ACQUIRED ∧ q.entry = a) := by
  have hl := h.inv.loc t
  have htaken : ∀ {cur r n k}, s'.pc t = .resolve cur r n k →
      (l.view.observe e).stat a = .taken t → ¬Owed s' (l.view.observe e) a := by
    rintro cur r n k hp' hst (hq | ⟨x, hx, hcount⟩)
    · rw [hst] at hq
      cases hq
    · rw [hst] at hx
      cases hx
      rw [hp'] at hcount
      exact hcount
  have hm := h.move
  generalize s.pc t = p at hm hl
  generalize hp' : s'.pc t = p' at hm
  cases hm with
  | gate hg => exact absurd hg hk.not_gate
  | @take _ q htry hv =>
    obtain ⟨rfl, -⟩ := ha
    have hst := hl.stat _ (htry.deciding.entry_of (by rw [hv]; simp))
    rw [htry.deciding.stage] at hst
    have hst : (l.view.observe (.acquire t (.entry q.entry) q.goal.opcode)).stat q.entry = .idle :=
      hst
    refine ⟨not_owed_idle hst, by rw [hst]; simp, fun _ => ⟨t, q, hp', rfl⟩⟩
  | update | add =>
    have hst := (h.inv.glob.taken t a).mp ha.1
    refine ⟨htaken hp' hst, fun hu => ?_, fun hi => ?_⟩
    · have hu := hst.symm.trans hu
      cases hu
    · have hi := hst.symm.trans hi
      cases hi
  | tailReset =>
    have hst : (l.view.observe (.tailReset t)).stat a = .taken t := by
      simp [View.observe, View.detach, ha.1]
    exact ⟨htaken hp' hst, by rw [hst]; simp, by rw [hst]; simp⟩
  | _ => exact absurd ha id

theorem Took.source (h : Took kind s l.view t act e s') (hk : kind.Grants) (hc : Credit kind s l)
    (ha : a ∈ (l.observe e).granted) : ¬Owed s' (l.view.observe e) a ∧
      (l.view.observe e).stat a ≠ .unlinked ∧
      ((l.view.observe e).stat a = .idle → ∃ u q, s'.pc u = .settle q ACQUIRED ∧ q.entry = a) := by
  rcases (mem_granted hc.nodup).mp ha with ha | ⟨hg, hrem⟩
  · exact h.source_new hk ha
  obtain ⟨ho, hnu, hidle⟩ := hc.source a hg
  by_cases hi : l.view.stat a = .idle
  swap
  · exact ⟨h.move.not_owed hk h.inv h.frame rfl rfl hi ho,
      h.unlinked (fun hq => ho (Or.inl hq)) hnu, fun hi' => absurd hi' (h.registered hk hi hrem)⟩
  obtain ⟨u, q, hp, rfl⟩ := hidle hi
  have hlu := h.inv.loc u
  rw [hp] at hlu
  have hsl := (hlu.slot q.entry).mp (if_neg hlu.fits)
  by_cases hi' : (l.view.observe e).stat q.entry = .idle
  · refine ⟨not_owed_idle hi', by rw [hi']; simp, fun _ => ⟨u, q, ?_, rfl⟩⟩
    by_cases hu : u = t
    · subst hu
      have hm := h.move
      rw [hp] at hm
      generalize s'.pc u = p' at hm
      cases hm with
      | gate hg => exact absurd hg hk.not_gate
      | own htry => rcases htry with hq | ⟨_, _, hq⟩ <;> cases hq
      | take htry => rcases htry with hq | ⟨_, _, hq⟩ <;> cases hq
      | settle => simp [View.observe] at hi'
    · rw [h.frame.pc u hu, hp]
  · rcases h.fresh hk hi hi' with ⟨q', hp', he, -⟩ | ⟨q', r, hp', he, rfl⟩
    · have hlt := h.inv.loc t
      rw [hp'] at hlt
      have hsl' := (hlt.slot q'.entry).mp (if_neg hlt.fits.1)
      rw [he, hsl] at hsl'
      cases hsl'
      rw [hp] at hp'
      cases hp'
    · have hst : (l.view.observe (.setResult t q.entry r)).stat q.entry = .answered t := by
        simp [View.observe]
      refine ⟨?_, by rw [hst]; simp, by rw [hst]; simp⟩
      rintro (hq | ⟨x, hq, -⟩) <;> rw [hst] at hq <;> cases hq

theorem Took.spent (h : Took kind s l.view t act e s') (hk : kind.Grants) (hs : Spent s a)
    (hi' : (l.view.observe e).stat a ≠ .idle) : Spent s' a := by
  obtain ⟨u, hu⟩ := hs
  by_cases hut : u = t
  swap
  · exact ⟨u, by rw [h.frame.pc u hut]; exact hu⟩
  subst hut
  refine ⟨u, ?_⟩
  have hm := h.move
  generalize s.pc u = p at hm hu
  generalize s'.pc u = p' at hm
  cases hm with
  | gate hg => exact absurd hg hk.not_gate
  | own htry => exact (htry.not_after hu).elim
  | take htry => exact (htry.not_after hu).elim
  | leave =>
    cases hu
    rfl
  | dropReload =>
    simp only [Pc.after] at hu
    split at hu <;> cases hu
  | dropGone =>
    simp only [Pc.after] at hu
    split at hu <;> cases hu
  | lockQueue =>
    simp only [Pc.after] at hu
    split at hu <;> cases hu
  | finish =>
    cases hu
    exact absurd (by simp [View.observe]) hi'
  | drop | enter | cancel | unreleased | release | releasePass | dropLoad | missing | unlink |
    unlinkOnly | complete =>
    cases hu
  | _ => exact hu

theorem stat_resolved {v : View} (h : ((v.observe e).stat a).Resolved) :
    (v.stat a).Resolved ∨ (∃ t r, e = .setResult t a r) ∨ ∃ t, e = .finalize t a := by
  unfold Stat.Resolved at h ⊢
  cases e <;> simp only [View.observe, View.detach, Function.update_apply] at h <;>
    (try split at h) <;> simp_all

theorem Took.answer (h : Took kind s l.view t act e s') (hk : kind.Grants) (hc : Credit kind s l)
    (hres : ((l.view.observe e).stat a).Resolved) (hns : ¬Spent s' a) :
    Settles kind s' (l.observe e) a (s'.state a).result := by
  have hi' : (l.view.observe e).stat a ≠ .idle := by
    rcases hres with hst | ⟨x, hst⟩ <;> rw [hst] <;> simp
  have hset : ∀ x r, e = .setResult x a r →
      Settles kind s' (l.observe e) a (s'.state a).result := by
    rintro x r rfl
    obtain ⟨rfl, hr, -⟩ := h.frame.set x a r rfl
    rw [hr]
    have hm := h.move
    have hd := hc.dues x
    have hl := h.inv.loc x
    generalize hp : s.pc x = p at hm hd hl
    generalize s'.pc x = p' at hm
    cases hm with
    | gate hg => exact absurd hg hk.not_gate
    | settle => exact hc.settles id id (h.frame.held _ _ _ rfl) hd.2.2
    | set hmem =>
      exact h.settles_taken hk hc ((h.inv.glob.taken x a).mp hmem) (by rw [hp]; exact id)
        (hd a hmem)
  have hkept : (l.view.stat a).Resolved → (∀ x r, e ≠ .setResult x a r) →
      Settles kind s' (l.observe e) a (s'.state a).result := by
    intro hst hne
    have hi : l.view.stat a ≠ .idle := by
      rcases hst with hst | ⟨x, hst⟩ <;> rw [hst] <;> simp
    have hrem : ¬e.Removes a := by
      intro hrem
      rcases (h.move.removes hk h.inv rfl hrem).2.2 with hid | ⟨-, haf, -⟩
      · exact hi' hid
      · exact hns ⟨t, haf⟩
    have hadd : ¬l.Adds a e := by
      intro hadd
      rcases h.move.adds hk h.inv rfl rfl hadd with (hq | ⟨x, hq, -⟩) | ⟨q, htry, hv, rfl, -⟩
      · rcases hst with hst | ⟨y, hst⟩ <;> rw [hq] at hst <;> cases hst
      · rcases hst with hst | ⟨y, hst⟩ <;> rw [hq] at hst <;> cases hst
      · have hid := (h.inv.loc t).stat _ (htry.deciding.entry_of (by rw [hv]; simp))
        rw [htry.deciding.stage] at hid
        exact hi hid
    rw [h.frame.result a hi hi' hne]
    exact hc.settles hadd hrem (h.frame.kept a hi hi')
      (hc.answer a hst fun hs => hns (h.spent hk hs hi'))
  by_cases hne : ∃ x r, e = .setResult x a r
  · obtain ⟨x, r, he⟩ := hne
    exact hset x r he
  · have hne : ∀ x r, e ≠ .setResult x a r := fun x r he => hne ⟨x, r, he⟩
    rcases stat_resolved hres with hst | ⟨x, r, he⟩ | ⟨x, rfl⟩
    · exact hkept hst hne
    · exact absurd he (hne x r)
    · refine hkept (Or.inr ⟨t, ?_⟩) hne
      have hl := h.inv.loc t
      have hm := h.move
      generalize s.pc t = p at hm hl
      generalize s'.pc t = p' at hm
      cases hm with
      | gate hg => exact absurd hg hk.not_gate
      | settled | settledWait | finalize => exact (hl.answering _).mp rfl

/-- The ledger of entries is kept by every step. -/
theorem step_credit (hk : kind.Grants) (h : Took kind s l.view t act e s')
    (haw : Awake kind s l.view) (haw' : Awake kind s' (l.view.observe e)) (hc : Credit kind s l)
    (hcan : Solvent s l) : Credit kind s' (l.observe e) where
  ops a hi' := h.ops hk hc (haw.weighs t) hi'
  nodup := by
    refine nodup_granted hc.nodup h.inv.glob.chain.nodup (fun u => (h.inv.loc u).taken.nodup) ?_
    intro a ha hg
    obtain ⟨ho, -, hidle⟩ := hc.source a hg
    rcases h.move.adds hk h.inv rfl rfl ha with ho' | ⟨q, htry, hv, rfl, -⟩
    · exact ho ho'
    · have hent := htry.deciding.entry_of (by rw [hv]; simp)
      have hst := (h.inv.loc t).stat _ hent
      rw [htry.deciding.stage] at hst
      refine hc.not_granted h.inv rfl hent hst (fun q' r hq => ?_) hg
      rcases htry with hp | ⟨_, _, hp⟩ <;> rw [hp] at hq <;> cases hq
  source a ha := h.source hk hc ha
  answer a hres hns := h.answer hk hc hres hns
  after u k hp := by
    by_cases hu : u = t
    · subst hu
      exact h.after hk hc hcan hp
    · rw [h.frame.pc u hu] at hp
      exact h.receipt hk hc hp
  dues u := by
    by_cases hu : u = t
    · subst hu
      exact h.dues hk hc hcan (haw'.weighs u)
    · exact h.dues_other hk hc hu

theorem initial_credit (kind : Kind) : Credit kind kind.initial .initial where
  ops a hi := absurd rfl hi
  nodup := List.nodup_nil
  source a ha := by cases ha
  answer a hres := by rcases hres with h | ⟨x, h⟩ <;> cases h
  after t k hk := by cases hk
  dues t := trivial

end
end Saa
