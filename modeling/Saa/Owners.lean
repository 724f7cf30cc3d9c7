import Saa.Fifo

/-! # Ownership of a lock

The data field of a lock is 63 exactly while it has an exclusive owner, and otherwise
the number of its shared owners. -/
namespace Saa

open Word Lib.Linked Lib.Trace

def Ledger.owned (l : Ledger) : List Opcode := l.callers.map Prod.snd ++ l.granted.map l.ops

def Ledger.owners (l : Ledger) (op : Opcode) : ℕ := l.owned.count op

/-- Callers release and poison only what they own, and no dropped entry that was told
`POISONED` goes on to release a lock. -/
def Disciplined : Guard Cfg Action Event := fun s h act => ¬Misreleases s act ∧
  match act with
  | .call t .releaseLock | .call t .poisonLock => (t, .exclusive) ∈ (ledger h).callers
  | .call t .releaseShare => (t, .shared) ∈ (ledger h).callers
  | _ => True

instance (s : Cfg) (h : List Event) (act : Action) : Decidable (Disciplined s h act) := by
  unfold Disciplined
  split <;> infer_instance

def Ledger.held (l : Ledger) : ℕ := (l.callers.map fun c => c.2.acquiredCount).sum

def Ledger.Exclusive (l : Ledger) : Prop :=
  (∃ t, (t, .exclusive) ∈ l.callers) ∨ ∃ a ∈ l.granted, l.ops a = .exclusive

/-- A caller that releases or poisons still owns what it gives up. -/
def Claims (l : Ledger) (t : Tid) : Pc → Prop
  | .releaseFast op => (t, op) ∈ l.callers
  | .releaseLoop (.caller u) op _ => u = t ∧ (t, op) ∈ l.callers
  | .poisonFast | .poisonLoop _ => (t, .exclusive) ∈ l.callers
  | _ => True

structure Books (s : Cfg) (l : Ledger) : Prop where
  sum : data s.word = l.held + l.charge
  room : MAX_SHARED_OWNERS < data s.word → l.Exclusive
  kinds : ∀ c ∈ l.callers, c.2 = .exclusive ∨ c.2 = .shared
  claims : ∀ t, Claims l t (s.pc t)

section
variable {kind : Kind} {s s' : Cfg} {l : Ledger} {t u : Tid} {a : Ptr} {act : Action}
  {e : Event} {op : Opcode}

theorem Credit.owns (hc : Credit kind s l) (h : Inv kind s l.view) (haw : Awake kind s l.view)
    (ha : a ∈ l.granted) : (l.ops a).Acquires ∧ (l.ops a).Fits kind := by
  obtain ⟨ho, hu, hidle⟩ := hc.source a ha
  by_cases hi : l.view.stat a = .idle
  · obtain ⟨x, q, hx, rfl⟩ := hidle hi
    have hd := hc.dues x
    have hl := h.loc x
    have hw := haw.weighs x
    rw [hx] at hd hl hw
    obtain ⟨hv, hops, -, hiff⟩ := hd
    rw [hops]
    refine ⟨?_, opcode_fits (hl.reqs q rfl).1 (hl.reqs q rfl).2⟩
    rw [← hw hv]
    exact (hiff.mp ha).2
  have hns : ¬Spent s a := fun ⟨x, hx⟩ => hc.after x _ hx ha
  rw [hc.ops a hi]
  refine ⟨?_, h.glob.opcodes a hi⟩
  cases hst : l.view.stat a with
  | idle => exact absurd hst hi
  | queued => exact absurd (Or.inl hst) ho
  | unlinked => exact absurd hst hu
  | taken x =>
    have hmem := (h.glob.taken x a).mpr hst
    have hn : ¬(s.pc x).Counting := fun hcount => ho (Or.inr ⟨x, hst, hcount⟩)
    have hl := h.loc x
    have hd := hc.dues x
    cases hp : s.pc x <;> rw [hp] at hl hd hn
    case resolve => exact ((hd a hmem).2.mp ha).2
    case finalize => exact ((hd a hmem).2.mp ha).2
    case update => exact absurd trivial hn
    case add => exact absurd trivial hn
    all_goals
      rw [hl.taken_nil rfl] at hmem
      cases hmem
  | answered x => exact ((hc.answer a (Or.inr ⟨x, hst⟩) hns).2.mp ha).2
  | final => exact ((hc.answer a (Or.inl hst) hns).2.mp ha).2

theorem lock_opcode (hf : op.Fits .lock) (ha : op.Acquires) : op = .exclusive ∨ op = .shared := by
  cases op with
  | exclusive => exact Or.inl rfl
  | shared => exact Or.inr rfl
  | barrier b => exact absurd rfl ha
  | wait n => exact absurd rfl ha
  | semaphore n =>
    obtain ⟨-, m, hm⟩ := hf
    cases hm

theorem held_erase {c : Tid × Opcode} (h : c ∈ l.callers) :
    c.2.acquiredCount + ((l.callers.erase c).map fun c => c.2.acquiredCount).sum = l.held := by
  have hp := (List.perm_cons_erase h).map fun c : Tid × Opcode => c.2.acquiredCount
  exact hp.sum_eq.symm

theorem held_mem {c : Tid × Opcode} (h : c ∈ l.callers) : c.2.acquiredCount ≤ l.held := by
  have := held_erase h
  omega

theorem Books.exclusive (hb : Books s l) (hx : l.Exclusive) : data s.word = DATA_MASK := by
  have hd := data_le_mask s.word
  have hs := hb.sum
  rcases hx with ⟨x, hx⟩ | ⟨a, ha, hx⟩
  · have := held_mem hx
    simp only [Opcode.acquiredCount] at this
    omega
  · have := le_total (o := l.ops) ha
    rw [hx] at this
    simp only [Opcode.acquiredCount] at this
    unfold Ledger.charge at hs
    omega

theorem Books.solvent (hb : Books s l) (hc : Credit .lock s l) (h : Inv .lock s l.view)
    (haw : Awake .lock s l.view) : Solvent s l := by
  intro a ha
  have hm : MAX_SHARED_OWNERS = 62 := by decide
  have hd : DATA_MASK = 63 := by decide
  have hs := hb.sum
  have hle := le_total (o := l.ops) ha
  obtain ⟨hacq, hfit⟩ := hc.owns h haw ha
  rcases lock_opcode hfit hacq with ho | ho <;> rw [ho] at hle ⊢
  · exact hb.exclusive (Or.inr ⟨a, ha, ho⟩)
  · simp only [Opcode.acquiredCount] at hle
    unfold Ledger.charge at hs
    refine ⟨by omega, fun hmask => ?_⟩
    rcases hb.room (by omega) with ⟨x, hx⟩ | ⟨b, hb', hx⟩
    · have := held_mem hx
      simp only [Opcode.acquiredCount] at this
      omega
    · have hne : a ≠ b := by
        rintro rfl
        rw [ho] at hx
        cases hx
      have h₁ := total_erase (o := l.ops) ha
      have h₂ := le_total (o := l.ops) ((List.mem_erase_of_ne hne.symm).mpr hb')
      rw [hx] at h₂
      rw [ho] at h₁
      simp only [Opcode.acquiredCount] at h₁ h₂
      omega

theorem Took.held (h : Took kind s l.view t act e s') (hk : kind.Grants)
    (hcl : Claims l t (s.pc t)) :
    (l.observe e).held + e.returned = l.held + l.gained e := by
  have hsame : (l.observe e).callers = l.callers → (l.observe e).held = l.held := fun hc => by
    simp only [Ledger.held, hc]
  have hpay : ∀ op, (t, op) ∈ l.callers → (l.observe e).callers = l.callers.erase (t, op) →
      (l.observe e).held + op.acquiredCount = l.held := by
    intro op hmem hc
    have := held_erase hmem
    simp only [Ledger.held, hc] at this ⊢
    omega
  have hgain : ∀ a r, e = .consume t a r → (l.observe e).held = l.held + l.gained e := by
    rintro a r rfl
    simp only [Ledger.held, Ledger.observe, Ledger.record, Ledger.gained]
    by_cases hr : r = ACQUIRED
    · by_cases hacq : (l.ops a).Acquires
      · simp [hr, hacq, Nat.add_comm]
      · simp only [hr, hacq, and_false, ↓reduceIte]
        rw [not_not.mp hacq, Nat.add_zero]
    · simp [hr]
  have hm := h.move
  have hl := h.inv.loc t
  generalize s.pc t = p at hm hcl hl
  generalize s'.pc t = p' at hm
  cases hm with
  | gate hg => exact absurd hg hk.not_gate
  | @own _ q htry hv =>
    simp only [Ledger.held, Ledger.observe, Ledger.record, Ledger.gained, Event.returned]
    split
    · simp [Nat.add_comm]
    · next hacq => rw [not_not.mp hacq]
  | poll => exact hgain _ _ rfl
  | consume => exact hgain _ _ rfl
  | fast => exact hpay _ hcl rfl
  | @release o op =>
    cases o with
    | caller x =>
      obtain ⟨rfl, hcl⟩ := hcl
      exact hpay _ hcl rfl
    | entry b => exact hsame rfl
  | @releasePass o op w =>
    cases o with
    | caller x =>
      obtain ⟨rfl, hcl⟩ := hcl
      exact hpay _ hcl rfl
    | entry b => exact hsame rfl
  | poisonFast => exact hpay .exclusive hcl rfl
  | poison => exact hpay .exclusive hcl rfl
  | acquire => exact hsame (by simp only [Ledger.observe, Ledger.record]; split <;> rfl)
  | enter hin =>
    cases hin with
    | gate hg => exact absurd hg hk.not_gate
    | _ => exact hsame rfl
  | _ => exact hsame rfl

theorem Took.callers_other (h : Took kind s l.view t act e s') (hk : kind.Grants)
    (hcl : Claims l t (s.pc t)) (hu : u ≠ t) (hmem : (u, op) ∈ l.callers) :
    (u, op) ∈ (l.observe e).callers := by
  have herase : ∀ op', (u, op) ∈ l.callers.erase (t, op') := fun op' =>
    (List.mem_erase_of_ne (by simp [hu])).mpr hmem
  have hm := h.move
  generalize s.pc t = p at hm hcl
  generalize s'.pc t = p' at hm
  cases hm with
  | gate hg => exact absurd hg hk.not_gate
  | own htry hv =>
    simp only [Ledger.observe, Ledger.record]
    split
    · exact List.mem_cons_of_mem _ hmem
    · exact hmem
  | poll | consume =>
    simp only [Ledger.observe, Ledger.record]
    split
    · exact List.mem_cons_of_mem _ hmem
    · exact hmem
  | fast => exact herase _
  | @release o op' =>
    cases o with
    | caller x =>
      obtain ⟨rfl, -⟩ := hcl
      exact herase _
    | entry b => exact hmem
  | @releasePass o op' w =>
    cases o with
    | caller x =>
      obtain ⟨rfl, -⟩ := hcl
      exact herase _
    | entry b => exact hmem
  | poisonFast | poison => exact herase _
  | acquire =>
    simp only [Ledger.observe, Ledger.record]
    split <;> exact hmem
  | enter hin =>
    cases hin with
    | gate hg => exact absurd hg hk.not_gate
    | _ => exact hmem
  | _ => exact hmem

theorem Took.claims {hist : List Event} (h : Took .lock s (ledger hist).view t act e s')
    (hok : Disciplined s hist act) (hcl : ∀ x, Claims (ledger hist) x (s.pc x)) (u : Tid) :
    Claims ((ledger hist).observe e) u (s'.pc u) := by
  have hk : Kind.Grants .lock := Or.inl rfl
  by_cases hu : u = t
  swap
  · have hc := hcl u
    have hkeep : ∀ op, (u, op) ∈ (ledger hist).callers →
      (u, op) ∈ ((ledger hist).observe e).callers :=
      fun op => h.callers_other hk (hcl t) hu
    rw [h.frame.pc u hu]
    cases hp : s.pc u with
    | releaseFast op => rw [hp] at hc; exact hkeep op hc
    | releaseLoop o op st =>
      rw [hp] at hc
      cases o with
      | caller x => exact ⟨hc.1, hkeep op hc.2⟩
      | entry b => trivial
    | poisonFast => rw [hp] at hc; exact hkeep _ hc
    | poisonLoop st => rw [hp] at hc; exact hkeep _ hc
    | _ => trivial
  subst hu
  have hc := hcl u
  have hafter : ∀ k : After, Claims ((ledger hist).observe e) u k.pc := fun k => by
    cases k <;> trivial
  have hm := h.move
  have hl := h.inv.loc u
  generalize s.pc u = p at hm hc hl
  generalize s'.pc u = p' at hm
  cases hm with
  | gate hg => cases hg
  | enter hin =>
    cases hin with
    | gate hg => cases hg
    | release hn => cases hn
    | releaseMany hn => cases hn
    | clearPoison => trivial
    | _ => exact hok.2
  | slow => exact ⟨rfl, hc⟩
  | @reRelease o op st =>
    cases o with
    | caller x => exact hc
    | entry b => trivial
  | poisonSlow => exact hc
  | poisonReload => exact hc
  | unreleased | release | leave => exact hafter _
  | _ => trivial

theorem Took.kinds (h : Took .lock s l.view t act e s') (hc : Credit .lock s l) (hb : Books s l) :
    ∀ c ∈ (l.observe e).callers, c.2 = .exclusive ∨ c.2 = .shared := by
  have hnew : ∀ a r, l.view.stat a = .final → ∀ c ∈ (l.observe (.consume t a r)).callers,
      c.2 = .exclusive ∨ c.2 = .shared := by
    intro a r hst c hmem
    simp only [Ledger.observe, Ledger.record] at hmem
    split at hmem
    · next hacq =>
      rcases List.mem_cons.mp hmem with rfl | hmem
      · have hi : l.view.stat a ≠ .idle := by rw [hst]; simp
        refine lock_opcode ?_ hacq.2
        rw [hc.ops a hi]
        exact h.inv.glob.opcodes a hi
      · exact hb.kinds c hmem
    · exact hb.kinds c hmem
  have herase : ∀ c', ∀ c ∈ l.callers.erase c', c.2 = .exclusive ∨ c.2 = .shared := fun c' c hmem =>
    hb.kinds c (List.mem_of_mem_erase hmem)
  have hl := h.inv.loc t
  have hm := h.move
  generalize s.pc t = p at hm hl
  generalize s'.pc t = p' at hm
  cases hm with
  | gate hg => cases hg
  | @own _ q htry hv =>
    intro c hmem
    simp only [Ledger.observe, Ledger.record] at hmem
    split at hmem
    · next hacq =>
      rcases List.mem_cons.mp hmem with rfl | hmem
      · have hreq := hl.reqs q htry.deciding.reqs
        exact lock_opcode (opcode_fits hreq.1 hreq.2) hacq
      · exact hb.kinds c hmem
    · exact hb.kinds c hmem
  | poll _ hst => exact hnew _ _ hst
  | consume hst => exact hnew _ _ hst
  | fast => exact herase _
  | @release o op =>
    cases o with
    | caller x => exact herase _
    | entry b => exact hb.kinds
  | @releasePass o op w =>
    cases o with
    | caller x => exact herase _
    | entry b => exact hb.kinds
  | poisonFast | poison => exact herase _
  | acquire =>
    simp only [Ledger.observe, Ledger.record]
    split <;> exact hb.kinds
  | enter hin =>
    cases hin with
    | gate hg => cases hg
    | _ => exact hb.kinds
  | _ => exact hb.kinds

theorem greedy_room {held : ℕ} {o : Ptr → Opcode} {as : List Ptr}
    (h : Greedy MAX_SHARED_OWNERS o held as)
    (ho : ∀ a ∈ as, ¬(o a).Acquires ∨ o a = .exclusive ∨ o a = .shared) :
    (∃ a ∈ as, o a = .exclusive) ∨ total o as = 0 ∨ held + total o as ≤ MAX_SHARED_OWNERS := by
  have hm : MAX_SHARED_OWNERS = 62 := by decide
  induction as with
  | nil => exact Or.inr (Or.inl rfl)
  | cons a as ih =>
    rw [total_cons]
    rcases ih h.1 fun b hb => ho b (List.mem_cons_of_mem _ hb) with ⟨b, hb, hx⟩ | ih
    · exact Or.inl ⟨b, List.mem_cons_of_mem _ hb, hx⟩
    rcases ho a (List.mem_cons_self ..) with hz | hx | hs
    · rw [not_not.mp hz]
      exact Or.inr (by omega)
    · exact Or.inl ⟨a, List.mem_cons_self .., hx⟩
    · have hg := h.2
      rw [hs] at hg ⊢
      unfold Grantable at hg
      simp only [Opcode.desiredCount, Opcode.acquiredCount] at hg ⊢
      exact Or.inr (by omega)

theorem Took.exclusive (h : Took kind s l.view t act e s') (hk : kind.Grants)
    (hc : Credit kind s l) (hx : l.Exclusive)
    (hcal : ∀ x, (x, Opcode.exclusive) ∈ l.callers → (x, Opcode.exclusive) ∈ (l.observe e).callers)
    (hgr : ∀ a ∈ l.granted, l.ops a = .exclusive → a ∈ (l.observe e).granted) :
    (l.observe e).Exclusive := by
  rcases hx with ⟨x, hx⟩ | ⟨a, ha, hx⟩
  · exact Or.inl ⟨x, hcal x hx⟩
  · exact Or.inr ⟨a, hgr a ha hx, (h.ops_granted hk hc ha).trans hx⟩

theorem Took.room_grant (h : Took .lock s l.view t act e s') (hc : Credit .lock s l)
    (hb : Books s l)
    {as : List Ptr} {held : ℕ} (hle : data s.word ≤ held)
    (hg : Greedy MAX_SHARED_OWNERS s.opcode held as) (hreg : ∀ a ∈ as, l.view.stat a ≠ .idle)
    (hadd : ∀ a ∈ as, (l.ops a).Acquires → a ∈ (l.observe e).granted)
    (hkeep : ∀ a ∈ l.granted, a ∈ (l.observe e).granted)
    (hcal : (l.observe e).callers = l.callers) (hops : (l.observe e).ops = l.ops)
    (hdata : data s'.word = data s.word + total s.opcode as)
    (hd : MAX_SHARED_OWNERS < data s'.word) : (l.observe e).Exclusive := by
  have hk : Kind.Grants .lock := Or.inl rfl
  have hor : ∀ a ∈ as, ¬(s.opcode a).Acquires ∨ s.opcode a = .exclusive ∨ s.opcode a = .shared := by
    intro a ha
    by_cases hacq : (s.opcode a).Acquires
    · exact Or.inr (lock_opcode (h.inv.glob.opcodes a (hreg a ha)) hacq)
    · exact Or.inl hacq
  rcases greedy_room hg hor with ⟨a, ha, hx⟩ | hz | hle'
  · have hops' : l.ops a = .exclusive := (hc.ops a (hreg a ha)).trans hx
    refine Or.inr ⟨a, hadd a ha ?_, by rw [hops, hops']⟩
    rw [hops']
    decide
  · rw [hz] at hdata
    exact h.exclusive hk hc (hb.room (by omega)) (fun x hx => by rw [hcal]; exact hx)
      fun a ha _ => hkeep a ha
  · omega

theorem Credit.exclusive_consume (hc : Credit kind s l) (hst : l.view.stat a = .final)
    (hns : ¬Spent s a) (hx : l.Exclusive) :
    (l.observe (.consume t a (s.state a).result)).Exclusive := by
  have hi : l.view.stat a ≠ .idle := by rw [hst]; simp
  rcases hx with ⟨x, hx⟩ | ⟨b, hb, hx⟩
  · refine Or.inl ⟨x, ?_⟩
    simp only [Ledger.observe, Ledger.record]
    split
    · exact List.mem_cons_of_mem _ hx
    · exact hx
  · by_cases hba : b = a
    · subst hba
      obtain ⟨hr, hacq⟩ := (hc.answer b (Or.inl hst) hns).2.mp hb
      rw [← hc.ops b hi] at hacq
      refine Or.inl ⟨t, ?_⟩
      simp only [Ledger.observe, Ledger.record]
      rw [if_pos ⟨hr, hacq⟩, hx]
      exact List.mem_cons_self ..
    · exact Or.inr ⟨b, (List.mem_erase_of_ne hba).mpr hb, hx⟩

theorem free_exclusive {w : ℕ} (hf : op.Free w) (hw : w < 64)
    (hd : MAX_SHARED_OWNERS < data (w + op.acquiredCount)) (hop : op.Fits .lock) :
    op = .exclusive := by
  have hm : MAX_SHARED_OWNERS = 62 := by decide
  cases op with
  | exclusive => rfl
  | shared =>
    simp only [Opcode.Free] at hf
    simp only [Opcode.acquiredCount, data_eq] at hd
    omega
  | semaphore n =>
    obtain ⟨-, m, hn⟩ := hop
    cases hn
  | barrier => exact absurd hf id
  | wait => exact absurd hf id

theorem Took.room_stay (h : Took .lock s l.view t act e s') (hc : Credit .lock s l) (hb : Books s l)
    (hd : MAX_SHARED_OWNERS < data s'.word) (hw : data s'.word = data s.word)
    (hcal : (l.observe e).callers = l.callers) (hgr : ∀ a ∈ l.granted, a ∈ (l.observe e).granted) :
    (l.observe e).Exclusive :=
  h.exclusive (.inl rfl) hc (hb.room (hw ▸ hd)) (fun x hx => by rwa [hcal]) fun a ha _ => hgr a ha

theorem Took.room_drop {op : Opcode} (h : Took .lock s l.view t act (.release t (.entry a) op) s')
    (hc : Credit .lock s l) (hb : Books s l) (hd : MAX_SHARED_OWNERS < data s'.word)
    (hp : s.pc t = .releaseLoop (.entry a) op s.word) :
    (l.observe (.release t (.entry a) op)).Exclusive := by
  have hm : MAX_SHARED_OWNERS = 62 := by decide
  have hmask : DATA_MASK = 63 := by decide
  have hle := data_le_mask s.word
  have hl := h.inv.loc t
  have hdu := hc.dues t
  rw [hp] at hl hdu
  have hst : l.view.stat a = .final := hl.stat a rfl
  have hops : l.ops a = op := (hc.ops a (by rw [hst]; simp)).trans hdu.1.symm
  have hdata : data s'.word = data s.word - op.acquiredCount := h.effect.2.1
  refine h.exclusive (.inl rfl) hc (hb.room (by omega)) (fun x hx => hx) fun b hb' hx => ?_
  refine (List.mem_erase_of_ne ?_).mpr hb'
  rintro rfl
  rw [← hops, hx] at hdata
  simp only [Opcode.acquiredCount] at hdata
  omega

theorem Took.room_own {q : Req}
    (h : Took .lock s l.view t act (.acquire t (.caller t) q.goal.opcode) s')
    (htry : Trying (s.pc t) q) (hd : MAX_SHARED_OWNERS < data s'.word) :
    (l.observe (.acquire t (.caller t) q.goal.opcode)).Exclusive := by
  obtain ⟨hlt, hfree, hw⟩ := h.effect
  rw [hw] at hd
  have hreq := (h.inv.loc t).reqs q htry.deciding.reqs
  have hx := free_exclusive hfree hlt hd (opcode_fits hreq.1 hreq.2)
  refine .inl ⟨t, ?_⟩
  rw [hx]
  exact List.mem_cons_self ..

theorem Took.room_take {q : Req}
    (h : Took .lock s l.view t act (.acquire t (.entry q.entry) q.goal.opcode) s')
    (hc : Credit .lock s l) (htry : Trying (s.pc t) q) (hv : q.via = .pager)
    (hd : MAX_SHARED_OWNERS < data s'.word) :
    (l.observe (.acquire t (.entry q.entry) q.goal.opcode)).Exclusive := by
  obtain ⟨hlt, hfree, hw⟩ := h.effect
  rw [hw] at hd
  have hdu := hc.dues t
  have hreq := (h.inv.loc t).reqs q htry.deciding.reqs
  have hx : l.ops q.entry = .exclusive := by
    rw [← free_exclusive hfree hlt hd (opcode_fits hreq.1 hreq.2)]
    rcases htry with hp | ⟨state, i, hp⟩ <;> rw [hp] at hdu <;> exact hdu hv
  refine .inr ⟨q.entry, (mem_granted hc.nodup).mpr (.inl ⟨rfl, ?_⟩), hx⟩
  rw [hx]
  decide

/-- The data field exceeds the number of shared owners only for an exclusive owner. -/
theorem Took.room (h : Took .lock s l.view t act e s') (hc : Credit .lock s l) (hb : Books s l)
    (hd : MAX_SHARED_OWNERS < data s'.word) : (l.observe e).Exclusive := by
  have hk : Kind.Grants .lock := Or.inl rfl
  have hm : MAX_SHARED_OWNERS = 62 := by decide
  have hmask : DATA_MASK = 63 := by decide
  have hle := data_le_mask s.word
  have hstay := h.room_stay hc hb hd
  have hpay : ∀ op : Opcode, data s'.word = data s.word - op.acquiredCount →
      op = .exclusive ∨ op = .shared → (l.observe e).Exclusive := by
    rintro op hdata (rfl | rfl) <;> simp only [Opcode.acquiredCount] at hdata <;> omega
  have hns : ∀ b, s.slot b = .pager ∨ s.slot b = .used t → (s.pc t).after = none → ¬Spent s b :=
    fun b hsl hn => h.inv.not_spent hsl (by rw [hn]; simp)
  have hl := h.inv.loc t
  have hcl := hb.claims t
  have hef := h.effect
  have hmv := h.move
  generalize hp : s.pc t = p at hmv hl hns hcl
  generalize s'.pc t = p' at hmv
  cases hmv with
  | gate hg => cases hg
  | last hn | countDown hn | retry hn | writeBack hn => exact absurd hn hk.no_barrier
  | own htry => exact h.room_own (hp ▸ htry) hd
  | take htry hv => exact h.room_take hc (hp ▸ htry) hv hd
  | poll hsl hst =>
    have hw : s'.word = s.word := hef
    exact hc.exclusive_consume hst (hns _ (Or.inl hsl) rfl) (hb.room (by rw [← hw]; exact hd))
  | consume hst =>
    have hw : s'.word = s.word := hef
    have hsl := (hl.slot _).mp (if_neg (by rcases hl.fits.1 with hv | hv <;> rw [hv] <;> simp))
    exact hc.exclusive_consume hst (hns _ (Or.inr hsl) rfl) (hb.room (by rw [← hw]; exact hd))
  | finish =>
    refine hstay (congrArg data hef) rfl fun a ha => (List.mem_erase_of_ne ?_).mpr ha
    rintro rfl
    have hng : Receipt s l (.finish a) := hc.after t _ (by rw [hp]; rfl)
    exact hng ha
  | dropIdle hsl hst =>
    refine hstay (congrArg data hef) rfl fun a ha => (List.mem_erase_of_ne ?_).mpr ha
    rintro rfl
    exact hc.not_idle h.inv hsl hst ha
  | fast => exact hpay _ hef.2.1 (hb.kinds _ hcl)
  | @release o | @releasePass o =>
    cases o with
    | caller x => exact hpay _ hef.2.1 (hb.kinds _ hcl.2)
    | entry b => exact h.room_drop hc hb hd hp
  | poisonFast | poison =>
    rw [hef.2.2] at hd
    exact absurd hd (by decide)
  | clear =>
    rw [hef.2] at hd
    exact absurd hd (by decide)
  | update | add =>
    obtain ⟨-, htr, ⟨held, hheld, hg⟩, hdata, -⟩ := hef
    exact h.room_grant hc hb hheld hg
      (fun a ha => by rw [(h.inv.glob.taken t a).mp ha]; simp)
      (fun a ha hacq => (mem_granted hc.nodup).mpr (Or.inl ⟨ha, hacq⟩))
      (fun a ha => (mem_granted hc.nodup).mpr (Or.inr ⟨ha, id⟩)) rfl rfl (by omega) hd
  | tailReset =>
    obtain ⟨-, hw, hlt, hg⟩ := hef
    exact h.room_grant hc hb le_rfl hg
      (fun a ha => by rw [(h.inv.glob.queued a).mp ha]; simp)
      (fun a ha hacq => (mem_granted hc.nodup).mpr (Or.inl ⟨ha, hacq⟩))
      (fun a ha => (mem_granted hc.nodup).mpr (Or.inr ⟨ha, id⟩)) rfl rfl
      (by rw [data_eq s'.word]; omega) hd
  | lockQueue => exact hstay hef.2.2.2.2 rfl fun _ ha => ha
  | push => exact hstay hef.2.2.2.1 rfl fun _ ha => ha
  | unlink | unlinkOnly => exact hstay hef.2.1 rfl fun _ ha => ha
  | cut | tailCut => exact hstay (by rw [hef.2]) rfl fun _ ha => ha
  | acquire =>
    refine hstay (congrArg data hef) ?_ fun a ha => ?_
    · simp only [Ledger.observe, Ledger.record]
      split <;> rfl
    · simp only [Ledger.observe, Ledger.record]
      split <;> exact ha
  | enter hin =>
    cases hin with
    | gate hg => cases hg
    | _ => exact hstay (congrArg data hef) rfl fun _ ha => ha
  | _ => exact hstay (congrArg data hef) rfl fun _ ha => ha

/-- The accounts of a lock in every disciplined run. -/
structure Accounts (kind : Kind) (s : Cfg) (l : Ledger) : Prop where
  inv : Inv kind s l.view
  awake : Awake kind s l.view
  credit : Credit kind s l

theorem step_accounts {hist : List Event} (hk : kind.Grants)
    (ha : Accounts kind s (ledger hist)) (hcan : Solvent s (ledger hist))
    (hs : step kind s act = some (e, s')) :
    Accounts kind s' (ledger (e :: hist)) ∧
      Took kind s (ledger hist).view act.actor act e s' := by
  have hi' := step_inv ha.inv (ha.inv.not_intrudes hk.not_barrier)
    (fun t q c hp => absurd hp (ha.inv.no_writeBack hk.not_barrier)) hs
  have haw' := step_awake hk ha.inv hi' ha.awake hs
  have htook := took ha.inv hi' hs
  exact ⟨⟨hi', haw', step_credit hk htook ha.awake haw' ha.credit hcan⟩, htook⟩

theorem initial_accounts (kind : Kind) : Accounts kind kind.initial .initial :=
  ⟨initial_inv kind, ⟨fun _ a ha => absurd ha (by simp [View.initial, Ledger.initial]),
    fun _ => trivial⟩, initial_credit kind⟩

theorem reach_books {hist : List Event} (hr : Reach .lock Disciplined s hist) :
    Accounts .lock s (ledger hist) ∧ Books s (ledger hist) := by
  refine hr.invariant (P := fun s h => Accounts .lock s (ledger h) ∧ Books s (ledger h)) ?_ ?_
  · refine ⟨initial_accounts .lock, rfl, fun h => absurd h (by decide), ?_, fun t => trivial⟩
    intro c hc
    cases hc
  · rintro s h act e s' - ⟨ha, hb⟩ hok hs
    have hk : Kind.Grants .lock := Or.inl rfl
    obtain ⟨ha', htook⟩ := step_accounts hk ha (hb.solvent ha.credit ha.inv ha.awake) hs
    refine ⟨ha', ?_, fun hd => htook.room ha.credit hb hd, htook.kinds ha.credit hb,
      htook.claims hok hb.claims⟩
    have h₁ := balance hk htook ha.credit hok.1
    have h₂ := htook.held hk (hb.claims _)
    have h₃ := hb.sum
    simp only [ledger_cons]
    omega

theorem units {ops : List Opcode} (h : ∀ op ∈ ops, op = .exclusive ∨ op = .shared) :
    (ops.map Opcode.acquiredCount).sum = 63 * ops.count .exclusive + ops.count .shared := by
  have hm : DATA_MASK = 63 := by decide
  induction ops with
  | nil => rfl
  | cons op ops ih =>
    have ih := ih fun op hop => h op (List.mem_cons_of_mem _ hop)
    rw [List.map_cons, List.sum_cons, ih]
    rcases h op (List.mem_cons_self ..) with rfl | rfl
    · rw [List.count_cons_self, List.count_cons_of_ne (by simp)]
      simp only [Opcode.acquiredCount]
      omega
    · rw [List.count_cons_self, List.count_cons_of_ne (by simp)]
      simp only [Opcode.acquiredCount]
      omega

theorem owned_sum (l : Ledger) : (l.owned.map Opcode.acquiredCount).sum = l.held + l.charge := by
  simp only [Ledger.owned, Ledger.held, Ledger.charge, total, List.map_append, List.sum_append,
    List.map_map]
  rfl

theorem Books.owners (hb : Books s l) (ha : Accounts .lock s l) :
    (data s.word = DATA_MASK ↔ l.owners .exclusive = 1 ∧ l.owners .shared = 0) ∧
    (data s.word ≠ DATA_MASK →
      l.owners .exclusive = 0 ∧ data s.word = l.owners .shared) ∧
    l.owners .shared ≤ MAX_SHARED_OWNERS := by
  have hm : DATA_MASK = 63 := by decide
  have hs : MAX_SHARED_OWNERS = 62 := by decide
  have hkinds : ∀ op ∈ l.owned, op = .exclusive ∨ op = .shared := by
    intro op hop
    rcases List.mem_append.mp hop with hop | hop
    · obtain ⟨c, hc, rfl⟩ := List.mem_map.mp hop
      exact hb.kinds c hc
    · obtain ⟨a, hmem, rfl⟩ := List.mem_map.mp hop
      obtain ⟨hacq, hfit⟩ := ha.credit.owns ha.inv ha.awake hmem
      exact lock_opcode hfit hacq
  have hsum := hb.sum
  rw [← owned_sum, units hkinds] at hsum
  have hle := data_le_mask s.word
  have hroom : 0 < l.owners .exclusive ∨ data s.word ≤ 62 := by
    by_cases hd : MAX_SHARED_OWNERS < data s.word
    · refine Or.inl (List.count_pos_iff.mpr ?_)
      rcases hb.room hd with ⟨x, hx⟩ | ⟨a, hmem, hx⟩
      · exact List.mem_append_left _ (List.mem_map.mpr ⟨_, hx, rfl⟩)
      · exact List.mem_append_right _ (List.mem_map.mpr ⟨a, hmem, hx⟩)
    · exact Or.inr (by omega)
  unfold Ledger.owners at hroom ⊢
  refine ⟨⟨fun hd => ?_, fun ho => ?_⟩, fun hd => ?_, ?_⟩ <;> omega

/-- In every run of a lock whose callers release and poison only what they own, and in which no
drop of an entry that was told `POISONED` releases what somebody else acquired, the data field
is 63 exactly when there is one exclusive owner and no shared owner, and otherwise it is the
number of shared owners, at most 62. -/
theorem ownership_accounting {h : List Event} (hr : Reach .lock Disciplined s h) :
    (data s.word = DATA_MASK ↔
      (ledger h).owners .exclusive = 1 ∧ (ledger h).owners .shared = 0) ∧
    (data s.word ≠ DATA_MASK →
      (ledger h).owners .exclusive = 0 ∧ data s.word = (ledger h).owners .shared) ∧
    (ledger h).owners .shared ≤ MAX_SHARED_OWNERS := by
  obtain ⟨ha, hb⟩ := reach_books hr
  exact hb.owners ha

end

def sharing : List Action :=
  [.call 0 (.acquire ⟨.lock .exclusive, .tryOnly, 0⟩), .run 0, .run 0, .call 0 .releaseLock, .run 0,
    .call 1 (.acquire ⟨.lock .shared, .tryOnly, 0⟩), .run 1, .run 1,
    .call 2 (.acquire ⟨.lock .shared, .pager, 256⟩), .run 2]

theorem ownership_accounting_sharing :
    ∃ s h, execIf (system .lock) Disciplined (Kind.initial .lock) [] sharing = some (s, h) ∧
      data s.word = 2 ∧ data s.word = (ledger h).owners .shared := by
  obtain ⟨s, h, hrun, hd⟩ : ∃ s h, execIf (system .lock) Disciplined (Kind.initial .lock) []
      sharing = some (s, h) ∧ data s.word = 2 := ⟨_, _, rfl, rfl⟩
  refine ⟨s, h, hrun, hd, ((ownership_accounting (Run.execIf .init hrun)).2.1 ?_).2⟩
  rw [hd]
  decide

end Saa
