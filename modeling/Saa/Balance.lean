import Mathlib.Algebra.BigOperators.Group.List.Basic
import Saa.Credit

/-! # The balance of the data field

Every step changes the data field by what callers gain and return and by what the entries
of the ledger own: nothing is lost or created on the way through the queue. -/
namespace Saa

open Word Lib.Linked Lib.Trace

def Ledger.charge (l : Ledger) : ℕ := total l.ops l.granted

/-- Units a step hands to a caller. -/
def Ledger.gained (l : Ledger) : Event → ℕ
  | .acquire _ (.caller _) op => op.acquiredCount
  | .consume _ a r => if r = ACQUIRED then (l.ops a).acquiredCount else 0
  | _ => 0

/-- Units a step takes back from a caller. -/
def Event.returned : Event → ℕ
  | .release _ (.caller _) op => op.acquiredCount
  | .poison _ => DATA_MASK
  | _ => 0

/-- The drop of an entry that was told that the lock is poisoned releases a lock which
the entry never acquired. -/
def Misreleases (s : Cfg) : Action → Prop
  | .run t => match s.pc t with
    | .releaseLoop (.entry a) op state => (s.state a).result = POISONED ∧ s.word = state ∧
        op.CanRelease state ∧ op.Acquires
    | _ => False
  | .call _ _ | .cancel _ => False

instance (s : Cfg) (act : Action) : Decidable (Misreleases s act) := by
  unfold Misreleases
  split
  · split <;> infer_instance
  · infer_instance
  · infer_instance

section
variable {kind : Kind} {s s' : Cfg} {l : Ledger} {t u : Tid} {a : Ptr} {act : Action}
  {e : Event} {o : Ptr → Opcode} {as bs : List Ptr}

theorem total_append : total o (as ++ bs) = total o as + total o bs := by
  simp [total]

theorem total_filter : total o (as.filter fun a => (o a).Acquires) = total o as := by
  induction as with
  | nil => rfl
  | cons b as ih =>
    by_cases hb : (o b).Acquires
    · rw [List.filter_cons_of_pos (by simpa using hb), total_cons, total_cons, ih]
    · rw [List.filter_cons_of_neg (by simpa using hb), total_cons, ih]
      unfold Opcode.Acquires at hb
      omega

theorem total_erase (h : a ∈ as) : total o (as.erase a) + (o a).acquiredCount = total o as := by
  have := List.sum_map_erase (fun b => (o b).acquiredCount) h
  simp only [total]
  omega

theorem le_total (h : a ∈ as) : (o a).acquiredCount ≤ total o as := by
  have := total_erase (o := o) h
  omega

theorem grant_charge (l : Ledger) (as : List Ptr) :
    (l.grant as).charge = total l.ops as + l.charge := by
  simp only [Ledger.charge, Ledger.grant, total_append, total_filter]

theorem charge_grant (l : Ledger) (t : Tid) (n : ℕ) :
    (l.observe (.grant t n)).charge = total l.ops (l.view.taken t) + l.charge :=
  grant_charge l (l.view.taken t)

theorem charge_tailReset (l : Ledger) (t : Tid) :
    (l.observe (.tailReset t)).charge = total l.ops l.view.queue + l.charge :=
  grant_charge l l.view.queue

theorem charge_acquire (l : Ledger) (t : Tid) (a : Ptr) (op : Opcode) :
    (l.observe (.acquire t (.entry a) op)).charge = (l.ops a).acquiredCount + l.charge := by
  have h : (l.observe (.acquire t (.entry a) op)).charge = total l.ops [a] + l.charge :=
    grant_charge ..
  simpa [total] using h

theorem Inv.not_spent {v : View} (h : Inv kind s v) (hsl : s.slot a = .pager ∨ s.slot a = .used t)
    (ht : (s.pc t).after ≠ some (.finish a)) : ¬Spent s a := by
  rintro ⟨u, hu⟩
  have hsu := ((h.loc u).slot a).mp (after_entry hu).1
  rcases hsl with hsl | hsl <;> rw [hsl] at hsu <;> cases hsu
  exact ht hu

theorem Took.ops_granted (h : Took kind s l.view t act e s') (hk : kind.Grants)
    (hc : Credit kind s l) (ha : a ∈ l.granted) : (l.observe e).ops a = l.ops a := by
  refine ops_observe fun hn => ?_
  obtain ⟨hi, hor⟩ := h.move.names hk h.inv rfl hn
  obtain ⟨x, q, hx, rfl⟩ := (hc.source a ha).2.2 hi
  have hlx := h.inv.loc x
  rw [hx] at hlx
  have hsl := (hlx.slot q.entry).mp (if_neg hlx.fits)
  rcases hor with hor | hor
  · rw [hsl] at hor
    cases hor
    have hm := h.move
    rw [hx] at hm
    generalize s'.pc t = p' at hm
    cases hm with
    | gate hg => exact absurd hg hk.not_gate
    | own htry => rcases htry with hq | ⟨_, _, hq⟩ <;> cases hq
    | take htry => rcases htry with hq | ⟨_, _, hq⟩ <;> cases hq
    | settle => exact hn
  · exact hor x hsl

theorem Took.charge_same (h : Took kind s l.view t act e s') (hk : kind.Grants)
    (hc : Credit kind s l) (hg : (l.observe e).granted = l.granted) :
    (l.observe e).charge = l.charge := by
  unfold Ledger.charge
  rw [hg]
  exact total_congr fun a ha => h.ops_granted hk hc ha

theorem erase_charge (l : Ledger) (e : Event) (he : (l.observe e).granted = l.granted.erase a)
    (hops : (l.observe e).ops = l.ops) :
    l.charge = (l.observe e).charge + if a ∈ l.granted then (l.ops a).acquiredCount else 0 := by
  unfold Ledger.charge
  rw [he, hops]
  split
  · next ha => exact (total_erase ha).symm
  · next ha => rw [List.erase_of_not_mem ha, Nat.add_zero]

theorem free_lt {op : Opcode} {w : ℕ} (h : op.Free w) (hw : w < 64) :
    w + op.acquiredCount < 64 := by
  have hm : MAX_SHARED_OWNERS = 62 := by decide
  have hd : DATA_MASK = 63 := by decide
  cases op with
  | exclusive =>
    simp only [Opcode.Free] at h
    simp only [Opcode.acquiredCount]
    omega
  | shared =>
    simp only [Opcode.Free] at h
    simp only [Opcode.acquiredCount]
    omega
  | semaphore c =>
    simp only [Opcode.Free, data_eq, MAX_PERMITS] at h
    simp only [Opcode.acquiredCount]
    omega
  | barrier => exact absurd h id
  | wait => exact absurd h id

theorem Took.balance_release (h : Took kind s l.view t (.run t) e s') (hc : Credit kind s l)
    (hok : ¬Misreleases s (.run t)) {op : Opcode} (hp : s.pc t = .releaseLoop (.entry a) op s.word)
    (he : e = .release t (.entry a) op) :
    data s'.word + l.charge = data s.word + (l.observe e).charge := by
  subst he
  have hl := h.inv.loc t
  have hd := hc.dues t
  rw [hp] at hl hd
  obtain ⟨hcan, hdata, -⟩ := h.effect
  have hle := acquired_le_data hcan
  have hst : l.view.stat a = .final := hl.stat a rfl
  have hops : l.ops a = op := (hc.ops a (by rw [hst]; simp)).trans hd.1.symm
  have hcharge := erase_charge l (.release t (.entry a) op) rfl rfl
  by_cases hg : a ∈ l.granted
  · rw [if_pos hg, hops] at hcharge
    omega
  · rw [if_neg hg] at hcharge
    have hns : ¬Spent s a :=
      h.inv.not_spent (Or.inr ((hl.slot a).mp rfl)) (by rw [hp]; simp [Pc.after])
    obtain ⟨hcode, hiff⟩ := hc.answer a (Or.inl hst) hns
    have hz : op.acquiredCount = 0 := by
      by_contra hz
      rcases hcode with hr | ⟨-, hr⟩
      · exact hg (hiff.mpr ⟨hr, by rw [← hd.1]; exact hz⟩)
      · refine hok ?_
        simp only [Misreleases, hp]
        exact ⟨hr, trivial, hcan, hz⟩
    omega

theorem Credit.balance_consume (hc : Credit kind s l) (hst : l.view.stat a = .final)
    (hns : ¬Spent s a) :
    l.charge = (l.observe (.consume t a (s.state a).result)).charge +
      l.gained (.consume t a (s.state a).result) := by
  have hcharge := erase_charge l (.consume t a (s.state a).result) rfl rfl
  have hops : l.ops a = s.opcode a := hc.ops a (by rw [hst]; simp)
  obtain ⟨hcode, hiff⟩ := hc.answer a (Or.inl hst) hns
  rw [hcharge]
  simp only [Ledger.gained]
  by_cases hr : (s.state a).result = ACQUIRED
  · by_cases hacq : (s.opcode a).Acquires
    · rw [if_pos (hiff.mpr ⟨hr, hacq⟩), if_pos hr]
    · rw [if_neg fun hg => hacq (hiff.mp hg).2, if_pos hr, hops, not_not.mp hacq]
  · rw [if_neg fun hg => hr (hiff.mp hg).1, if_neg hr]

def Balanced (s s' : Cfg) (l : Ledger) (e : Event) : Prop :=
  data s'.word + l.charge + e.returned = data s.word + (l.observe e).charge + l.gained e

theorem Balanced.still (hw : data s'.word = data s.word)
    (hg : (l.observe e).charge = l.charge) (hret : e.returned = 0) (hgain : l.gained e = 0) :
    Balanced s s' l e := by
  unfold Balanced
  rw [hw, hg, hret, hgain]

theorem Took.balanced_own {op : Opcode}
    (h : Took kind s l.view t act (.acquire t (.caller u) op) s')
    (hk : kind.Grants) (hc : Credit kind s l) :
    Balanced s s' l (.acquire t (.caller u) op) := by
  obtain ⟨hlt, hfree, hw⟩ := h.effect
  have hlt' := free_lt hfree hlt
  have hg := h.charge_same hk hc (by simp only [Ledger.observe, Ledger.record]; split <;> rfl)
  simp only [Balanced, data_eq, Event.returned, Ledger.gained, hg, hw]
  omega

theorem Took.balanced_take {q : Req}
    (h : Took kind s l.view t act (.acquire t (.entry q.entry) q.goal.opcode) s')
    (hc : Credit kind s l) (htry : Trying (s.pc t) q) (hv : q.via = .pager) :
    Balanced s s' l (.acquire t (.entry q.entry) q.goal.opcode) := by
  obtain ⟨hlt, hfree, hw⟩ := h.effect
  have hlt' := free_lt hfree hlt
  have hd := hc.dues t
  have hops : l.ops q.entry = q.goal.opcode := by
    rcases htry with hp | ⟨state, i, hp⟩ <;> rw [hp] at hd <;> exact hd hv
  rw [Balanced, charge_acquire, hops]
  simp only [data_eq, Event.returned, Ledger.gained, hw]
  omega

theorem Balanced.consume (hc : Credit kind s l) (hw : s'.word = s.word)
    (hst : l.view.stat a = .final) (hns : ¬Spent s a) :
    Balanced s s' l (.consume t a (s.state a).result) := by
  have := hc.balance_consume (t := t) hst hns
  simp only [Balanced, Event.returned, hw]
  omega

theorem Took.balanced_returned {op : Opcode}
    (h : Took kind s l.view t act (.release t (.caller u) op) s')
    (hk : kind.Grants) (hc : Credit kind s l) : Balanced s s' l (.release t (.caller u) op) := by
  obtain ⟨hcan, hdata, -⟩ := h.effect
  have hle := acquired_le_data hcan
  have hg := h.charge_same hk hc rfl
  simp only [Balanced, Event.returned, Ledger.gained, hg]
  omega

theorem Took.balanced_poison (h : Took kind s l.view t act (.poison t) s') (hk : kind.Grants)
    (hc : Credit kind s l) : Balanced s s' l (.poison t) := by
  obtain ⟨hd, -, hw⟩ := h.effect
  have hz : data POISONED_STATE = 0 := by decide
  have hg := h.charge_same hk hc rfl
  simp only [Balanced, Event.returned, Ledger.gained, hg, hw, hz, hd]
  omega

theorem Took.balanced_grant {tr : ℕ} (h : Took kind s l.view t act (.grant t tr) s')
    (hc : Credit kind s l) : Balanced s s' l (.grant t tr) := by
  obtain ⟨-, htr, -, hdata, -⟩ := h.effect
  have hcong : total l.ops (l.view.taken t) = total s.opcode (l.view.taken t) :=
    total_congr fun b hb => hc.ops b (by rw [(h.inv.glob.taken t b).mp hb]; simp)
  simp only [Balanced, Event.returned, Ledger.gained]
  rw [charge_grant, hcong]
  omega

theorem Took.balanced_reset (h : Took kind s l.view t act (.tailReset t) s')
    (hc : Credit kind s l) : Balanced s s' l (.tailReset t) := by
  obtain ⟨-, hw, hlt, -⟩ := h.effect
  have hcong : total l.ops l.view.queue = total s.opcode l.view.queue :=
    total_congr fun b hb => hc.ops b (by rw [(h.inv.glob.queued b).mp hb]; simp)
  have hdw : data s'.word = s'.word := by
    rw [data_eq]
    omega
  simp only [Balanced, Event.returned, Ledger.gained]
  rw [charge_tailReset, hcong]
  omega

theorem Credit.not_idle (hc : Credit kind s l) (h : Inv kind s l.view) (hsl : s.slot a = .pager)
    (hst : l.view.stat a = .idle) : a ∉ l.granted := by
  intro hg
  obtain ⟨x, q, hx, rfl⟩ := (hc.source a hg).2.2 hst
  have hlx := h.loc x
  rw [hx] at hlx
  have hq := (hlx.slot q.entry).mp (if_neg hlx.fits)
  rw [hsl] at hq
  cases hq

/-- Every step is balanced, unless it releases for an entry what the entry never acquired. -/
theorem balance (hk : kind.Grants) (h : Took kind s l.view t act e s') (hc : Credit kind s l)
    (hok : ¬Misreleases s act) :
    data s'.word + l.charge + e.returned = data s.word + (l.observe e).charge + l.gained e := by
  have hl := h.inv.loc t
  have hsame : (l.observe e).granted = l.granted → (l.observe e).charge = l.charge :=
    h.charge_same hk hc
  have hns : ∀ b, s.slot b = .pager ∨ s.slot b = .used t → (s.pc t).after = none → ¬Spent s b :=
    fun b hsl hn => h.inv.not_spent hsl (by rw [hn]; simp)
  have hef := h.effect
  have hm := h.move
  change Balanced s s' l e
  generalize hp : s.pc t = p at hm hl hns
  generalize s'.pc t = p' at hm
  cases hm with
  | gate hg => exact absurd hg hk.not_gate
  | last hn | countDown hn | writeBack hn | retry hn => exact absurd hn hk.no_barrier
  | own => exact h.balanced_own hk hc
  | take htry hv => exact h.balanced_take hc (hp ▸ htry) hv
  | poll hsl hst => exact .consume hc hef hst (hns _ (.inl hsl) rfl)
  | consume hst =>
    have hsl := (hl.slot _).mp (if_neg (by rcases hl.fits.1 with hv | hv <;> rw [hv] <;> simp))
    exact .consume hc hef hst (hns _ (.inr hsl) rfl)
  | finish =>
    have hng := hc.after t _ (by rw [hp]; rfl)
    exact .still (congrArg data hef) (hsame (List.erase_of_not_mem hng)) rfl rfl
  | dropIdle hsl hst =>
    have hng := hc.not_idle h.inv hsl hst
    exact .still (congrArg data hef) (hsame (List.erase_of_not_mem hng)) rfl rfl
  | fast => exact h.balanced_returned hk hc
  | @release o | @releasePass o =>
    cases o with
    | caller x => exact h.balanced_returned hk hc
    | entry b => exact h.balance_release hc hok hp rfl
  | poisonFast | poison => exact h.balanced_poison hk hc
  | clear =>
    obtain ⟨hw, hw'⟩ := hef
    exact .still (by rw [hw, hw']; decide) (hsame rfl) rfl rfl
  | update | add => exact h.balanced_grant hc
  | tailReset => exact h.balanced_reset hc
  | lockQueue => exact .still hef.2.2.2.2 (hsame rfl) rfl rfl
  | push => exact .still hef.2.2.2.1 (hsame rfl) rfl rfl
  | unlink | unlinkOnly => exact .still hef.2.1 (hsame rfl) rfl rfl
  | cut | tailCut => exact .still (congrArg data hef.2) (hsame rfl) rfl rfl
  | acquire =>
    have hg := hsame (by simp only [Ledger.observe, Ledger.record]; split <;> rfl)
    exact .still (congrArg data hef) hg rfl rfl
  | enter hin =>
    cases hin with
    | gate hg => exact absurd hg hk.not_gate
    | _ => exact .still (congrArg data hef) (hsame rfl) rfl rfl
  | _ => exact .still (congrArg data hef) (hsame rfl) rfl rfl

end
end Saa
