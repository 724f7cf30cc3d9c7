import Saa.Waiters

/-! # Who owns the resource

The ledger is computed from the history alone: an acquisition is accounted to the caller
whose call succeeded, or to the entry it was granted to until that entry is consumed or
dropped. `Credit` relates the entries of the ledger to the memory. -/
namespace Saa

open Word Lib.Linked Lib.Trace

/-- A granted operation takes something from the resource. -/
def Opcode.Acquires (op : Opcode) : Prop := op.acquiredCount ≠ 0

instance (op : Opcode) : Decidable op.Acquires := inferInstanceAs (Decidable (_ ≠ _))

structure Ledger where
  view : View
  /-- What each entry asked for in its last registration. -/
  ops : Ptr → Opcode
  /-- Entries whose count is in the word and whose result was not consumed. -/
  granted : List Ptr
  /-- Acquisitions that callers have not released. -/
  callers : List (Tid × Opcode)

def Ledger.initial : Ledger := ⟨.initial, fun _ => .wait 0, [], []⟩

def Ledger.grant (l : Ledger) (as : List Ptr) : Ledger :=
  { l with granted := as.filter (fun a => (l.ops a).Acquires) ++ l.granted }

/-- The part of an event that concerns ownership. -/
def Ledger.record (l : Ledger) : Event → Ledger
  | .call _ (.acquire q) =>
    if q.via = .tryOnly then l else { l with ops := Function.update l.ops q.entry q.goal.opcode }
  | .push _ a op | .countDown _ a op => { l with ops := Function.update l.ops a op }
  | .acquire _ (.entry a) _ => l.grant [a]
  | .acquire _ (.caller t) op =>
    if op.Acquires then { l with callers := (t, op) :: l.callers } else l
  | .grant t _ => l.grant (l.view.taken t)
  | .tailReset _ => l.grant l.view.queue
  | .release _ (.entry a) _ | .dropped _ a => { l with granted := l.granted.erase a }
  | .release _ (.caller t) op => { l with callers := l.callers.erase (t, op) }
  | .poison t => { l with callers := l.callers.erase (t, .exclusive) }
  | .consume t a r =>
    { l with
      granted := l.granted.erase a
      callers := if r = ACQUIRED ∧ (l.ops a).Acquires then (t, l.ops a) :: l.callers
        else l.callers }
  | _ => l

def Ledger.observe (l : Ledger) (e : Event) : Ledger :=
  { l.record e with view := l.view.observe e }

def ledger (h : List Event) : Ledger := fold Ledger.observe .initial h

@[simp] theorem ledger_nil : ledger [] = .initial := rfl

@[simp] theorem ledger_cons (e : Event) (h : List Event) :
    ledger (e :: h) = (ledger h).observe e := rfl

@[simp] theorem ledger_view (h : List Event) : (ledger h).view = view h := by
  induction h with
  | nil => rfl
  | cons e h ih => simp [Ledger.observe, ih]

/-- The entries a step adds to the ledger. -/
def Ledger.Adds (l : Ledger) (a : Ptr) : Event → Prop
  | .acquire _ (.entry b) _ => a = b ∧ (l.ops a).Acquires
  | .grant t _ => a ∈ l.view.taken t ∧ (l.ops a).Acquires
  | .tailReset _ => a ∈ l.view.queue ∧ (l.ops a).Acquires
  | _ => False

/-- The entries a step takes from the ledger. -/
def Event.Removes (a : Ptr) : Event → Prop
  | .release _ (.entry b) _ | .dropped _ b | .consume _ b _ => a = b
  | _ => False

def Event.Names (a : Ptr) : Event → Prop
  | .call _ (.acquire q) => q.via ≠ .tryOnly ∧ a = q.entry
  | .push _ b _ | .countDown _ b _ => a = b
  | _ => False

section
variable {l : Ledger} {a : Ptr} {e : Event}

theorem mem_granted (hn : l.granted.Nodup) :
    a ∈ (l.observe e).granted ↔ l.Adds a e ∨ a ∈ l.granted ∧ ¬e.Removes a := by
  have herase : ∀ b, a ∈ l.granted.erase b ↔ a ∈ l.granted ∧ ¬a = b := fun b => by
    rw [hn.mem_erase_iff, and_comm]
  cases e with
  | acquire t o op =>
    cases o with
    | caller u =>
      simp only [Ledger.observe, Ledger.record, Ledger.Adds, Event.Removes]
      split <;> simp
    | entry b =>
      simp only [Ledger.observe, Ledger.record, Ledger.grant, Ledger.Adds, Event.Removes,
        List.mem_append, List.mem_filter, List.mem_singleton, decide_eq_true_eq]
      simp
  | release t o op =>
    cases o <;> simp [Ledger.observe, Ledger.record, Ledger.Adds, Event.Removes, herase]
  | call t op =>
    cases op <;> simp only [Ledger.observe, Ledger.record, Ledger.Adds, Event.Removes] <;>
      (try split) <;> simp
  | _ => simp [Ledger.observe, Ledger.record, Ledger.grant, Ledger.Adds, Event.Removes, herase]

theorem ops_observe (h : ¬e.Names a) : (l.observe e).ops a = l.ops a := by
  cases e with
  | acquire t o op =>
    cases o with
    | caller u =>
      simp only [Ledger.observe, Ledger.record]
      split <;> rfl
    | entry b => rfl
  | release t o op => cases o <;> rfl
  | call t op =>
    cases op with
    | acquire q =>
      simp only [Ledger.observe, Ledger.record]
      split
      · rfl
      · next hv => exact Function.update_of_ne (fun he => h ⟨hv, he⟩) _ _
    | _ => rfl
  | push t b op => exact Function.update_of_ne h _ _
  | countDown t b op => exact Function.update_of_ne h _ _
  | _ => rfl

theorem nodup_granted (hn : l.granted.Nodup) (hq : l.view.queue.Nodup)
    (ht : ∀ t, (l.view.taken t).Nodup) (hadd : ∀ a, l.Adds a e → a ∉ l.granted) :
    (l.observe e).granted.Nodup := by
  have hgrant : ∀ as : List Ptr, as.Nodup → (∀ b ∈ as, (l.ops b).Acquires → b ∉ l.granted) →
      (l.grant as).granted.Nodup := by
    intro as has hnew
    refine List.nodup_append'.mpr ⟨has.filter _, hn, ?_⟩
    intro b hb
    rw [List.mem_filter, decide_eq_true_eq] at hb
    exact hnew b hb.1 hb.2
  cases e with
  | acquire t o op =>
    cases o with
    | caller u =>
      simp only [Ledger.observe, Ledger.record]
      split <;> exact hn
    | entry b =>
      refine hgrant [b] (List.nodup_singleton b) fun c hc ho => hadd c ⟨?_, ho⟩
      exact List.mem_singleton.mp hc
  | grant t tr => exact hgrant _ (ht t) fun b hb ho => hadd b ⟨hb, ho⟩
  | tailReset t => exact hgrant _ hq fun b hb ho => hadd b ⟨hb, ho⟩
  | release t o op =>
    cases o with
    | caller u => exact hn
    | entry b => exact hn.erase b
  | dropped t b => exact hn.erase b
  | consume t b r => exact hn.erase b
  | call t op =>
    cases op with
    | acquire q =>
      simp only [Ledger.observe, Ledger.record]
      split <;> exact hn
    | _ => exact hn
  | _ => exact hn

end

/-- The thread detached entries and has not added their counts to the word. -/
def Pc.Counting : Pc → Prop
  | .update _ _ _ _ _ | .add _ _ _ _ _ => True
  | _ => False

theorem Pc.Counting.holds {p : Pc} (h : p.Counting) : p.Holds := by
  cases p with
  | walk | relink | back | tailReset | resolve | finalize | remove => trivial
  | _ => exact h

/-- The entry waits for a count: it is queued, or detached before the count is added. -/
def Owed (s : Cfg) (v : View) (a : Ptr) : Prop :=
  v.stat a = .queued ∨ ∃ t, v.stat a = .taken t ∧ (s.pc t).Counting

def Then.after : Then → Option After
  | .pass _ _ k | .leave k => some k
  | _ => none

/-- What is left of a drop or a release when the thread is done with the queue. -/
def Pc.after : Pc → Option After
  | .walk _ _ k | .relink _ _ _ k | .back _ _ _ _ _ k | .tailReset _ _ _ _ k
  | .update _ _ _ _ k | .add _ _ _ _ k => some k
  | .resolve _ _ _ k | .finalize _ _ _ _ k => k.after
  | .dropLoop a state => if Locked state ∨ anchor state ≠ 0 then none else some (.complete a state)
  | .complete a state => some (.complete a state)
  | .finish a => some (.finish a)
  | _ => none

theorem after_pc_after {k k' : After} (h : k.pc.after = some k') : k' = k := by
  cases k <;> simp_all [After.pc, Pc.after]

/-- The drop of the entry is past its release. -/
def Spent (s : Cfg) (a : Ptr) : Prop := ∃ t, (s.pc t).after = some (.finish a)

/-- What the rest of a drop relies on. -/
def Receipt (s : Cfg) (l : Ledger) : After → Prop
  | .returned => True
  | .finish a => a ∉ l.granted
  | .complete a state => ¬Owed s l.view a ∧ (a ∈ l.granted → (s.opcode a).CanRelease state)

def Settles (kind : Kind) (s : Cfg) (l : Ledger) (a : Ptr) (r : ℕ) : Prop :=
  (r = ACQUIRED ∨ kind = .lock ∧ r = POISONED) ∧
    (a ∈ l.granted ↔ r = ACQUIRED ∧ (s.opcode a).Acquires)

/-- What each program point knows about the ledger. -/
def Dues (kind : Kind) (s : Cfg) (l : Ledger) (t : Tid) : Pc → Prop
  | .start q | .attempt q _ _ | .push q _ => q.via = .pager → l.ops q.entry = q.goal.opcode
  | .settle q r => q.via = .pager ∧ l.ops q.entry = q.goal.opcode ∧ Settles kind s l q.entry r
  | .resolve _ r _ _ | .finalize _ _ r _ _ => ∀ a ∈ l.view.taken t, Settles kind s l a r
  | .remove a found _ _ _ => l.view.stat a = .queued ∨ Receipt s l (.complete a found)
  | .releaseLoop (.entry a) op state => op = s.opcode a ∧ (a ∈ l.granted → op.CanRelease state)
  | _ => True

def Stat.Resolved (st : Stat) : Prop := st = .final ∨ ∃ t, st = .answered t

structure Credit (kind : Kind) (s : Cfg) (l : Ledger) : Prop where
  ops : ∀ a, l.view.stat a ≠ .idle → l.ops a = s.opcode a
  nodup : l.granted.Nodup
  source : ∀ a ∈ l.granted, ¬Owed s l.view a ∧ l.view.stat a ≠ .unlinked ∧
    (l.view.stat a = .idle → ∃ t q, s.pc t = .settle q ACQUIRED ∧ q.entry = a)
  answer : ∀ a, (l.view.stat a).Resolved → ¬Spent s a → Settles kind s l a (s.state a).result
  after : ∀ t k, (s.pc t).after = some k → Receipt s l k
  dues : ∀ t, Dues kind s l t (s.pc t)

section
variable {kind : Kind} {s s' : Cfg} {v : View} {l : Ledger} {t : Tid} {a : Ptr} {act : Action}
  {e : Event} {p p' : Pc}

theorem stat_queued (h : (v.observe e).stat a = .queued) :
    v.stat a = .queued ∨ ∃ t op, e = .push t a op ∨ e = .countDown t a op := by
  cases e <;> simp only [View.observe, View.detach, Function.update_apply] at h <;>
    (try split at h) <;> simp_all

theorem stat_taken {u : Tid} (h : (v.observe e).stat a = .taken u) :
    v.stat a = .taken u ∨ a ∈ v.queue := by
  have hbehind : ∀ b, a ∈ behind b v.queue → a ∈ v.queue := fun b hb =>
    (List.dropWhile_sublist _).subset (List.mem_of_mem_tail hb)
  cases e with
  | cut t b =>
    simp only [View.observe, View.detach] at h
    split at h
    · next hm => exact Or.inr (hbehind b hm)
    · exact Or.inl h
  | push | countDown | last | writeBack | tailReset | unlink | poison | wakeAll | setResult |
    finalize | consume | retry | dropped =>
    simp only [View.observe, View.detach, Function.update_apply] at h
    split at h <;> simp_all
  | _ => exact Or.inl h

theorem after_not_counting (k : After) : ¬k.pc.Counting := by
  cases k <;> exact id

theorem dropPc_not_counting (kind : Kind) (a : Ptr) : ¬(kind.dropPc a).Counting := by
  cases kind <;> exact id

theorem Move.counting (hm : Move kind s v t act p e p') (hk : kind.Grants) (hc : p'.Counting) :
    p.Counting ∨ p.takePtr = 0 := by
  cases hm with
  | gate hg => exact absurd hg hk.not_gate
  | enter hin =>
    cases hin with
    | gate hg => exact absurd hg hk.not_gate
    | _ => exact absurd hc id
  | drop | cancel => exact absurd hc (dropPc_not_counting _ _)
  | unreleased | release | leave => exact absurd hc (after_not_counting _)
  | cut => exact Or.inr rfl
  | tailCut => exact Or.inr rfl
  | missed => exact Or.inl trivial
  | _ => exact absurd hc id

theorem Move.not_owed (hm : Move kind s v t act p e p') (hk : kind.Grants) (h : Inv kind s v)
    (hf : Frame s v t e s') (hp : s.pc t = p) (hp' : s'.pc t = p') (hi : v.stat a ≠ .idle)
    (ho : ¬Owed s v a) : ¬Owed s' (v.observe e) a := by
  have hl := h.loc t
  rw [hp] at hl
  have hq : v.stat a ≠ .queued := fun hq => ho (Or.inl hq)
  rintro (hst | ⟨u, hst, hc⟩)
  · rcases stat_queued hst with hst | ⟨u, op, rfl | rfl⟩
    · exact hq hst
    · cases hm with
      | gate hg => exact hk.not_gate hg
      | push => exact hi (hl.stat _ (if_neg hl.fits.1))
    · cases hm with
      | gate hg => exact hk.not_gate hg
      | countDown hn => exact absurd hn hk.no_barrier
  · rcases stat_taken hst with hst | hst
    swap
    · exact hq ((h.glob.queued a).mp hst)
    have hmem : a ∈ v.taken u := (h.glob.taken u a).mpr hst
    have hnc : ¬(s.pc u).Counting := fun hc => ho (Or.inr ⟨u, hst, hc⟩)
    by_cases hu : u = t
    swap
    · exact hnc (by rwa [hf.pc u hu] at hc)
    subst hu
    rw [hp] at hnc
    rw [hp'] at hc
    rcases hm.counting hk hc with hc | hz
    · exact hnc hc
    · rw [hl.taken_nil hz] at hmem
      cases hmem

theorem Move.adds (hm : Move kind s v t act p e p') (hk : kind.Grants) (h : Inv kind s v)
    (hp : s.pc t = p) (hv : l.view = v) (ha : l.Adds a e) :
    Owed s v a ∨ ∃ q, Trying p q ∧ q.via = .pager ∧ q.entry = a ∧ p' = .settle q ACQUIRED ∧
      e = .acquire t (.entry a) q.goal.opcode := by
  subst hv
  cases hm with
  | gate hg => exact absurd hg hk.not_gate
  | take hd hvia =>
    obtain ⟨rfl, -⟩ := ha
    exact Or.inr ⟨_, hd, hvia, rfl, rfl, rfl⟩
  | update | add =>
    exact Or.inl (Or.inr ⟨t, (h.glob.taken t a).mp ha.1, by rw [hp]; trivial⟩)
  | tailReset => exact Or.inl (Or.inl ((h.glob.queued a).mp ha.1))
  | _ => exact absurd ha id

theorem Move.removes (hm : Move kind s v t act p e p') (hk : kind.Grants) (h : Inv kind s v)
    (hp : s.pc t = p) (ha : e.Removes a) :
    (s.slot a = .pager ∨ s.slot a = .used t) ∧
      (v.stat a = .final ∨ v.stat a = .unlinked ∨ v.stat a = .idle) ∧
      ((v.observe e).stat a = .idle ∨ v.stat a = .final ∧ p'.after = some (.finish a) ∧
        ∃ op, p = .releaseLoop (.entry a) op s.word ∧ e = .release t (.entry a) op) := by
  have hl := h.loc t
  rw [hp] at hl
  cases hm with
  | gate hg => exact absurd hg hk.not_gate
  | poll hsl hst =>
    subst ha
    exact ⟨Or.inl hsl, Or.inl hst, Or.inl (by simp [View.observe])⟩
  | dropIdle hsl hst =>
    subst ha
    exact ⟨Or.inl hsl, Or.inr (Or.inr hst), Or.inl (by simp [View.observe])⟩
  | consume hst =>
    subst ha
    refine ⟨Or.inr ((hl.slot _).mp (if_neg ?_)), Or.inl hst, Or.inl (by simp [View.observe])⟩
    rcases hl.fits.1 with hv | hv <;> rw [hv] <;> simp
  | finish =>
    subst ha
    exact ⟨Or.inr ((hl.slot _).mp rfl), hl.stat _ rfl, Or.inl (by simp [View.observe])⟩
  | @release o op =>
    cases o with
    | caller u => exact absurd ha id
    | entry b =>
      obtain rfl : a = b := ha
      exact ⟨Or.inr ((hl.slot _).mp rfl), Or.inl (hl.stat _ rfl),
        Or.inr ⟨hl.stat _ rfl, rfl, op, rfl, rfl⟩⟩
  | @releasePass o op w =>
    cases o with
    | caller u => exact absurd ha id
    | entry b =>
      obtain rfl : a = b := ha
      exact ⟨Or.inr ((hl.slot _).mp rfl), Or.inl (hl.stat _ rfl),
        Or.inr ⟨hl.stat _ rfl, rfl, op, rfl, rfl⟩⟩
  | _ => exact absurd ha id

theorem Move.names (hm : Move kind s v t act p e p') (hk : kind.Grants) (h : Inv kind s v)
    (hp : s.pc t = p) (ha : e.Names a) : v.stat a = .idle ∧
      (s.slot a = .used t ∨ ∀ u, s.slot a ≠ .used u) := by
  have hl := h.loc t
  rw [hp] at hl
  cases hm with
  | gate hg => exact absurd hg hk.not_gate
  | acquire hf htoo hfresh =>
    obtain ⟨hv, rfl⟩ := ha
    exact ⟨(hfresh hv).1, Or.inr (hfresh hv).2⟩
  | push =>
    subst ha
    exact ⟨hl.stat _ (if_neg hl.fits.1), Or.inl ((hl.slot _).mp (if_neg hl.fits.1))⟩
  | countDown hn => exact absurd hn hk.no_barrier
  | enter hin =>
    cases hin with
    | gate hg => exact absurd hg hk.not_gate
    | _ => exact absurd ha id
  | _ => exact absurd ha id

end
end Saa
