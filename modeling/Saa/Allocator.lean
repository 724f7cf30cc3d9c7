import Saa.Lib.Allocator
import Saa.Outcome
import Saa.Poison

/-! # Lock and semaphore as allocators

What the two primitives are for, said without words, links and threads: an allocator with
a waiting line. Every run is a run of it, in which a count is in use from the step that
adds it to the word, an entry joins the line with its push, and a poisoned lock is closed. -/
namespace Saa

open Word Lib.Linked Lib.Trace Lib.Greedy Lib.Refine Lib.Allocator

theorem Grantable.antitone {max held held' : ℕ} {op : Opcode} (hle : held' ≤ held)
    (hg : Grantable max held op) : Grantable max held' op := by
  unfold Grantable at hg ⊢
  omega

/-- The rules of `process_wait_queue`, `can_release` and `poison_lock`. -/
def Kind.rules (kind : Kind) : Rules Opcode where
  policy :=
    { admits held op := Grantable kind.maxSharedOwners held op
      weight := Opcode.acquiredCount
      dec _ _ := inferInstance
      antitone := Grantable.antitone }
  returns used op := op.CanRelease used
  closes used := kind = .lock ∧ used = DATA_MASK

def Kind.allocator (kind : Kind) : Spec (State Ptr Opcode) (Label Ptr Opcode) :=
  spec Ptr kind.rules (data kind.initialWord)

/-- The line through a poisoning, which empties it. -/
def Line.follow (l : Line) (e : Event) : Line where
  view := l.view.observe e
  waiting := match e with
    | .poison _ => []
    | e => (l.observe e).waiting

def lineup (h : List Event) : Line := fold Line.follow ⟨.initial, []⟩ h

def waiters (s : Cfg) (l : List Ptr) : List (Ptr × Opcode) := l.reverse.map fun a => (a, s.opcode a)

/-- What the allocator sees of a primitive. -/
def allocation (s : Cfg) (h : List Event) : State Ptr Opcode :=
  ⟨data s.word, waiters s (lineup h).waiting, poisoned h⟩

def label (h : List Event) : Event → Option (Label Ptr Opcode)
  | .acquire _ _ op => some (.take op)
  | .release _ _ op => some (.give op)
  | .push _ a op => some (.join a op)
  | .grant t _ => if (view h).taken t = [] then none else some (.serve ((view h).taken t).reverse)
  | .tailReset _ => some (.serve (view h).queue.reverse)
  | .unlink _ a => some (.leave a)
  | .poison _ => some .close
  | .clearPoison _ => some .reopen
  | _ => none

section
variable {kind : Kind} {s s' : Cfg} {h : List Event} {l : Line} {t : Tid} {a : Ptr}
  {act : Action} {e : Event} {as : List Ptr}

@[simp] theorem lineup_cons (e : Event) (h : List Event) :
    lineup (e :: h) = (lineup h).follow e := rfl

@[simp] theorem lineup_view (h : List Event) : (lineup h).view = view h := by
  induction h with
  | nil => rfl
  | cons e h ih => simp [Line.follow, ih]

theorem follow_eq (hp : ∀ x, e ≠ .poison x) : l.follow e = l.observe e := by
  cases e with
  | poison x => exact absurd rfl (hp x)
  | _ => rfl

theorem Took.inLine (ht : Took kind s l.view t act e s') (hk : kind.Grants) (hl : InLine s l) :
    InLine s' (l.follow e) := by
  by_cases hp : ∃ x, e = .poison x
  · obtain ⟨x, rfl⟩ := hp
    refine .inr ⟨fun u hu => ?_, rfl⟩
    exact ht.inv'.holds_not_poisoned hu.holds ht.effect.2.2
  · rw [not_exists] at hp
    rw [follow_eq hp]
    exact step_line ht hk hl hp

theorem reach_took (hk : kind.Grants) (hr : Reach kind free s h)
    (hs : step kind s act = some (e, s')) : Took kind s (view h) act.actor act e s' :=
  took (reach_inv hk.not_barrier hr) (reach_inv hk.not_barrier (.step hr trivial hs)) hs

theorem reach_lineup (hk : kind.Grants) (hr : Reach kind free s h) : InLine s (lineup h) := by
  refine hr.invariant (P := fun s h => InLine s (lineup h)) ?_ ?_
  · exact .inr ⟨fun t => id, rfl⟩
  · intro s h act e s' hr ih hok hs
    have ht := reach_took hk hr hs
    rw [← lineup_view] at ht
    exact ht.inLine hk ih

theorem InLine.registered {v : View} (hl : InLine s l) (hi : Inv kind s v) (hv : l.view = v)
    (ha : a ∈ l.waiting) : v.stat a ≠ .idle := by
  subst hv
  have hq : a ∈ l.view.queue → l.view.stat a ≠ .idle := by
    intro hm
    rw [(hi.glob.queued a).mp hm]
    simp
  rcases hl with ⟨t, -, hw⟩ | ⟨-, hw⟩
  · rw [hw, List.mem_append] at ha
    rcases ha with hm | hm
    · exact hq hm
    · rw [(hi.glob.taken t a).mp hm]
      simp
  · exact hq (hw ▸ ha)

theorem InLine.queue_subset (hl : InLine s l) : l.view.queue ⊆ l.waiting := by
  rcases hl with ⟨t, -, hw⟩ | ⟨-, hw⟩ <;> rw [hw]
  · exact List.subset_append_left _ _
  · exact List.Subset.refl _

theorem InLine.opcode (ht : Took kind s l.view t act e s') (hl : InLine s l)
    (hl' : InLine s' (l.follow e)) (ha : a ∈ l.waiting) (ha' : a ∈ (l.follow e).waiting) :
    s'.opcode a = s.opcode a :=
  ht.frame.kept a (hl.registered ht.inv rfl ha) (hl'.registered ht.inv' rfl ha')

theorem waiters_congr (ho : ∀ a ∈ as, s'.opcode a = s.opcode a) : waiters s' as = waiters s as := by
  refine List.map_congr_left fun a ha => ?_
  rw [ho a (List.mem_reverse.mp ha)]

theorem waiters_append {bs : List Ptr} : waiters s (as ++ bs) = waiters s bs ++ waiters s as := by
  simp [waiters]

theorem who_waiters : who (waiters s as) = as.reverse := by
  simp [who, waiters, Function.comp_def]

theorem wants_waiters : wants (waiters s as) = as.reverse.map s.opcode := by
  simp [wants, waiters, Function.comp_def]

theorem Took.admits {v : View} {x : Tid} {o : Holder} {op : Opcode}
    (ht : Took kind s v t act (.acquire x o op) s') (hk : kind.Grants) :
    Grantable kind.maxSharedOwners (data s.word) op := by
  obtain ⟨hlt, hfree, -⟩ := ht.effect
  have hreq : ∃ q : Req, q.Fits kind ∧ op = q.goal.opcode := by
    have hmv := ht.move
    have hl := ht.inv.loc t
    generalize s.pc t = p at hmv hl
    generalize s'.pc t = p' at hmv
    cases hmv with
    | gate hg => exact absurd hg hk.not_gate
    | @own _ q htry | @take _ q htry => exact ⟨q, (hl.reqs q htry.reqs).1, rfl⟩
  obtain ⟨q, hf, rfl⟩ := hreq
  have hm : MAX_SHARED_OWNERS = 62 := by decide
  have hd := data_eq s.word
  rcases grants_goal hk hf with ⟨⟨m, hg⟩, rfl⟩ | ⟨⟨c, hg⟩, n, rfl⟩
  · rw [hg] at hfree ⊢
    cases m with
    | exclusive =>
      refine .inl ?_
      rw [show s.word = 0 from hfree]
      rfl
    | shared =>
      replace hfree : s.word < MAX_SHARED_OWNERS := hfree
      refine .inr ?_
      change data s.word + 1 ≤ MAX_SHARED_OWNERS
      omega
    | waitExclusive | waitShared => exact hfree.elim
  · rw [hg] at hfree ⊢
    exact .inr hfree

theorem Took.poison_lock {v : View} {x : Tid} (ht : Took kind s v t act e s')
    (he : e = .poison x ∨ e = .clearPoison x) : kind = .lock := by
  have hmv := ht.move
  have hl := ht.inv.loc t
  generalize s.pc t = p at hmv hl
  generalize s'.pc t = p' at hmv
  rcases he with rfl | rfl
  · cases hmv with
    | gate _ hg => cases hg
    | poisonFast | poison => exact hl.fits
  · cases hmv with
    | gate _ hg => cases hg
    | clear => exact hl.fits

theorem Took.grant_counting {v : View} {x : Tid} {n : ℕ}
    (ht : Took kind s v t act (.grant x n) s') : x = t ∧ (s.pc t).Counting := by
  have hmv := ht.move
  generalize s.pc t = p at hmv
  generalize s'.pc t = p' at hmv
  cases hmv with
  | gate _ hg => cases hg
  | update | add => exact ⟨rfl, trivial⟩

theorem Took.reset_holds {v : View} {x : Tid} (ht : Took kind s v t act (.tailReset x) s') :
    (s.pc t).Holds ∧ ¬(s.pc t).Counting := by
  have hmv := ht.move
  generalize s.pc t = p at hmv
  generalize s'.pc t = p' at hmv
  cases hmv with
  | gate _ hg => cases hg
  | tailReset => exact ⟨trivial, id⟩

theorem Took.unlink_mem {v : View} {x : Tid} (ht : Took kind s v t act (.unlink x a) s') :
    a ∈ v.queue := by
  have hmv := ht.move
  generalize s.pc t = p at hmv
  generalize s'.pc t = p' at hmv
  cases hmv with
  | gate _ hg => cases hg
  | unlink hst => exact (ht.inv.glob.queued a).mpr hst
  | unlinkOnly hq =>
    rw [hq]
    exact List.mem_singleton_self a

theorem reach_open (hk : kind.Grants) (hr : Reach kind free s h)
    (hw : kind = .lock → s.word ≠ POISONED_STATE) : poisoned h = false := by
  rcases hk with rfl | ⟨n, rfl⟩
  · exact Bool.eq_false_iff.mpr fun hp => hw rfl ((reach_poisoned hr).mpr hp)
  · clear hw
    refine hr.invariant (P := fun s h => poisoned h = false) rfl ?_
    intro s h act e s' hr ih hok hs
    have ht := reach_took (.inr ⟨n, rfl⟩) hr hs
    cases e with
    | poison x => cases ht.poison_lock (.inl rfl)
    | clearPoison x => rfl
    | _ => exact ih

/-- Entries that are granted one after the other are served as a whole. -/
theorem greedy_serve {held : ℕ} (hg : Greedy kind.maxSharedOwners s.opcode held as) :
    kind.rules.policy.serve held (wants (waiters s as)) = wants (waiters s as) := by
  rw [wants_waiters]
  induction as with
  | nil => rfl
  | cons a as ih =>
    obtain ⟨hg, ha⟩ := hg
    have hload : kind.rules.policy.load (as.reverse.map s.opcode) = total s.opcode as := by
      simp [Policy.load, total, Kind.rules, Function.comp_def, List.sum_reverse]
    rw [List.reverse_cons, List.map_append, serve_append (ih hg), hload]
    congr 1
    exact serve_cons_of_admits ha

def Event.Foreign : Event → Prop
  | .countDown _ _ _ | .last _ _ | .writeBack _ _ | .wakeAll _ _ | .reset _ _ => True
  | _ => False

theorem Took.not_foreign {v : View} (ht : Took kind s v t act e s') (hk : kind.Grants) :
    ¬e.Foreign := by
  have hmv := ht.move
  generalize s.pc t = p at hmv
  generalize s'.pc t = p' at hmv
  cases hmv with
  | gate hg => exact absurd hg hk.not_gate
  | last hn => exact absurd hn hk.no_barrier
  | countDown hn => exact absurd hn hk.no_barrier
  | writeBack hn => exact absurd hn hk.no_barrier
  | _ => exact id

theorem InLine.nil {v : View} (hl : InLine s l) (hi : Inv kind s v) (hv : l.view = v)
    (hz : anchor s.word = 0) : l.waiting = [] := by
  subst hv
  rw [hl.queue fun u hu => hi.anchor_ne hu.holds hz]
  exact hi.glob.chain.eq_nil_iff.mpr hz

theorem InLine.kept (hl : InLine s l) (ht : Took kind s l.view t act e s') (hk : kind.Grants)
    (h₁ : ∀ a ∈ as, a ∈ l.waiting) (h₂ : ∀ a ∈ as, a ∈ (l.follow e).waiting) :
    waiters s' as = waiters s as :=
  waiters_congr fun a ha => InLine.opcode ht hl (ht.inLine hk hl) (h₁ a ha) (h₂ a ha)

theorem InLine.same (hl : InLine s l) (ht : Took kind s l.view t act e s') (hk : kind.Grants)
    (hw : (l.follow e).waiting = l.waiting) :
    waiters s' (l.follow e).waiting = waiters s l.waiting := by
  rw [hw]
  exact hl.kept ht hk (fun a ha => ha) fun a ha => by rwa [hw]

theorem filter_not_mem {bs : List Ptr} (hn : (bs ++ as).Nodup) :
    (bs ++ as).filter (· ∉ as) = bs := by
  rw [List.filter_append, List.filter_eq_self.mpr, List.filter_eq_nil_iff.mpr, List.append_nil]
  · simp
  · intro b hb
    simpa using (List.nodup_append'.mp hn).2.2 hb

theorem filter_served (he : l.view.served e = []) :
    l.waiting.filter (· ∉ l.view.served e) = l.waiting := by
  rw [he]
  exact List.filter_eq_self.mpr (by simp)

theorem acquire_answers {x : Tid} {o : Holder} {op : Opcode} (hk : kind.Grants)
    (hr : Reach kind free s h) (ht : Took kind s (lineup h).view t act (.acquire x o op) s') :
    kind.allocator.next (allocation s h) (.take op) (allocation s' (.acquire x o op :: h)) := by
  obtain ⟨hlt, hfree, hw⟩ := ht.effect
  have hnil := (reach_lineup hk hr).nil ht.inv rfl (ht.inv.anchor_zero (by omega))
  have hopen := reach_open hk hr fun _ => show s.word ≠ 64 by omega
  have hnil' : (lineup (.acquire x o op :: h)).waiting = [] :=
    (filter_served rfl).trans hnil
  have hd : data s'.word = data s.word + op.acquiredCount := by
    have hlt' := free_lt hfree hlt
    rw [hw]
    simp only [data_eq]
    omega
  unfold allocation
  rw [hnil, hnil', hopen, hd, show poisoned (.acquire x o op :: h) = false from hopen]
  exact .take (ht.admits hk)

theorem release_answers {x : Tid} {o : Holder} {op : Opcode} (hk : kind.Grants)
    (hr : Reach kind free s h) (ht : Took kind s (lineup h).view t act (.release x o op) s') :
    kind.allocator.next (allocation s h) (.give op) (allocation s' (.release x o op :: h)) := by
  obtain ⟨hcan, hd, -⟩ := ht.effect
  unfold allocation
  rw [lineup_cons, (reach_lineup hk hr).same ht hk (filter_served rfl), hd]
  refine .give ((canRelease_congr ?_).mpr hcan)
  have hlt := data_lt s.word
  rw [data_eq (data s.word)]
  omega

theorem push_answers {x : Tid} {op : Opcode} (hk : kind.Grants)
    (hr : Reach kind free s h) (ht : Took kind s (lineup h).view t act (.push x a op) s') :
    kind.allocator.next (allocation s h) (.join a op) (allocation s' (.push x a op :: h)) := by
  obtain ⟨rfl, ho, ⟨q, hp, rfl⟩, hd, -⟩ := ht.effect
  have hl := reach_lineup hk hr
  have hloc := ht.inv.loc x
  have hweigh := (reach_awake hk hr).2.weighs x
  rw [hp] at hloc hweigh
  have hopen := reach_open hk hr hloc.fits.2
  unfold allocation
  have hopen' : poisoned (.push x q.entry (s.opcode q.entry) :: h) = false := hopen
  rw [lineup_cons, hopen, hd, hopen']
  have hline : waiters s' (q.entry :: (lineup h).waiting) =
      waiters s (lineup h).waiting ++ [(q.entry, s.opcode q.entry)] := by
    simp [waiters, ho]
  rw [show ((lineup h).follow (.push x q.entry (s.opcode q.entry))).waiting =
    q.entry :: (lineup h).waiting from rfl, hline]
  refine .join ?_ fun hnil => hweigh.2 ?_
  · rw [who_waiters, List.mem_reverse]
    intro hm
    exact hl.registered ht.inv rfl hm (hloc.stat _ (if_neg hloc.fits.1))
  · apply ht.inv.glob.chain.eq_nil_iff.mp
    apply List.eq_nil_of_subset_nil
    rw [show [] = (lineup h).waiting by simpa [waiters] using hnil.symm]
    exact hl.queue_subset

theorem serve_answers (hk : kind.Grants) (hr : Reach kind free s h)
    (ht : Took kind s (lineup h).view t act e s') (hh : (s.pc t).Holds)
    {newer : List Ptr} (hw : (lineup h).waiting = newer ++ as)
    (hw' : ((lineup h).follow e).waiting = newer) (hne : as ≠ []) {held : ℕ}
    (hle : data s.word ≤ held) (hg : Greedy kind.maxSharedOwners s.opcode held as)
    (hd : data s'.word = data s.word + total s.opcode as) (hp : poisoned (e :: h) = poisoned h) :
    kind.allocator.next (allocation s h) (.serve as.reverse) (allocation s' (e :: h)) := by
  have hl := reach_lineup hk hr
  have hopen := reach_open hk hr fun _ => ht.inv.holds_not_poisoned hh
  have hkept : waiters s' newer = waiters s newer :=
    hl.kept ht hk (fun a ha => by rw [hw]; exact List.mem_append_left _ ha)
      fun a ha => by rwa [hw']
  have hload : kind.rules.policy.load (wants (waiters s as)) = total s.opcode as := by
    rw [wants_waiters]
    simp [Policy.load, total, Kind.rules, Function.comp_def, List.sum_reverse]
  unfold allocation
  rw [lineup_cons, hw', hw, hkept, hp, hopen, hd, ← hload, waiters_append,
    ← show who (waiters s as) = as.reverse from who_waiters]
  refine .serve ?_ (serve_of_le hle (greedy_serve hg))
  simpa [waiters] using hne

theorem unlink_answers {x : Tid} (hk : kind.Grants) (hr : Reach kind free s h)
    (ht : Took kind s (lineup h).view t act (.unlink x a) s') :
    kind.allocator.next (allocation s h) (.leave a) (allocation s' (.unlink x a :: h)) := by
  obtain ⟨hh, hd, -⟩ := ht.effect
  have hl := reach_lineup hk hr
  have hopen := reach_open hk hr fun _ => ht.inv.holds_not_poisoned hh
  have hm := hl.queue_subset ht.unlink_mem
  obtain ⟨l₁, l₂, hw, hno⟩ : ∃ l₁ l₂, (lineup h).waiting = l₁ ++ a :: l₂ ∧ a ∉ l₁ := by
    obtain ⟨l₁, l₂, hw⟩ := List.append_of_mem hm
    refine ⟨l₁, l₂, hw, ?_⟩
    have hnd := hl.nodup ht.inv rfl
    rw [hw] at hnd
    exact fun hx => (List.nodup_append'.mp hnd).2.2 hx (List.mem_cons_self ..)
  have hw' : ((lineup h).follow (.unlink x a)).waiting = l₁ ++ l₂ := by
    change (lineup h).waiting.erase a = _
    rw [hw, List.erase_append_right _ hno, List.erase_cons_head]
  have hkept : waiters s' (l₁ ++ l₂) = waiters s (l₁ ++ l₂) := by
    refine hl.kept ht hk (fun b hb => ?_) fun b hb => by rwa [hw']
    rw [hw]
    simp only [List.mem_append, List.mem_cons] at hb ⊢
    tauto
  unfold allocation
  rw [lineup_cons, hw', hkept, hw, hopen, hd, show poisoned (.unlink x a :: h) = false from hopen]
  have hline : waiters s (l₁ ++ a :: l₂) = waiters s l₂ ++ (a, s.opcode a) :: waiters s l₁ := by
    simp [waiters]
  rw [hline, waiters_append]
  exact .leave

theorem poison_answers {x : Tid} (hk : kind.Grants) (hr : Reach kind free s h)
    (ht : Took kind s (lineup h).view t act (.poison x) s') :
    kind.allocator.next (allocation s h) .close (allocation s' (.poison x :: h)) := by
  obtain ⟨hd, hn, hw⟩ := ht.effect
  have hopen := reach_open hk hr fun _ he => hn (by rw [he]; decide)
  unfold allocation
  rw [hopen, hd, hw]
  exact .close ⟨ht.poison_lock (.inl rfl), rfl⟩

theorem clear_answers {x : Tid} (hk : kind.Grants) (hr : Reach kind free s h)
    (ht : Took kind s (lineup h).view t act (.clearPoison x) s') :
    kind.allocator.next (allocation s h) .reopen (allocation s' (.clearPoison x :: h)) := by
  obtain ⟨hw, hw'⟩ := ht.effect
  have hnil := (reach_lineup hk hr).nil ht.inv rfl (by rw [hw]; decide)
  have hnil' : (lineup (.clearPoison x :: h)).waiting = [] :=
    (filter_served rfl).trans hnil
  have hclosed : poisoned h = true := by
    obtain rfl := ht.poison_lock (.inr rfl)
    exact (reach_poisoned hr).mp hw
  unfold allocation
  rw [hnil, hnil', hclosed, hw, hw']
  exact .reopen

/-- Every step of a lock or a semaphore is a step of the allocator, or nothing to it. -/
theorem step_answers (hk : kind.Grants) (hr : Reach kind free s h)
    (hs : step kind s act = some (e, s')) :
    kind.allocator.Answers (allocation s h) (label h e) (allocation s' (e :: h)) := by
  have ht : Took kind s (lineup h).view act.actor act e s' := by
    rw [lineup_view]
    exact reach_took hk hr hs
  have hl := reach_lineup hk hr
  have hforeign := ht.not_foreign hk
  have hquiet : data s'.word = data s.word → (lineup h).view.served e = [] →
      (∀ x, e ≠ .poison x) → poisoned (e :: h) = poisoned h →
      ((lineup h).follow e).waiting = (lineup h).waiting.filter (· ∉ (lineup h).view.served e) →
      allocation s' (e :: h) = allocation s h := by
    intro hd hs hp hpo hw
    unfold allocation
    rw [lineup_cons, hl.same ht hk (hw.trans (filter_served hs)), hd, hpo]
  cases e with
  | acquire => exact acquire_answers hk hr ht
  | release => exact release_answers hk hr ht
  | push => exact push_answers hk hr ht
  | unlink => exact unlink_answers hk hr ht
  | poison => exact poison_answers hk hr ht
  | clearPoison => exact clear_answers hk hr ht
  | grant x tr =>
    obtain ⟨rfl, hc⟩ := ht.grant_counting
    obtain ⟨hh, rfl, ⟨held, hle, hg⟩, hd, -⟩ := ht.effect
    have hw := hl.counting ht.inv hc
    rw [label, ← lineup_view]
    split
    · next hnil =>
      rw [hnil] at hd
      exact hquiet hd hnil (by simp) rfl rfl
    · next hne =>
      refine serve_answers hk hr ht hh hw ?_ hne hle hg hd rfl
      have hnd := hl.nodup ht.inv rfl
      rw [hw] at hnd
      change (lineup h).waiting.filter (· ∉ (lineup h).view.taken _) = _
      rw [hw]
      exact filter_not_mem hnd
  | tailReset x =>
    obtain ⟨hh, hc⟩ := ht.reset_holds
    obtain ⟨-, hw, hlt, hg⟩ := ht.effect
    have hq := hl.queue fun u hu => hc (ht.inv.unique u _ hu.holds hh ▸ hu)
    rw [label, ← lineup_view]
    have hw' : (lineup h).waiting = [] ++ (lineup h).view.queue := hq
    refine serve_answers hk hr ht hh hw' ?_ ?_ le_rfl hg ?_ rfl
    · change (lineup h).waiting.filter (· ∉ (lineup h).view.queue) = []
      rw [hq]
      exact List.filter_eq_nil_iff.mpr fun b hb => by simpa using hb
    · exact fun hnil => ht.inv.anchor_ne hh (ht.inv.glob.chain.eq_nil_iff.mp hnil)
    · rw [← hw, data_eq]
      omega
  | countDown | last | writeBack | wakeAll | reset => exact absurd trivial hforeign
  | lockQueue => exact hquiet ht.effect.2.2.2.2 rfl (by simp) rfl rfl
  | cut => exact hquiet (congrArg data ht.effect.2) rfl (by simp) rfl rfl
  | _ => exact hquiet (congrArg data ht.effect) rfl (by simp) rfl rfl

/-- Lock and semaphore refine the allocator: whatever the threads do, a run is, seen from
outside, a run of the allocator, and so is every part of it that begins in a reachable state. -/
theorem refines_allocator (hk : kind.Grants) (hr : Reach kind free s h) :
    kind.allocator.Path kind.allocator.init (allocation s h) (visible label [] h) ∧
    ∀ s' g, Onward (system kind) free s h s' g →
      kind.allocator.Path (allocation s h) (allocation s' (g ++ h)) (visible label h g) := by
  have hpart : ∀ {s h s' g}, Reach kind free s h → Onward (system kind) free s h s' g →
      kind.allocator.Path (allocation s h) (allocation s' (g ++ h)) (visible label h g) := by
    intro s h s' g hr hx
    exact refines (fun hr _ hs => step_answers hk hr hs) hr hx
  refine ⟨?_, fun s' g hx => hpart hr hx⟩
  have hwhole := hpart .init (.whole hr)
  rwa [List.append_nil] at hwhole

/-- The entry stays in the line: it is neither served nor unlinked, and nothing is poisoned. -/
def Stays (a : Ptr) (h : List Event) : List Event → Prop
  | [] => True
  | e :: g => Stays a h g ∧ a ∉ (view (g ++ h)).served e ∧ (∀ x, e ≠ .unlink x a) ∧
      ∀ x, e ≠ .poison x

variable {g : List Event}

theorem grants_label : servedBy (label h e).toList = ((view h).served e).reverse := by
  cases e with
  | grant x n =>
    simp only [label, View.served]
    split
    · next hnil => simp [hnil, servedBy]
    · simp [servedBy]
  | _ => simp [label, servedBy, View.served]

theorem grants_visible : grants (g ++ h) = grants h ++ servedBy (visible label h g) := by
  induction g with
  | nil => simp [visible, servedBy]
  | cons e g ih =>
    have hcons : servedBy ((label (g ++ h) e).toList ++ visible label h g) =
        servedBy (visible label h g) ++ servedBy (label (g ++ h) e).toList := by
      cases label (g ++ h) e with
      | none => simp [servedBy]
      | some b => exact servedBy_cons
    rw [List.cons_append, grants, ih, visible, hcons, grants_label, List.append_assoc]

theorem Stays.labels (hs : Stays a h g) : ∀ b ∈ visible label h g, ¬b.Dismisses a := by
  induction g with
  | nil => simp [visible]
  | cons e g ih =>
    obtain ⟨hg, hserved, hunlink, hpoison⟩ := hs
    intro b hb
    rcases List.mem_append.mp hb with hb | hb
    · cases e with
      | grant x n =>
        simp only [label] at hb
        split at hb
        · cases hb
        · obtain rfl := List.mem_singleton.mp hb
          exact fun hm => hserved (List.mem_reverse.mp hm)
      | tailReset x =>
        obtain rfl := List.mem_singleton.mp hb
        exact fun hm => hserved (List.mem_reverse.mp hm)
      | unlink x c =>
        obtain rfl := List.mem_singleton.mp hb
        rintro rfl
        exact hunlink x rfl
      | poison x => exact absurd rfl (hpoison x)
      | acquire | release | push | clearPoison =>
        obtain rfl := List.mem_singleton.mp hb
        exact id
      | _ => cases hb
    · exact ih hg b hb

theorem acquire_visible {x : Tid} {o : Holder} {op : Opcode} (hm : .acquire x o op ∈ g) :
    .take op ∈ visible label h g := by
  induction g with
  | nil => cases hm
  | cons e g ih =>
    rcases List.mem_cons.mp hm with rfl | hm
    · exact List.mem_append_left _ (List.mem_singleton_self _)
    · exact List.mem_append_right _ (ih hm)

theorem waiters_cons {newer older : List Ptr} :
    waiters s (newer ++ a :: older) = waiters s older ++ (a, s.opcode a) :: waiters s newer := by
  simp [waiters]

theorem waiters_split {front rest : List (Ptr × Opcode)} {op : Opcode}
    (hw : waiters s as = front ++ (a, op) :: rest) :
    ∃ newer older, as = newer ++ a :: older ∧ who front = older.reverse ∧ s.opcode a = op := by
  obtain ⟨f, r, hr, hf, ht⟩ := List.map_eq_append_iff.mp hw
  obtain ⟨b, r', rfl, hb, -⟩ := List.map_eq_cons_iff.mp ht
  cases hb
  refine ⟨r'.reverse, f.reverse, ?_, ?_, rfl⟩
  · rw [← List.reverse_reverse as, hr]
    simp
  · rw [← hf]
    simp [who, Function.comp_def]

/-- Nobody overtakes a waiter. As long as an entry stays in the line, what happens in a run
of a lock or a semaphore, whatever the other threads do: nobody acquires past the queue, and
the entries that are granted meanwhile, in this order and each of them once, are entries
that stood before it. Those still before it have been there all the time, and it asks for
the same. -/
theorem no_overtaking {newer older : List Ptr} (hk : kind.Grants) (hr : Reach kind free s h)
    (hx : Onward (system kind) free s h s' g) (hw : (lineup h).waiting = newer ++ a :: older)
    (hs : Stays a h g) :
    (∀ x o op, .acquire x o op ∉ g) ∧ s'.opcode a = s.opcode a ∧
    ∃ newer' older' granted, (lineup (g ++ h)).waiting = newer' ++ a :: older' ∧
      grants (g ++ h) = grants h ++ granted ∧
      (granted ++ older'.reverse).Sublist older.reverse := by
  have hpath := refines (fun hr _ hs => step_answers hk hr hs) hr hx
  have hline : (allocation s h).line = waiters s older ++ (a, s.opcode a) :: waiters s newer := by
    rw [allocation, hw, waiters_cons]
  obtain ⟨htake, front, rest, hline', hsub⟩ := no_bypass rfl hpath hline hs.labels
  obtain ⟨newer', older', hw', hfront, hop⟩ := waiters_split hline'
  rw [hfront, who_waiters] at hsub
  exact ⟨fun x o op hm => htake op (acquire_visible hm), hop, newer', older', _, hw',
    grants_visible, hsub⟩

end

/-- Thread 0 has two permits, the entries 256 and 512 wait for one each, and thread 0 is
about to give one back. -/
def oneBack : List Action := bothServed.take 13 ++ [.call 0 .release]

theorem oneBack_run : ∃ s h s' g,
    exec (system (.semaphore 2)) (Kind.initial (.semaphore 2)) [] oneBack = some (s, h) ∧
    Onward (system (.semaphore 2)) free s h s' g ∧
    visible label h g = [.serve [256], .give (.semaphore 1)] ∧
    (lineup h).waiting = [512, 256] ∧ Stays 512 h g := by
  obtain ⟨s, h, s', g, hrun, hmore, hvis, hline, hstay⟩ : ∃ s h s' g,
      exec (system (.semaphore 2)) (Kind.initial (.semaphore 2)) [] oneBack = some (s, h) ∧
      exec (system (.semaphore 2)) s h (List.replicate 8 (.run 0)) = some (s', g ++ h) ∧
      visible label h g = [.serve [256], .give (.semaphore 1)] ∧
      (lineup h).waiting = [512, 256] ∧ Stays 512 h g :=
    ⟨_, _, _, [.setResult 0 256 0, .grant 0 1, .cut 0 512, .tau, .tau, .tau,
      .release 0 (.caller 0) (.semaphore 1), .tau], rfl, rfl, rfl, rfl, by simp [Stays]; decide⟩
  obtain ⟨g', hg, hx⟩ := Onward.exec .done hmore
  rw [List.append_cancel_right hg] at hvis hstay
  exact ⟨s, h, s', g', hrun, hx, hvis, hline, hstay⟩

theorem refines_allocator_oneBack : ∃ s h s' g,
    exec (system (.semaphore 2)) (Kind.initial (.semaphore 2)) [] oneBack = some (s, h) ∧
    (Kind.allocator (.semaphore 2)).Path (allocation s h) (allocation s' (g ++ h))
      [.serve [256], .give (.semaphore 1)] := by
  obtain ⟨s, h, s', g, hrun, hx, hvis, -⟩ := oneBack_run
  have hr := Run.exec .init (admits_free ..) hrun
  exact ⟨s, h, s', g, hrun, hvis ▸ (refines_allocator (.inr ⟨2, rfl⟩) hr).2 s' g hx⟩

theorem no_overtaking_oneBack : ∃ s h s' g,
    exec (system (.semaphore 2)) (Kind.initial (.semaphore 2)) [] oneBack = some (s, h) ∧
    (lineup h).waiting = [512, 256] ∧
    ∃ newer' older' granted, (lineup (g ++ h)).waiting = newer' ++ 512 :: older' ∧
      grants (g ++ h) = grants h ++ granted ∧ (granted ++ older'.reverse).Sublist [256] ∧
      Onward (system (.semaphore 2)) free s h s' g := by
  obtain ⟨s, h, s', g, hrun, hx, -, hline, hstay⟩ := oneBack_run
  have hr := Run.exec .init (admits_free ..) hrun
  obtain ⟨-, -, newer', older', granted, hw, hg, hsub⟩ :=
    no_overtaking (.inr ⟨2, rfl⟩) hr hx (show _ = [] ++ 512 :: [256] from hline) hstay
  exact ⟨s, h, s', g, hrun, hline, newer', older', granted, hw, hg, hsub, hx⟩

end Saa
