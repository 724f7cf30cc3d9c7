import Saa.Balance

/-! # Service in order of arrival

The line is the list of entries that were pushed and whose counts were not added to the
word yet. Counts are added to its oldest end only, and nobody acquires past the queue. -/
namespace Saa

open Word Lib.Linked Lib.Trace

/-- The entries whose counts a step adds to the word, newest first. -/
def View.served (v : View) : Event → List Ptr
  | .grant t _ => v.taken t
  | .tailReset _ => v.queue
  | _ => []

structure Line where
  view : View
  /-- Pushed, neither served nor unlinked, newest first. -/
  waiting : List Ptr

def Line.observe (l : Line) (e : Event) : Line where
  view := l.view.observe e
  waiting := match e with
    | .push _ a _ => a :: l.waiting
    | .unlink _ a => l.waiting.erase a
    | e => l.waiting.filter (· ∉ l.view.served e)

def line (h : List Event) : Line := fold Line.observe ⟨.initial, []⟩ h

@[simp] theorem line_cons (e : Event) (h : List Event) : line (e :: h) = (line h).observe e := rfl

@[simp] theorem line_view (h : List Event) : (line h).view = view h := by
  induction h with
  | nil => rfl
  | cons e h ih => simp [Line.observe, ih]

/-- The line is the queue, and behind it what the thread that owns the queue has detached
and not counted yet. -/
def InLine (s : Cfg) (l : Line) : Prop :=
  (∃ t, (s.pc t).Counting ∧ l.waiting = l.view.queue ++ l.view.taken t) ∨
  (∀ t, ¬(s.pc t).Counting) ∧ l.waiting = l.view.queue

section
variable {kind : Kind} {s s' : Cfg} {l : Line} {t u : Tid} {a : Ptr} {act : Action} {e : Event}

theorem InLine.queue (h : InLine s l) (hn : ∀ t, ¬(s.pc t).Counting) :
    l.waiting = l.view.queue := by
  rcases h with ⟨t, ht, -⟩ | ⟨-, h⟩
  · exact absurd ht (hn t)
  · exact h

theorem InLine.counting {v : View} (h : InLine s l) (hi : Inv kind s v) (ht : (s.pc t).Counting) :
    l.waiting = l.view.queue ++ l.view.taken t := by
  rcases h with ⟨u, hu, h⟩ | ⟨hn, -⟩
  · rwa [hi.unique t u ht.holds hu.holds]
  · exact absurd ht (hn t)

theorem upTo_behind {l : List Ptr} (h : a ∈ l) : upTo a l ++ behind a l = l := by
  induction l with
  | nil => cases h
  | cons b l ih =>
    by_cases hb : b = a
    · subst hb
      simp [upTo, behind]
    · have ih := ih ((List.mem_cons.mp h).resolve_left (Ne.symm hb))
      simp only [upTo, behind] at ih ⊢
      rw [List.takeWhile_cons_of_pos (by simpa using hb),
        List.dropWhile_cons_of_pos (by simpa using hb)]
      simp only [List.cons_append, ih]

/-- A step that neither serves, pushes nor removes anybody keeps the line. -/
theorem InLine.stay (h : Took kind s l.view t act e s') (hl : InLine s l)
    (ht : ¬(s.pc t).Counting) (ht' : ¬(s'.pc t).Counting)
    (hq : (l.view.observe e).queue = l.view.queue) (hw : (l.observe e).waiting = l.waiting) :
    InLine s' (l.observe e) := by
  have hne : ∀ x, (s.pc x).Counting → x ≠ t := by
    rintro x hx rfl
    exact ht hx
  rcases hl with ⟨x, hx, hl⟩ | ⟨hn, hl⟩
  · refine Or.inl ⟨x, by rw [h.frame.pc x (hne x hx)]; exact hx, ?_⟩
    have htk := h.taken_other (hne x hx)
    rw [hw, hl]
    change _ = (l.view.observe e).queue ++ (l.view.observe e).taken x
    rw [hq, htk]
  · refine Or.inr ⟨fun x => ?_, ?_⟩
    · by_cases hx : x = t
      · rw [hx]
        exact ht'
      · rw [h.frame.pc x hx]
        exact hn x
    · rw [hw, hl]
      exact hq.symm

theorem InLine.served (h : Took kind s l.view t act e s') (hl : InLine s l)
    (ht : (s.pc t).Counting) (ht' : ¬(s'.pc t).Counting)
    (hq : (l.view.observe e).queue = l.view.queue)
    (hw : (l.observe e).waiting = l.waiting.filter (· ∉ l.view.taken t)) :
    InLine s' (l.observe e) := by
  refine Or.inr ⟨fun x => ?_, ?_⟩
  · by_cases hx : x = t
    · rw [hx]
      exact ht'
    · rw [h.frame.pc x hx]
      exact fun hc => hx (h.inv.unique x t hc.holds ht.holds)
  · rw [hw, hl.counting h.inv ht, List.filter_append]
    have h₁ : l.view.queue.filter (· ∉ l.view.taken t) = l.view.queue := by
      refine List.filter_eq_self.mpr fun b hb => ?_
      have hst := (h.inv.glob.queued b).mp hb
      rw [decide_eq_true_eq, h.inv.glob.taken t b, hst]
      simp
    have h₂ : (l.view.taken t).filter (· ∉ l.view.taken t) = [] := by
      refine List.filter_eq_nil_iff.mpr fun b hb => ?_
      simpa using hb
    rw [h₁, h₂, List.append_nil]
    exact hq.symm

theorem Took.cut_mem {v : View} {x : Tid} (ht : Took kind s v t act (.cut x a) s') :
    a ∈ v.queue := by
  have hmv := ht.move
  have hl := ht.inv.loc t
  generalize s.pc t = p at hmv hl
  generalize s'.pc t = p' at hmv
  cases hmv with
  | gate _ hg => cases hg
  | cut =>
    obtain ⟨newer, rest, granted, hs, -⟩ := hl.hold
    exact hs.mem (by simp)
  | tailCut =>
    obtain ⟨newer, granted, hs, -⟩ := hl.hold
    exact hs.mem (by simp)

/-- The line is kept by every step but a poisoning. -/
theorem step_line (h : Took kind s l.view t act e s') (hk : kind.Grants) (hl : InLine s l)
    (hp : ∀ x, e ≠ .poison x) : InLine s' (l.observe e) := by
  have hstay : ¬(s.pc t).Counting → ¬(s'.pc t).Counting →
      (l.view.observe e).queue = l.view.queue → (l.observe e).waiting = l.waiting →
      InLine s' (l.observe e) := hl.stay h
  have hown : (s.pc t).Holds → ¬(s.pc t).Counting → l.waiting = l.view.queue := by
    intro hh hn
    refine hl.queue fun x hx => hn ?_
    rwa [← h.inv.unique x t hx.holds hh]
  have hothers : (s.pc t).Holds → ¬(s'.pc t).Counting → ∀ x, ¬(s'.pc x).Counting := by
    intro hh hn x hx
    by_cases hxt : x = t
    · rw [hxt] at hx
      exact hn hx
    · rw [h.frame.pc x hxt] at hx
      exact hxt (h.inv.unique x t hx.holds hh)
  have hm := h.move
  generalize hpc : s.pc t = p at hm hstay hown hothers
  generalize hpc' : s'.pc t = p' at hm hstay hothers
  have hnone : ∀ e', l.view.served e' = [] →
      l.waiting.filter (· ∉ l.view.served e') = l.waiting := by
    intro e' he
    rw [he]
    exact List.filter_eq_self.mpr (by simp)
  -- a cut splits the line between the queue and the list of its owner
  have hcut : ∀ b, b ∈ l.view.queue → l.waiting = l.view.queue →
      (l.observe (.cut t b)).waiting =
        (l.observe (.cut t b)).view.queue ++ (l.observe (.cut t b)).view.taken t := by
    intro b hb hq
    have hw : (l.observe (.cut t b)).waiting = l.waiting := hnone (.cut t b) rfl
    rw [hw, hq]
    simp only [Line.observe, View.observe, View.detach, Function.update_self]
    exact (upTo_behind hb).symm
  cases hm with
  | gate hg => exact absurd hg hk.not_gate
  | last hn => exact absurd hn hk.no_barrier
  | countDown hn => exact absurd hn hk.no_barrier
  | writeBack hn => exact absurd hn hk.no_barrier
  | poisonFast => exact absurd rfl (hp t)
  | poison => exact absurd rfl (hp t)
  | push =>
    have hne : ∀ x, (s.pc x).Counting → x ≠ t := by
      rintro x hx rfl
      rw [hpc] at hx
      exact hx
    rcases hl with ⟨x, hx, hl⟩ | ⟨hn, hl⟩
    · refine Or.inl ⟨x, by rw [h.frame.pc x (hne x hx)]; exact hx, ?_⟩
      exact congrArg (List.cons _) hl
    · refine Or.inr ⟨fun x hx => ?_, congrArg (List.cons _) hl⟩
      by_cases hxt : x = t
      · rw [hxt, hpc'] at hx
        exact hx
      · rw [h.frame.pc x hxt] at hx
        exact hn x hx
  | unlink | unlinkOnly =>
    refine Or.inr ⟨hothers trivial id, ?_⟩
    exact congrArg (List.erase · _) (hown trivial id)
  | tailReset =>
    refine Or.inr ⟨hothers trivial id, ?_⟩
    change l.waiting.filter (· ∉ l.view.queue) = []
    rw [hown trivial id]
    exact List.filter_eq_nil_iff.mpr fun b hb => by simpa using hb
  | cut | tailCut =>
    exact Or.inl ⟨t, by rw [hpc']; trivial, hcut _ h.cut_mem (hown trivial id)⟩
  | update =>
    refine hl.served h (by rw [hpc]; trivial) (by rw [hpc']; exact id) rfl rfl
  | add =>
    refine hl.served h (by rw [hpc]; trivial) (by rw [hpc']; exact id) rfl rfl
  | missed =>
    refine Or.inl ⟨t, by rw [hpc']; trivial, ?_⟩
    have hw := hnone .tau rfl
    exact hw.trans (hl.counting h.inv (by rw [hpc]; trivial))
  | own htry | take htry =>
    refine hstay ?_ id rfl (hnone _ rfl)
    rcases htry with rfl | ⟨_, _, rfl⟩ <;> exact id
  | enter hin =>
    cases hin with
    | gate hg => exact absurd hg hk.not_gate
    | _ => exact hstay id id rfl (hnone _ rfl)
  | drop | cancel => exact hstay id (dropPc_not_counting _ _) rfl (hnone _ rfl)
  | unreleased | release | leave => exact hstay id (after_not_counting _) rfl (hnone _ rfl)
  | _ => exact hstay id id rfl (hnone _ rfl)

theorem reach_line {h : List Event} (hk : kind.Grants) (hr : Reach kind free s h)
    (hp : ∀ x, .poison x ∉ h) : InLine s (line h) := by
  refine hr.invariant (P := fun s h => (∀ x, .poison x ∉ h) → InLine s (line h)) ?_ ?_ hp
  · exact fun _ => Or.inr ⟨fun t => id, rfl⟩
  · intro s h act e s' hr ih hok hs hp
    have hi := reach_inv hk.not_barrier hr
    have hi' := reach_inv hk.not_barrier (.step hr hok hs)
    have htook : Took kind s (line h).view act.actor act e s' := by
      rw [line_view]
      exact took hi hi' hs
    refine step_line htook hk (ih fun x hx => hp x (by simp [hx])) ?_
    rintro x rfl
    exact hp x (by simp)

theorem served_suffix (h : Took kind s l.view t act e s') (hk : kind.Grants) (hl : InLine s l) :
    l.view.served e <:+ l.waiting := by
  have hown : (s.pc t).Holds → ¬(s.pc t).Counting → l.waiting = l.view.queue := by
    intro hh hn
    refine hl.queue fun x hx => hn ?_
    rwa [← h.inv.unique x t hx.holds hh]
  have hcount : (s.pc t).Counting → l.waiting = l.view.queue ++ l.view.taken t := hl.counting h.inv
  have hm := h.move
  generalize s.pc t = p at hm hown hcount
  generalize s'.pc t = p' at hm
  cases hm with
  | gate hg => exact absurd hg hk.not_gate
  | update | add =>
    rw [hcount trivial]
    exact List.suffix_append _ _
  | tailReset =>
    rw [hown trivial id]
    exact List.suffix_rfl
  | _ => exact List.nil_suffix

theorem sublist_of_suffix {x y : Ptr} {l l' : List Ptr} (hn : l.Nodup) (hs : l' <:+ l)
    (hxy : [y, x].Sublist l) (hy : y ∈ l') : [y, x].Sublist l' := by
  obtain ⟨r, rfl⟩ := hs
  rw [List.sublist_append_iff] at hxy
  obtain ⟨l₁, l₂, he, h₁, h₂⟩ := hxy
  cases l₁ with
  | nil =>
    simp only [List.nil_append] at he
    rwa [he]
  | cons z l₁ =>
    simp only [List.cons_append, List.cons.injEq] at he
    obtain ⟨rfl, -⟩ := he
    have hyr : y ∈ r := h₁.subset (List.mem_cons_self ..)
    exact absurd hy ((List.nodup_append'.mp hn).2.2 hyr)

theorem InLine.nodup {v : View} (hl : InLine s l) (h : Inv kind s v) (hv : l.view = v) :
    l.waiting.Nodup := by
  subst hv
  have hq := h.glob.chain.nodup
  rcases hl with ⟨x, -, hl⟩ | ⟨-, hl⟩
  · rw [hl]
    refine List.nodup_append'.mpr ⟨hq, (h.loc x).taken.nodup, ?_⟩
    intro b hb hb'
    rw [h.glob.queued] at hb
    rw [h.glob.taken, hb] at hb'
    cases hb'
  · rwa [hl]

/-- Lock and semaphore serve their queue in order of arrival: in a run without poisoning,
when the count of `y` is added to the word, so is in the same step the count of every
entry `x` that was pushed before and still waits, and `x` is the older one in the list
the step serves. No acquisition outside the queue succeeds while the queue has waiters. -/
theorem fifo_no_barging {h : List Event} (hk : kind.Grants) (hr : Reach kind free s h)
    (hp : ∀ x, .poison x ∉ h) (hs : step kind s act = some (e, s')) :
    (∀ x y, [y, x].Sublist (line h).waiting → y ∈ (view h).served e →
      [y, x].Sublist ((view h).served e)) ∧
    ∀ t o op, e = .acquire t o op → (view h).queue = [] := by
  have hi := reach_inv hk.not_barrier hr
  have hi' := reach_inv hk.not_barrier (.step hr trivial hs)
  have hl := reach_line hk hr hp
  have htook : Took kind s (line h).view act.actor act e s' := by
    rw [line_view]
    exact took hi hi' hs
  refine ⟨fun x y hxy hy => ?_, ?_⟩
  · have hsuf := served_suffix htook hk hl
    rw [line_view] at hsuf
    exact sublist_of_suffix (hl.nodup hi (line_view h)) hsuf hxy hy
  · rintro t o op rfl
    have hlt := htook.effect.1
    exact hi.glob.chain.eq_nil_iff.mpr (hi.anchor_zero (by omega))

end
/-- Two waiters get the permits of thread 0; the schedule ends before their counts are added. -/
def bothServed : List Action :=
  [.call 0 (.acquire ⟨.permits 2, .tryOnly, 0⟩), .run 0, .run 0,
    .call 1 (.acquire ⟨.permits 1, .sync, 256⟩), .run 1, .run 1, .run 1, .run 1,
    .call 2 (.acquire ⟨.permits 1, .sync, 512⟩), .run 2, .run 2, .run 2, .run 2,
    .call 0 (.releaseMany 2), .run 0, .run 0, .run 0, .run 0, .run 0, .run 0]

theorem fifo_no_barging_both :
    ∃ s h e s', exec (system (.semaphore 2)) (Kind.initial (.semaphore 2)) [] bothServed =
        some (s, h) ∧ step (.semaphore 2) s (.run 0) = some (e, s') ∧
      (view h).served e = [512, 256] ∧ [512, 256].Sublist ((view h).served e) := by
  obtain ⟨s, h, e, s', hrun, hs, hserved, hline, hp⟩ : ∃ s h e s',
      exec (system (.semaphore 2)) (Kind.initial (.semaphore 2)) [] bothServed = some (s, h) ∧
      step (.semaphore 2) s (.run 0) = some (e, s') ∧ (view h).served e = [512, 256] ∧
      [512, 256].Sublist (line h).waiting ∧ ∀ x, Event.poison x ∉ h :=
    ⟨_, _, _, _, rfl, rfl, rfl, .refl _, by simp⟩
  refine ⟨s, h, e, s', hrun, hs, hserved, ?_⟩
  exact (fifo_no_barging (Or.inr ⟨2, rfl⟩) (Run.exec .init (admits_free ..) hrun) hp hs).1
    256 512 hline (by simp [hserved])

end Saa
