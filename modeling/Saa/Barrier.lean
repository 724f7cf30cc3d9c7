import Saa.Verdict

/-! # The queue of a barrier

The last arriver writes the whole word twice, without asking whether a dropped future has
locked the queue. As long as it does not meet the flag, the queue invariant holds for a
barrier too, and the count it writes back fits in the data field. -/
namespace Saa

open Word Lib.Linked Lib.Trace

/-- The number of tasks of `Barrier::with_count`. -/
def tasks (n : ℕ) : ℕ := min MAX_TASKS n

/-- What the last arriver is going to write back, with `left` entries still to be counted. -/
def Pc.reckons (left : ℕ) : Pc → ℕ
  | .resolve _ _ count (.writeBack _) => 1 + count + left
  | .finalize _ _ _ count (.writeBack _) => 1 + (count + 1) + left
  | .writeBack _ count => count
  | _ => 0

/-- The counter and the waiters never exceed the size of the barrier. -/
structure Bounded (n : ℕ) (s : Cfg) (v : View) : Prop where
  waitOnly : ∀ t q state, s.pc t = .push q state → data state = 0
  room : data s.word ≠ 0 → data s.word + v.queue.length ≤ tasks n
  counted : ∀ t, (s.pc t).reckons (v.taken t).length ≤ tasks n
  sound : ∀ t, s.pc t ≠ .fault

section
variable {kind : Kind} {n : ℕ} {s s' : Cfg} {v : View} {h : List Event} {t u : Tid} {a : Ptr}
  {l : List Ptr} {act : Action} {e : Event} {p p' : Pc}

theorem tasks_lt (n : ℕ) : tasks n < 64 := by
  have hm : MAX_TASKS = 63 := by decide
  unfold tasks
  omega

theorem Move.sound (hm : Move kind s v t act p e p') : p' ≠ .fault := by
  cases hm with
  | gate _ hg => cases hg <;> simp
  | enter hin =>
    cases hin with
    | gate _ hc => cases hc <;> simp
    | _ => simp
  | drop | cancel => cases kind <;> simp [Kind.dropPc]
  | @unreleased o | @release o => cases o <;> simp [Holder.after, After.pc]
  | @leave _ _ k => cases k <;> simp [After.pc]
  | _ => simp

theorem Inv.barrier_total (hi : Inv (.barrier n) s v) (hl : ∀ a ∈ l, v.stat a ≠ .idle) :
    total s.opcode l = 0 := by
  induction l with
  | nil => rfl
  | cons a l ih =>
    have hf := hi.glob.opcodes a (hl a (by simp))
    rw [total_cons, ih fun b hb => hl b (by simp [hb])]
    cases ho : s.opcode a with
    | barrier => rfl
    | wait => rfl
    | semaphore m =>
      rw [ho] at hf
      obtain ⟨-, m, hm⟩ := hf
      cases hm
    | _ =>
      rw [ho] at hf
      cases hf

theorem Inv.arrives (hi : Inv (.barrier n) s v) {q : Req} (hq : (s.pc t).reqs = some q) :
    q.goal = .arrive := by
  have hf := ((hi.loc t).reqs q hq).1
  unfold Req.Fits at hf
  split at hf <;> simp_all

theorem Took.no_acquire (ht : Took (.barrier n) s v t act e s') {x : Tid} {o : Holder}
    {op : Opcode} :
    e ≠ .acquire x o op := by
  intro he
  have hmv := ht.move
  have hef := ht.effect
  have hgoal : ∀ q, (s.pc t).reqs = some q → ¬q.goal.opcode.Free s.word := by
    intro q hq
    rw [ht.inv.arrives hq]
    exact id
  generalize s.pc t = p at hmv hgoal
  generalize s'.pc t = p' at hmv
  subst he
  cases hmv with
  | gate hg => cases hg
  | own htry | take htry => exact hgoal _ htry.reqs hef.2.1

theorem upTo_length_le (ha : a ∈ l) : (upTo a l).length ≤ l.length := by
  conv_rhs => rw [← upTo_behind ha, List.length_append]
  exact Nat.le_add_right ..

theorem Bounded.room_of (hb : Bounded n s v) (hd : data s'.word = data s.word)
    (hl : (v.observe e).queue.length ≤ v.queue.length) :
    data s'.word ≠ 0 → data s'.word + (v.observe e).queue.length ≤ tasks n := by
  rw [hd]
  intro hne
  exact (Nat.add_le_add_left hl _).trans (hb.room hne)

theorem Took.tasks_room (ht : Took (.barrier n) s v t act e s') (hb : Bounded n s v) :
    data s'.word ≠ 0 → data s'.word + (v.observe e).queue.length ≤ tasks n := by
  have hef := ht.effect
  have hlt := data_lt s.word
  have hlt' := data_lt s'.word
  have hfits := (ht.inv.loc t).fits
  have hcount := hb.counted t
  have hsame : s'.word = s.word → (v.observe e).queue = v.queue →
      data s'.word ≠ 0 → data s'.word + (v.observe e).queue.length ≤ tasks n :=
    fun hw hq => hb.room_of (congrArg data hw) (by rw [hq])
  have hmv := ht.move
  generalize hp : s.pc t = p at hmv hfits hcount
  generalize s'.pc t = p' at hmv
  cases hmv with
  | gate hg => cases hg
  | poisonFast | poison | clear => cases hfits
  | own | take => exact absurd rfl ht.no_acquire
  | fast | release | releasePass =>
    obtain ⟨-, hd, -⟩ := hef
    intro hne
    have := hb.room (by omega)
    simp only [View.observe]
    omega
  | push =>
    obtain ⟨-, -, ⟨q, hpc, -⟩, hd, -⟩ := hef
    intro hne
    exact absurd (hd.trans (hb.waitOnly _ _ _ hpc)) hne
  | countDown =>
    obtain ⟨-, -, -, hge, hd, -⟩ := hef
    intro hne
    have := hb.room (by omega)
    simp only [View.observe, List.length_cons]
    omega
  | last =>
    intro hne
    rw [hef.2.2] at hne
    exact absurd rfl hne
  | writeBack =>
    intro hne
    have hc : data s'.word ≤ s'.word := by
      rw [data_eq]
      omega
    rw [hef.2] at hc ⊢
    exact hc.trans hcount
  | lockQueue => exact hb.room_of hef.2.2.2.2 le_rfl
  | cut | tailCut => exact hb.room_of (congrArg data hef.2) (upTo_length_le ht.cut_mem)
  | tailReset =>
    obtain ⟨-, hw, -, -⟩ := hef
    rw [ht.inv.barrier_total fun a ha => by rw [(ht.inv.glob.queued a).mp ha]; simp] at hw
    refine hb.room_of ?_ (Nat.zero_le _)
    rw [hw, Nat.add_zero, data_eq (data s.word), Nat.mod_eq_of_lt hlt]
  | update | add =>
    obtain ⟨-, htr, -, hd, -⟩ := hef
    rw [ht.inv.barrier_total fun a ha => by rw [(ht.inv.glob.taken t a).mp ha]; simp] at htr
    rw [htr] at hd
    exact hb.room_of hd le_rfl
  | unlink | unlinkOnly => exact hb.room_of hef.2.1 (List.length_erase_le ..)
  | _ => exact hsame hef rfl

theorem Took.counted (ht : Took (.barrier n) s v t act e s') (hb : Bounded n s v) :
    (s'.pc t).reckons ((v.observe e).taken t).length ≤ tasks n := by
  have hcount := hb.counted t
  have hmv := ht.move
  generalize s.pc t = p at hmv hcount
  generalize s'.pc t = p' at hmv
  cases hmv with
  | gate hg => cases hg
  | enter hin =>
    cases hin with
    | gate hg => cases hg
    | _ => exact Nat.zero_le _
  | @unreleased o | @release o => cases o <;> exact Nat.zero_le _
  | @leave _ _ k => cases k <;> exact Nat.zero_le _
  | last hn hg hd =>
    have := hb.room (by omega)
    simp only [View.observe, View.detach, Function.update_self, Pc.reckons]
    omega
  | @set cur r c k hm =>
    have hlen : ((v.taken t).erase cur).length + 1 = (v.taken t).length := by
      rw [List.length_erase_of_mem hm]
      have := List.length_pos_of_mem hm
      omega
    cases k <;>
      simp only [View.observe, Function.update_self, Pc.reckons, Nat.zero_le] at hcount ⊢
    omega
  | @finalize cur nx r c k =>
    cases k with
    | writeBack => exact hcount
    | _ => exact Nat.zero_le _
  | counted hn hnil =>
    rw [hnil] at hcount
    exact hcount
  | _ => exact Nat.zero_le _

theorem Took.waitOnly (ht : Took (.barrier n) s v t act e s') {q : Req} {state : ℕ}
    (hp' : s'.pc t = .push q state) : data state = 0 := by
  have hmv := ht.move
  have harr : ∀ q, (s.pc t).reqs = some q → q.goal = .arrive := fun q => ht.inv.arrives
  rw [hp'] at hmv
  generalize s.pc t = p at hmv harr
  generalize hx : Pc.push q state = p' at hmv
  cases hmv with
  | gate hg => cases hg
  | enter hin =>
    cases hin with
    | gate hg => cases hg
    | _ => cases hx
  | @unreleased o | @release o => cases o <;> cases hx
  | @leave _ _ k => cases k <;> cases hx
  | queue hne => exact absurd (harr _ rfl) hne
  | waitOnly _ _ hz =>
    cases hx
    exact hz
  | _ => cases hx

theorem step_bounded (ht : Took (.barrier n) s v t act e s') (hb : Bounded n s v) :
    Bounded n s' (v.observe e) where
  room := ht.tasks_room hb
  waitOnly u q state hp := by
    by_cases hu : u = t
    · exact ht.waitOnly (hu ▸ hp)
    · rw [ht.frame.pc u hu] at hp
      exact hb.waitOnly u q state hp
  counted u := by
    by_cases hu : u = t
    · rw [hu]
      exact ht.counted hb
    · rw [ht.frame.pc u hu, ht.taken_other hu]
      exact hb.counted u
  sound u := by
    by_cases hu : u = t
    · rw [hu]
      exact ht.move.sound
    · rw [ht.frame.pc u hu]
      exact hb.sound u

theorem Bounded.fits (hb : Bounded n s v) : ∀ t q c, s.pc t = .writeBack q c → c < 64 := by
  intro t q c hp
  have hc := hb.counted t
  rw [hp] at hc
  exact lt_of_le_of_lt hc (tasks_lt n)

/-- The steps at which the last arriver does not meet the flag. -/
def Polite : Guard Cfg Action Event := fun s _ act => ¬Intrudes s act

instance (s : Cfg) (act : Action) : Decidable (Intrudes s act) :=
  match act with
  | .run t => by
    apply Pc.casesOn (motive := fun p => Decidable (Intrudes { s with pc := fun _ => p } (.run t)))
      (s.pc t)
    all_goals
      intros
      first
        | exact instDecidableFalse
        | exact instDecidableAnd
        | exact instDecidableLocked _
  | .call _ _ | .cancel _ => inferInstanceAs (Decidable False)

instance (s : Cfg) (h : List Event) (act : Action) : Decidable (Polite s h act) :=
  inferInstanceAs (Decidable ¬Intrudes s act)

/-- The queue invariant of a barrier. -/
theorem reach_barrier (hr : Reach (.barrier n) Polite s h) :
    Inv (.barrier n) s (view h) ∧ Bounded n s (view h) := by
  refine hr.invariant (P := fun s h => Inv (.barrier n) s (view h) ∧ Bounded n s (view h)) ?_ ?_
  · refine ⟨initial_inv _, by simp [system, Kind.initial], fun _ => ?_, fun _ => Nat.zero_le _,
      by simp [system, Kind.initial]⟩
    have hd : data (tasks n) ≤ tasks n := by
      rw [data_eq]
      omega
    exact hd
  · rintro s h act e s' - ⟨hi, hb⟩ hok hs
    have hi' := step_inv hi hok hb.fits hs
    exact ⟨hi', step_bounded (took hi hi' hs) hb⟩

theorem Took.waiters_stay (ht : Took (.barrier n) s v t act e s') (hok : ¬Intrudes s act)
    (hu : u ≠ t) (hh : (s.pc u).Holds) : ∃ pushed, (v.observe e).queue = pushed ++ v.queue := by
  have hlk := ht.inv.word_locked hh
  have hno : ¬(s.pc t).Holds := fun hx => hu (ht.inv.unique u t hh hx)
  have hfits := (ht.inv.loc t).fits
  have hmv := ht.move
  generalize hp : s.pc t = p at hmv hno hfits
  generalize s'.pc t = p' at hmv
  cases hmv with
  | gate hg => cases hg
  | poisonFast | poison => cases hfits
  | cut | tailCut | tailReset | unlink | unlinkOnly => exact absurd trivial hno
  | last _ hg hd =>
    refine absurd ?_ hok
    simp only [Intrudes, hp]
    exact ⟨hg, hd, trivial, hlk⟩
  | writeBack =>
    refine absurd ?_ hok
    simp only [Intrudes, hp]
    exact hlk
  | push | countDown => exact ⟨[_], rfl⟩
  | _ => exact ⟨[], rfl⟩

theorem Intrudes.meets (hx : Intrudes s act) : Locked s.word ∧ ¬(s.pc act.actor).Holds := by
  cases act with
  | call | cancel => exact hx.elim
  | run t =>
    simp only [Intrudes] at hx
    change _ ∧ ¬(s.pc t).Holds
    split at hx
    · next hpc =>
      rw [hpc]
      exact ⟨hx.2.2.2, id⟩
    · next hpc =>
      rw [hpc]
      exact ⟨hx, id⟩
    · exact hx.elim

/-- The last arriver clears the flag of another thread. -/
theorem Intrudes.clears (hb : Bounded n s v) (hx : Intrudes s act)
    (hs : step (.barrier n) s act = some (e, s')) : ¬Locked s'.word := by
  cases act with
  | call | cancel => exact hx.elim
  | run t =>
    simp only [Intrudes] at hx
    split at hx
    · next q state spin hpc =>
      obtain ⟨hg, hd, rfl, -⟩ := hx
      simp [step, runStep, hpc, attemptStep, hg, countDown, hd] at hs
      obtain ⟨-, rfl⟩ := hs
      exact (anchor_of_lt (show 0 < 64 by decide)).2
    · next q c hpc =>
      simp only [step, runStep, hpc, writeBackStep, Option.some.injEq, Prod.mk.injEq] at hs
      obtain ⟨-, rfl⟩ := hs
      exact (anchor_of_lt (hb.fits t q c hpc)).2
    · exact hx.elim

/-- The queue lock of a barrier is exclusive as long as no last arriver takes its
compare-exchange or its swap while the flag is set. Until then nobody follows a null anchor,
the owner of the queue reads a locked word with an address whenever it looks, and
`set_result` finds every entry unresolved. And any further step leaves the flag and the
waiters to their owner if and only if it is not such a write. -/
theorem queue_lock_exclusive (hr : Reach (.barrier n) Polite s h) :
    (∀ t, s.pc t ≠ .fault) ∧
    (∀ t, (s.pc t).Holds → Locked s.word ∧ anchor s.word ≠ 0) ∧
    (∀ a, (view h).sets a ≤ 1) ∧
    (∀ act t a r s', step (.barrier n) s act = some (.setResult t a r, s') →
      (view h).sets a = 0 ∧ (s.state a).resultSet = false ∧ (s.state a).finalized = false) ∧
    ∀ act e s', step (.barrier n) s act = some (e, s') →
      (¬Intrudes s act ↔ ∀ t, (s.pc t).Holds → t ≠ act.actor → Locked s'.word ∧
        anchor s'.word ≠ 0 ∧ ∃ pushed, (view (e :: h)).queue = pushed ++ (view h).queue) := by
  obtain ⟨hi, hb⟩ := reach_barrier hr
  refine ⟨hb.sound, fun t hh => ⟨hi.word_locked hh, hi.anchor_ne hh⟩, hi.set_once, ?_, ?_⟩
  · intro act t a r s' hs
    obtain ⟨-, -, hclear, hst⟩ := (step_frame hi hs).set t a r rfl
    have hse := hi.glob.sets a
    refine ⟨?_, by rw [hclear]; rfl, by rw [hclear]; rfl⟩
    rcases hst with hst | hst <;> rw [hse, hst] <;> rfl
  · intro act e s' hs
    constructor
    · intro hok t hh hne
      have hi' := step_inv hi hok hb.fits hs
      have ht := took hi hi' hs
      have hh' : (s'.pc t).Holds := by rwa [ht.frame.pc t hne]
      exact ⟨hi'.word_locked hh', hi'.anchor_ne hh', ht.waiters_stay hok hne hh⟩
    · intro hall hx
      obtain ⟨hlk, hno⟩ := hx.meets
      rcases hi.locked hlk with ⟨t, hh⟩ | ⟨hk, -⟩
      · have hne : t ≠ act.actor := by
          rintro rfl
          exact hno hh
        exact hx.clears hb hs (hall t hh hne).1
      · cases hk

end

/-- A task waits at a barrier of two, its future is dropped and has locked the queue, and the
second task has read the word. -/
def intrusion : List Action :=
  [.call 0 (.acquire ⟨.arrive, .async, 256⟩), .run 0, .run 0, .run 0, .cancel 0, .run 0, .run 0,
    .call 1 (.acquire ⟨.arrive, .sync, 384⟩), .run 1]

theorem queue_lock_exclusive_shared :
    ∃ s h, execIf (system (.barrier 2)) Polite (Kind.initial (.barrier 2)) [] intrusion =
        some (s, h) ∧ (s.pc 0).Holds ∧ Locked s.word ∧ anchor s.word ≠ 0 ∧
      (∀ t, s.pc t ≠ .fault) ∧ ∀ a, (view h).sets a ≤ 1 := by
  obtain ⟨s, h, hrun, hh⟩ : ∃ s h, execIf (system (.barrier 2)) Polite (Kind.initial (.barrier 2))
      [] intrusion = some (s, h) ∧ (s.pc 0).Holds := ⟨_, _, rfl, trivial⟩
  obtain ⟨hsound, howner, honce, -⟩ := queue_lock_exclusive (Run.execIf .init hrun)
  obtain ⟨hlk, hne⟩ := howner 0 hh
  exact ⟨s, h, hrun, hh, hlk, hne, hsound, honce⟩

/-- The second task takes the queue away, and the first one follows a null anchor. -/
theorem queue_lock_broken :
    ∃ s h e s' e' s'', exec (system (.barrier 2)) (Kind.initial (.barrier 2)) [] intrusion =
        some (s, h) ∧ (s.pc 0).Holds ∧ Locked s.word ∧ (view h).queue = [256] ∧
      step (.barrier 2) s (.run 1) = some (e, s') ∧ ¬Locked s'.word ∧ anchor s'.word = 0 ∧
      (view (e :: h)).queue = [] ∧
      step (.barrier 2) s' (.run 0) = some (e', s'') ∧ s''.pc 0 = .fault :=
  ⟨_, _, _, _, _, _, rfl, trivial, by decide, rfl, rfl, by decide, by decide, rfl, rfl, rfl⟩

end Saa
