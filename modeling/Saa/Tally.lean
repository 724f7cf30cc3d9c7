import Saa.Gates

/-! # Conservation of waiters in a gate

Every pushed entry is detached by exactly one `wake_all`, which counts it and gives it its
result. The tallies are read off the history. -/
namespace Saa

open Word Lib.Linked Lib.Trace

def pushes : List Event → ℕ
  | [] => 0
  | .push _ _ _ :: h => pushes h + 1
  | _ :: h => pushes h

/-- The calls of `wake_all` that have detached the queue and not returned: the thread, the
state it found and the number of entries it took. -/
def flying : List Event → List (Tid × GateState × ℕ)
  | [] => []
  | .wakeAll t prev :: h => (t, prev, (view h).queue.length) :: flying h
  | .woke t _ :: h => (flying h).filter (·.1 ≠ t)
  | _ :: h => flying h

/-- The count a command returns from what `wake_all` gives it. `permit` and `reject` return
an error in its place when the gate was not controlled. -/
def Op.count : Op → GateState → ℕ → ℕ
  | .permit, .controlled, n | .reject, .controlled, n => n
  | .open, _, n | .seal, _, n => n
  | _, _, _ => 0

/-- The total of the counts returned by `permit`, `reject`, `open` and `seal`. -/
def returned : List Event → ℕ
  | [] => 0
  | .woke t n :: h => match called h t, (flying h).find? (·.1 = t) with
    | some op, some (_, prev, _) => returned h + op.count prev n
    | _, _ => returned h
  | _ :: h => returned h

/-- The entries taken by the `wake_all` of dropped pagers. -/
def reclaimed : List Event → ℕ
  | [] => 0
  | .woke t n :: h => match called h t with
    | some (.drop _) => reclaimed h + n
    | _ => reclaimed h
  | _ :: h => reclaimed h

/-- The result the waiters get from a command, or from a dropped pager. -/
def Op.tells : Op → Option (Except GateError GateState)
  | .permit => some (.ok .controlled)
  | .reject => some (.error .rejected)
  | .open => some (.ok .opened)
  | .seal => some (.error .sealed)
  | .drop _ => some (.error .spuriousFailure)
  | _ => none

/-- The result that the history owes to each entry: that of the `wake_all` that detached it. -/
def told : List Event → Ptr → Option (Except GateError GateState)
  | [] => fun _ => none
  | .wakeAll t _ :: h => fun a =>
    if a ∈ (view h).queue then (called h t).bind Op.tells else told h a
  | .push _ a _ :: h | .consume _ a _ :: h | .dropped _ a :: h => Function.update (told h) a none
  | _ :: h => told h

def Pc.waking : Pc → Option ℕ
  | .resolve _ _ n _ => some n
  | .finalize _ _ _ n _ => some (n + 1)
  | _ => none

def Counts (s : Cfg) (h : List Event) (t : Tid) : Prop :=
  match (s.pc t).waking with
  | none => t ∉ (flying h).map (·.1)
  | some c => ∃ op prev, called h t = some op ∧ op.wakes.isSome ∧
      (t, prev, c + ((view h).taken t).length) ∈ flying h

structure Tallied (s : Cfg) (h : List Event) : Prop where
  sum : pushes h = (view h).queue.length + returned h + reclaimed h +
    ((flying h).map (·.2.2)).sum
  keys : ((flying h).map (·.1)).Nodup
  counts : ∀ t, Counts s h t
  zero : ∀ t prev n, (t, prev, n) ∈ flying h → prev ≠ .controlled → n = 0

section
variable {s s' : Cfg} {h hist : List Event} {t u : Tid} {a : Ptr} {op : Opcode} {act : Action}
  {e : Event}

theorem sum_filter {l : List (Tid × GateState × ℕ)} {x : GateState × ℕ} (hn : (l.map (·.1)).Nodup)
    (hm : (t, x) ∈ l) :
    (l.map (·.2.2)).sum = x.2 + ((l.filter (·.1 ≠ t)).map (·.2.2)).sum ∧
    l.find? (·.1 = t) = some (t, x) := by
  induction l with
  | nil => cases hm
  | cons b l ih =>
    rw [List.map_cons, List.nodup_cons] at hn
    by_cases hb : b.1 = t
    · have hbx : b = (t, x) := by
        rcases List.mem_cons.mp hm with hx | hx
        · exact hx.symm
        · exact absurd (List.mem_map.mpr ⟨_, hx, hb.symm⟩) hn.1
      subst hbx
      have hrest : l.filter (·.1 ≠ t) = l := by
        refine List.filter_eq_self.mpr fun c hc => ?_
        simp only [ne_eq, decide_not, Bool.not_eq_eq_eq_not, Bool.not_true, decide_eq_false_iff_not]
        intro hct
        exact hn.1 (List.mem_map.mpr ⟨c, hc, hct⟩)
      constructor
      · rw [List.filter_cons_of_neg (by simp), hrest]
        simp
      · simp
    · have hm' : (t, x) ∈ l := by
        rcases List.mem_cons.mp hm with hx | hx
        · rw [← hx] at hb
          exact absurd rfl hb
        · exact hx
      obtain ⟨h₁, h₂⟩ := ih hn.2 hm'
      constructor
      · simp only [List.map_cons, List.sum_cons, h₁, List.filter_cons, ne_eq, hb, not_false_eq_true,
          decide_true, ↓reduceIte]
        omega
      · simp [hb, h₂]

theorem Took.called_other (h : Took .gate s (view hist) t act e s') (hu : u ≠ t) :
    called (e :: hist) u = called hist u := by
  apply Saa.called_other
  rintro op rfl
  have hmv := h.move
  generalize s.pc t = p at hmv
  generalize s'.pc t = p' at hmv
  cases hmv with
  | gate _ hm => cases hm
  | _ => exact hu rfl

theorem Took.counts_other (h : Took .gate s (view hist) t act e s') (hu : u ≠ t)
    (hf : ∀ x, (u, x) ∈ flying (e :: hist) ↔ (u, x) ∈ flying hist) (hc : Counts s hist u) :
    Counts s' (e :: hist) u := by
  unfold Counts at hc ⊢
  rw [h.frame.pc u hu]
  split at hc
  · intro hm
    obtain ⟨⟨b, x⟩, hb, rfl⟩ := List.mem_map.mp hm
    exact hc (List.mem_map.mpr ⟨(b, x), (hf x).mp hb, rfl⟩)
  · obtain ⟨op, prev, hop, hw, hm⟩ := hc
    refine ⟨op, prev, ?_, hw, ?_⟩
    · rw [h.called_other hu]
      exact hop
    · rw [hf, view_cons, h.taken_other hu]
      exact hm

theorem Tallied.stay (h : Took .gate s (view hist) t act e s') (ht : Tallied s hist)
    (hp : (s.pc t).waking = none) (hp' : (s'.pc t).waking = none)
    (hf : flying (e :: hist) = flying hist) (hpu : pushes (e :: hist) = pushes hist)
    (hre : returned (e :: hist) = returned hist) (hrc : reclaimed (e :: hist) = reclaimed hist)
    (hq : ((view hist).observe e).queue = (view hist).queue) : Tallied s' (e :: hist) := by
  constructor
  · rw [hpu, hre, hrc, hf, view_cons, hq]
    exact ht.sum
  · rw [hf]
    exact ht.keys
  · intro u
    by_cases hu : u = t
    · subst hu
      have hc := ht.counts u
      simp only [Counts, hp, hp', hf] at hc ⊢
      exact hc
    · exact h.counts_other hu (fun x => by rw [hf]) (ht.counts u)
  · rw [hf]
    exact ht.zero

theorem Tallied.push (h : Took .gate s (view hist) t act (.push u a op) s') (ht : Tallied s hist)
    (hp : (s.pc t).waking = none) (hp' : (s'.pc t).waking = none) :
    Tallied s' (.push u a op :: hist) := by
  constructor
  · have hsum := ht.sum
    simp only [pushes, returned, reclaimed, flying, view_cons, View.observe, List.length_cons]
    omega
  · exact ht.keys
  · intro x
    by_cases hx : x = t
    · subst hx
      have hc := ht.counts x
      simp only [Counts, hp, hp', flying] at hc ⊢
      exact hc
    · exact h.counts_other hx (fun y => Iff.rfl) (ht.counts x)
  · exact ht.zero

theorem Tallied.work (h : Took .gate s (view hist) t act e s') (ht : Tallied s hist) {c c' : ℕ}
    (hp : (s.pc t).waking = some c) (hp' : (s'.pc t).waking = some c')
    (hc' : c' + (((view hist).observe e).taken t).length = c + ((view hist).taken t).length)
    (hcall : called (e :: hist) t = called hist t)
    (hf : flying (e :: hist) = flying hist) (hpu : pushes (e :: hist) = pushes hist)
    (hre : returned (e :: hist) = returned hist) (hrc : reclaimed (e :: hist) = reclaimed hist)
    (hq : ((view hist).observe e).queue = (view hist).queue) : Tallied s' (e :: hist) := by
  constructor
  · rw [hpu, hre, hrc, hf, view_cons, hq]
    exact ht.sum
  · rw [hf]
    exact ht.keys
  · intro u
    by_cases hu : u = t
    · subst hu
      have hc := ht.counts u
      simp only [Counts, hp, hp', hf, view_cons, hc', hcall] at hc ⊢
      exact hc
    · exact h.counts_other hu (fun x => by rw [hf]) (ht.counts u)
  · rw [hf]
    exact ht.zero

theorem Tallied.wakeAll {prev : GateState} (h : Took .gate s (view hist) t act (.wakeAll t prev) s')
    (hg : Gating s hist) (ht : Tallied s hist) (hp : (s.pc t).waking = none)
    (hp' : (s'.pc t).waking = some 0) : Tallied s' (.wakeAll t prev :: hist) := by
  obtain ⟨hprev, nx, er, k, hpc, -⟩ := h.woken_state rfl
  obtain ⟨op, hop, hw⟩ := hg.wakes t nx er k hpc
  have hnew : t ∉ (flying hist).map (·.1) := by
    have hc := ht.counts t
    simpa only [Counts, hp] using hc
  constructor
  · have hsum := ht.sum
    simp only [pushes, returned, reclaimed, flying, view_cons, View.observe, View.detach,
      List.map_cons, List.sum_cons, List.length_nil]
    omega
  · exact List.nodup_cons.mpr ⟨hnew, ht.keys⟩
  · intro u
    by_cases hu : u = t
    · subst hu
      simp only [Counts, hp', flying, view_cons, View.observe, View.detach, Function.update_self]
      exact ⟨op, prev, hop, by rw [hw]; rfl, by simp⟩
    · refine h.counts_other hu (fun x => ?_) (ht.counts u)
      simp [flying, hu]
  · intro u prev' n hm hne
    rcases List.mem_cons.mp hm with hx | hx
    · cases hx
      by_contra hlen
      apply hne
      rw [hprev]
      apply hg.queue
      intro hnil
      rw [hnil] at hlen
      exact hlen rfl
    · exact ht.zero u prev' n hx hne

theorem Tallied.woke {n : ℕ} (h : Took .gate s (view hist) t act (.woke t n) s')
    (ht : Tallied s hist) (hp : (s.pc t).waking = some n) (hnil : (view hist).taken t = [])
    (hp' : (s'.pc t).waking = none) : Tallied s' (.woke t n :: hist) := by
  have hc := ht.counts t
  simp only [Counts, hp, hnil, List.length_nil, Nat.add_zero] at hc
  obtain ⟨op, prev, hop, hw, hm⟩ := hc
  obtain ⟨hsum, hfind⟩ := sum_filter ht.keys hm
  have hz := ht.zero t prev n hm
  constructor
  · have hall := ht.sum
    have hcount : returned (.woke t n :: hist) + reclaimed (.woke t n :: hist) =
        returned hist + reclaimed hist + n := by
      simp only [returned, reclaimed, hop, hfind]
      cases op <;> cases hw <;> cases prev <;> simp_all [Op.count] <;> omega
    simp only [pushes, flying, view_cons, View.observe] at hcount ⊢
    omega
  · exact ht.keys.sublist ((List.filter_sublist).map _)
  · intro u
    by_cases hu : u = t
    · subst hu
      simp [Counts, hp', flying]
    · refine h.counts_other hu (fun x => ?_) (ht.counts u)
      simp [flying, hu]
  · intro u prev' m hmem hne
    exact ht.zero u prev' m (List.mem_of_mem_filter hmem) hne

theorem step_tallied (h : Took .gate s (view hist) t act e s') (hg : Gating s hist)
    (ht : Tallied s hist) : Tallied s' (e :: hist) := by
  have hl := h.inv.loc t
  have hef := h.effect
  have hmv := h.move
  generalize hp : s.pc t = p at hmv hl
  generalize hp' : s'.pc t = p' at hmv
  have hstay : p.waking = none → p'.waking = none → flying (e :: hist) = flying hist →
      pushes (e :: hist) = pushes hist → returned (e :: hist) = returned hist →
      reclaimed (e :: hist) = reclaimed hist →
      ((view hist).observe e).queue = (view hist).queue → Tallied s' (e :: hist) := by
    intro h₁ h₂
    exact ht.stay h (by rw [hp]; exact h₁) (by rw [hp']; exact h₂)
  cases hmv with
  | push => exact ht.push h (by rw [hp]; rfl) (by rw [hp']; rfl)
  | gate _ hm =>
    cases hm with
    | wakeAll => exact ht.wakeAll h hg (by rw [hp]; rfl) (by rw [hp']; rfl)
    | woken hnil => exact ht.woke h (by rw [hp]; rfl) hnil (by rw [hp']; rfl)
    | woke hnil => exact ht.woke h (by rw [hp]; rfl) hnil (by rw [hp']; rfl)
    | _ => exact hstay rfl rfl rfl rfl rfl rfl rfl
  | @set cur r n k hm =>
    refine ht.work h (by rw [hp]; rfl) (by rw [hp']; rfl) ?_ rfl rfl rfl rfl rfl rfl
    have hlen := List.length_erase_of_mem hm
    have hpos := List.length_pos_of_mem hm
    simp only [View.observe, Function.update_self]
    omega
  | finalize =>
    exact ht.work h (by rw [hp]; rfl) (by rw [hp']; rfl) rfl rfl rfl rfl rfl rfl rfl
  | own htry | take htry =>
    rw [gate_goal (hl.reqs _ htry.reqs).1] at hef
    exact absurd hef.2.1 id
  | enter hin =>
    cases hin with
    | gate _ hc => cases hc <;> exact hstay rfl rfl rfl rfl rfl rfl rfl
    | _ => next hx => cases hx
  | last hn => obtain ⟨n, hn⟩ := hn; cases hn
  | countDown hn => obtain ⟨n, hn⟩ := hn; cases hn
  | writeBack hn => obtain ⟨n, hn⟩ := hn; cases hn
  | counted hn => obtain ⟨n, hn⟩ := hn; cases hn
  | arrived hn => obtain ⟨n, hn⟩ := hn; cases hn
  | unreleased | release | releasePass | pass | leave => exact absurd rfl hl.fits
  | cut | tailReset | tailCut | update | add | lockQueue | unlink | unlinkOnly =>
    exact absurd rfl hl.fits
  | poisonFast | poison | poisoned => cases hl.fits
  | _ => exact hstay rfl rfl rfl rfl rfl rfl rfl

theorem reach_tallied {ok : Guard Cfg Action Event} (hr : Reach .gate ok s h) : Tallied s h := by
  refine hr.invariant (P := Tallied) ?_ ?_
  · constructor
    · rfl
    · exact List.nodup_nil
    · intro t
      exact List.not_mem_nil
    · intro t prev n hm
      cases hm
  · intro s h act e s' hr ih hok hs
    have hb : ∀ n, Kind.gate ≠ .barrier n := by simp
    exact step_tallied (took (reach_inv hb hr) (reach_inv hb (.step hr hok hs)) hs)
      (reach_gating hr) ih

theorem tells_toResult {op : Op} {nx : Option GateState} {er : Option GateError}
    {res : Except GateError GateState} (hw : op.wakes = some (nx, er)) (ht : op.tells = some res) :
    toResult (intoU8 (nx.getD .controlled) er) = res := by
  cases op <;> cases hw <;> cases ht <;> rfl

def Tells (s : Cfg) (h : List Event) : Prop :=
  ∀ a res, told h a = some res → ∃ r, toResult r = res ∧ Gets s (view h) a r

theorem step_tells (h : Took .gate s (view hist) t act e s') (hg : Gating s hist)
    (ht : Tells s hist) : Tells s' (e :: hist) := by
  intro a res htold
  have hold : told hist a = some res → (∀ x c, e ≠ .consume x a c) → (∀ x, e ≠ .dropped x a) →
      ∃ r, toResult r = res ∧ Gets s' (view (e :: hist)) a r := by
    intro hx h₁ h₂
    obtain ⟨r, hr, hgets⟩ := ht a res hx
    refine ⟨r, hr, h.gets hgets fun hi => ?_⟩
    rcases stat_ends hi with hi | ⟨x, c, he⟩ | ⟨x, he⟩ | ⟨x, he⟩
    · exact hi
    · exact absurd he (h₁ x c)
    · exact absurd he (h.no_retry (by simp) x a)
    · exact absurd he (h₂ x)
  have hclear : ∀ d, Function.update (told hist) d none a = some res →
      told hist a = some res ∧ a ≠ d := by
    intro d hd
    by_cases had : a = d
    · rw [had, Function.update_self] at hd
      cases hd
    · rw [Function.update_of_ne had] at hd
      exact ⟨hd, had⟩
  cases e with
  | push x b op => exact hold (hclear _ htold).1 (by simp) (by simp)
  | consume x b c =>
    obtain ⟨hx, hne⟩ := hclear _ htold
    exact hold hx (by simp [hne.symm]) (by simp)
  | dropped x b =>
    obtain ⟨hx, hne⟩ := hclear _ htold
    exact hold hx (by simp) (by simp [hne.symm])
  | wakeAll x prev =>
    obtain rfl := h.wakeAll_actor
    simp only [told] at htold
    split at htold
    · next hm =>
      obtain ⟨-, nx, er, k, hp, -⟩ := h.woken_state rfl
      obtain ⟨op, hop, hw⟩ := hg.wakes x nx er k hp
      have hctl := hg.queue (List.ne_nil_of_mem hm)
      rw [hop] at htold
      refine ⟨_, tells_toResult hw htold, Or.inl ⟨x, ?_, ?_⟩⟩
      · simp [View.observe, View.detach, hm]
      · have hmv := h.move
        rw [hp] at hmv
        generalize s'.pc x = p' at hmv
        cases hmv with
        | gate _ hg =>
          cases hg
          rw [hctl]
          rfl
    · next hm => exact hold htold (by simp) (by simp)
  | _ => exact hold htold (by simp) (by simp)

theorem reach_tells (hr : Reach .gate free s h) : Tells s h := by
  refine hr.invariant (P := Tells) ?_ ?_
  · intro a res htold
    cases htold
  · intro s h act e s' hr ih hok hs
    have hb : ∀ n, Kind.gate ≠ .barrier n := by simp
    exact step_tells (took (reach_inv hb hr) (reach_inv hb (.step hr hok hs)) hs)
      (reach_gating hr) ih

theorem Tallied.flight (ht : Tallied s h) {prev : GateState} {n : ℕ}
    (hm : (t, prev, n) ∈ flying h) :
    ∃ c, (s.pc t).waking = some c ∧ n = c + ((view h).taken t).length := by
  have hc := ht.counts t
  cases hw : (s.pc t).waking with
  | none =>
    simp only [Counts, hw] at hc
    exact absurd (List.mem_map.mpr ⟨_, hm, rfl⟩) hc
  | some c =>
    simp only [Counts, hw] at hc
    obtain ⟨op, prev', -, -, hm'⟩ := hc
    have h₁ := (sum_filter ht.keys hm).2
    have h₂ := (sum_filter ht.keys hm').2
    rw [h₁] at h₂
    cases h₂
    exact ⟨c, rfl, rfl⟩

/-- Conservation of waiters and agreement on their results, in every run of a gate. Only a
controlled gate has waiters, and the flag is never set. The entries pushed are those still
queued, those counted in what the commands returned, those taken for dropped pagers, and
those of the calls in flight, each of which will return the number it holds; a command
that returns an error instead of a count has counted nothing. An entry gets the result of
the `wake_all` that detached it: the code is on its way or stored, and it arrives if the
thread that carries it runs on. -/
theorem gate_conservation (hr : Reach .gate free s h) :
    ((view h).queue ≠ [] → GateState.ofUsize (data s.word) = .controlled) ∧
    ¬Locked s.word ∧
    pushes h = (view h).queue.length + returned h + reclaimed h +
      ((flying h).map (·.2.2)).sum ∧
    (∀ t prev n, (t, prev, n) ∈ flying h →
      (∃ c, (s.pc t).waking = some c ∧ n = c + ((view h).taken t).length) ∧
      (prev ≠ .controlled → n = 0)) ∧
    ∀ a res, told h a = some res → ∃ r, toResult r = res ∧ Gets s (view h) a r ∧
      ∃ t s' h', Solo .gate t s h s' h' ∧ (view h').stat a = .final ∧ (s'.state a).result = r := by
  have hb : ∀ n, Kind.gate ≠ .barrier n := by simp
  have hi := reach_inv hb hr
  have ht := reach_tallied hr
  refine ⟨(reach_gating hr).queue, hi.gate_unlocked rfl, ht.sum, ?_, ?_⟩
  · intro t prev n hm
    exact ⟨ht.flight hm, ht.zero t prev n hm⟩
  · intro a res htold
    obtain ⟨r, hres, hg⟩ := reach_tells hr a res htold
    exact ⟨r, hres, hg, hg.delivered hi⟩

end

/-- A pager waits at a gate and another thread permits it to enter; the schedule ends when
the queue is detached and nothing is resolved yet. -/
def permitted : List Action :=
  [.call 0 (.acquire ⟨.enter, .pager, 256⟩), .run 0, .run 0, .run 0, .run 0,
    .call 1 .permit, .run 1]

theorem gate_conservation_permitted :
    ∃ s h, exec (system .gate) Kind.gate.initial [] permitted = some (s, h) ∧
      pushes h = 1 ∧ (flying h) = [(1, .controlled, 1)] ∧
      ∃ r, toResult r = .ok .controlled ∧ Gets s (view h) 256 r := by
  obtain ⟨s, h, hrun, hpush, hfly, htold⟩ : ∃ s h,
      exec (system .gate) Kind.gate.initial [] permitted = some (s, h) ∧ pushes h = 1 ∧
      flying h = [(1, .controlled, 1)] ∧ told h 256 = some (.ok .controlled) :=
    ⟨_, _, rfl, rfl, rfl, rfl⟩
  obtain ⟨-, -, -, -, htell⟩ := gate_conservation (Run.exec .init (admits_free ..) hrun)
  obtain ⟨r, hres, hg, -⟩ := htell 256 _ htold
  exact ⟨s, h, hrun, hpush, hfly, r, hres, hg⟩

end Saa
