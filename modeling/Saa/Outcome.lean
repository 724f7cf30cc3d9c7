import Mathlib.Algebra.Order.Group.Nat
import Saa.Drops
import Saa.Lib.Greedy
import Saa.Releasing

/-! # Whole calls

A release or a drop that begins while nobody else is in the middle of an operation, run to
its end. Whatever path it takes, it comes to one service of the line: from the units that
are in use after the release, for the waiters that are left. -/
namespace Saa

open Word Lib.Linked Lib.Trace Lib.Greedy

/-- No thread is in the middle of an operation. -/
def Quiescent (s : Cfg) : Prop := ∀ u, s.pc u = .idle ∨ ∃ q retry, s.pc u = .await q retry

/-- `process_wait_queue` as a policy: who can inherit, and what is inherited. -/
def Kind.policy (kind : Kind) (opcode : Ptr → Opcode) : Policy Ptr ℕ where
  admits held a := Grantable kind.maxSharedOwners held (opcode a)
  weight a := (opcode a).acquiredCount
  dec _ _ := inferInstance
  antitone := by
    intro m m' a hle hg
    rcases hg with hz | hg
    · exact .inl (by omega)
    · exact .inr (by omega)

/-- The entries that the history has granted, in the order of the line. -/
def grants : List Event → List Ptr
  | [] => []
  | e :: h => grants h ++ ((view h).served e).reverse

/-- The entries `g` were granted and told so, and no other entry heard anything. -/
structure Granted (s : Cfg) (h : List Event) (g : List Ptr) (s' : Cfg) (h' : List Event) :
    Prop where
  granted : grants h' = grants h ++ g
  result : ∀ a ∈ g, s'.state a = ⟨ACQUIRED, true, true⟩
  others : ∀ a ∉ g, s'.state a = s.state a
  opcode : s'.opcode = s.opcode

/-- The waiters `line`, oldest first, were served from `held` units. -/
structure Served (kind : Kind) (s : Cfg) (h : List Event) (held : ℕ) (line : List Ptr) (s' : Cfg)
    (h' : List Event) : Prop extends
    Granted s h ((kind.policy s.opcode).serve held line) s' h' where
  units : data s'.word =
    held + (kind.policy s.opcode).load ((kind.policy s.opcode).serve held line)
  left : (view h').queue.reverse = (kind.policy s.opcode).rest held line
  unlocked : ¬Locked s'.word

def Pc.uncounted (v : View) (t : Tid) : Pc → List Ptr
  | .update _ _ _ _ _ | .add _ _ _ _ _ => v.taken t
  | _ => []

def Pc.Serving : Pc → Prop
  | .idle | .releaseFast _ | .releaseLoop _ _ _ | .complete _ _ | .finish _ => True
  | p => p.Processing

/-- Thread `t` makes a release call and, alone, runs it to its end. The call returns `true`. -/
structure Succeeds (kind : Kind) (t : Tid) (op : Op) (s : Cfg) (h : List Event) (s' : Cfg)
    (h' : List Event) : Prop where
  call : ∃ s₁, step kind s (.call t op) = some (.call t op, s₁) ∧
    Solo kind t s₁ (.call t op :: h) s' h'
  idle : s'.pc t = .idle
  taken : decrements t h' = decrements t h + 1
  answer : refusals t h' = refusals t h

/-- The action drops the entry: its pager, or the future of the thread that waits with it. -/
def Droppable (s : Cfg) (t : Tid) (a : Ptr) (act : Action) : Prop :=
  act = .call t (.drop a) ∧ s.pc t = .idle ∧ s.slot a = .pager ∨
  act = .cancel t ∧ ∃ q retry, s.pc t = .await q retry ∧ q.via = .async ∧ q.entry = a

/-- Thread `t` drops the entry and, alone, runs the drop to its end. -/
structure Dropped (kind : Kind) (t : Tid) (a : Ptr) (act : Action) (s : Cfg) (h : List Event)
    (s' : Cfg) (h' : List Event) : Prop where
  call : ∃ s₁, step kind s act = some (.call t (.drop a), s₁) ∧
    Solo kind t s₁ (.call t (.drop a) :: h) s' h'
  idle : s'.pc t = .idle

section
variable {kind : Kind} {s s₁ s' : Cfg} {h h₁ h' : List Event} {t u : Tid} {a : Ptr}
  {k : After} {op : Opcode} {state held : ℕ} {act : Action} {e : Event} {l line : List Ptr}
  {o : Ptr → Opcode}

theorem inherit_eq_serve :
    inherit kind.maxSharedOwners o held l = (kind.policy o).serve held l := by
  induction l generalizing held with
  | nil => rfl
  | cons a l ih =>
    simp only [inherit, Policy.serve, ih]
    rfl

theorem total_eq_load : total o l = (kind.policy o).load l := rfl

theorem after_serving (k : After) : k.pc.Serving := by
  cases k <;> trivial

/-- Steps of a serving thread move the oldest waiters from the line to the granted ones. -/
theorem serving_step (ht : Took kind s (view h) t (.run t) e s') (hk : kind.Grants)
    (hp : (s.pc t).Serving) : (s'.pc t).Serving ∧
      grants (e :: h) ++ ((view (e :: h)).queue ++ (s'.pc t).uncounted (view (e :: h)) t).reverse =
        grants h ++ ((view h).queue ++ (s.pc t).uncounted (view h) t).reverse := by
  have hcut : ∀ b ∈ (view h).queue,
      ((view (.cut t b :: h)).queue ++ (view (.cut t b :: h)).taken t).reverse =
        ((view h).queue ++ []).reverse := by
    intro b hb
    simp only [view_cons, View.observe, View.detach, Function.update_self, upTo_behind hb,
      List.append_nil]
  have hafter : ∀ k : After, k.pc.uncounted (view (e :: h)) t = [] := by
    intro k
    cases k <;> rfl
  have hmv := ht.move
  generalize s.pc t = p at hmv hp
  generalize s'.pc t = p' at hmv
  cases hmv with
  | gate hg => exact absurd hg hk.not_gate
  | walk | walked | relink | relinked | back | backTail | missed | pass | slow | reRelease
  | unresolved | complete | finish | fast | releasePass =>
    exact ⟨trivial, by simp [grants, View.served, View.observe, Pc.uncounted]⟩
  | unreleased | release | leave =>
    refine ⟨after_serving _, ?_⟩
    rw [hafter]
    simp [grants, View.served, View.observe, Pc.uncounted]
  | cut | tailCut =>
    refine ⟨trivial, ?_⟩
    rw [show grants (.cut t _ :: h) = grants h by simp [grants, View.served]]
    exact congrArg _ (hcut _ ht.cut_mem)
  | tailReset | update | add =>
    refine ⟨trivial, ?_⟩
    simp [grants, View.served, View.observe, View.detach, Pc.uncounted]
  | @set cur r n k | @finalize cur nx r n k =>
    cases k with
    | pass | leave =>
      exact ⟨trivial, by simp [grants, View.served, View.observe, Pc.uncounted]⟩
    | _ => exact hp.elim
  | own htry | take htry => rcases htry with rfl | ⟨_, _, rfl⟩ <;> exact hp.elim
  | _ => exact hp.elim

theorem solo_grants (hk : kind.Grants) (hr : Reach kind free s h) (hx : Solo kind t s h s' h')
    (hp : (s.pc t).Serving) :
    grants h' ++ ((view h').queue ++ (s'.pc t).uncounted (view h') t).reverse =
      grants h ++ ((view h).queue ++ (s.pc t).uncounted (view h) t).reverse := by
  induction hx with
  | done => rfl
  | @step s h e s₁ _ _ hs _ ih =>
    have hr₁ : Reach kind free s₁ (e :: h) := .step (a := Action.run t) hr trivial hs
    replace hs : step kind s (.run t) = some (e, s₁) := hs
    have ht : Took kind s (view h) t (.run t) e s₁ :=
      took (reach_inv hk.not_barrier hr) (reach_inv hk.not_barrier hr₁) hs
    obtain ⟨hp₁, hsame⟩ := serving_step ht hk hp
    exact (ih hr₁ hp₁).trans hsame

theorem grants_of_queue {g g' q q' r : List Ptr} (hsame : g' ++ q'.reverse = g ++ q.reverse)
    (hq : q.reverse = r ++ q'.reverse) : g' = g ++ r := by
  rw [hq, ← List.append_assoc] at hsame
  exact List.append_cancel_right hsame

theorem served_nobody (hd : data s'.word = held) (hq : (view h').queue = [])
    (hn : ¬Locked s'.word) (hg : grants h' = grants h) (hst : s'.state = s.state)
    (ho : s'.opcode = s.opcode) : Served kind s h held [] s' h' where
  units := hd
  left := by rw [hq]; rfl
  unlocked := hn
  granted := hg.trans (List.append_nil _).symm
  result _ ha := by cases ha
  others a _ := congrFun hst a
  opcode := ho

theorem pass_served (hk : kind.Grants) (hr : Reach kind free s h)
    (hp : s.pc t = .walk s.word (anchor s.word) k) :
    ∃ s' h', Solo kind t s h s' h' ∧ s'.pc t = k.pc ∧ s'.slot = s.slot ∧
      Served kind s h (data s.word) (view h).queue.reverse s' h' := by
  have hi := reach_inv hk.not_barrier hr
  have hh : (s.pc t).Holds := by rw [hp]; trivial
  have hne : (view h).queue ≠ [] := fun hx => hi.anchor_ne hh (hi.glob.chain.eq_nil_iff.mp hx)
  obtain ⟨g, s', h', hg, hsolo, hpc, hd, hlk, hchain, hin, hout, ho, hsl⟩ :=
    process_alone (h := h) (max_le hk.not_gate) (hi.ready hh) hne hp
  rw [inherit_eq_serve] at hg
  have hi' := reach_inv hk.not_barrier (hr.alone hsolo)
  have hqueue : (view h').queue.reverse = (view h).queue.reverse.drop g.length := by
    rw [hi'.glob.chain.unique hchain, List.reverse_reverse]
  have hend : k.pc.uncounted (view h') t = [] := by cases k <;> rfl
  have hsame := solo_grants hk hr hsolo (by rw [hp]; trivial)
  rw [hp, hpc, hend] at hsame
  simp only [Pc.uncounted, List.append_nil] at hsame
  subst hg
  have hgr := grants_of_queue hsame (by
    rw [hqueue]
    exact (serve_rest (P := kind.policy s.opcode)).symm)
  exact ⟨s', h', hsolo, hpc, hsl, ⟨hgr, hin, hout, ho⟩, by rw [hd, total_eq_load], hqueue, hlk⟩

theorem Served.before (hx : Served kind s₁ h₁ held line s' h') (ho : s₁.opcode = s.opcode)
    (hst : s₁.state = s.state) (hg : grants h₁ = grants h) : Served kind s h held line s' h' := by
  obtain ⟨⟨hgr, hres, hrest, hop⟩, hd, hq, hn⟩ := hx
  rw [ho] at hd hq hgr hres hrest hop
  rw [hst] at hrest
  rw [hg] at hgr
  exact ⟨⟨hgr, hres, hrest, hop⟩, hd, hq, hn⟩

theorem Served.behind (hx : Served kind s h held line s₁ h₁) (hw : s'.word = s₁.word)
    (hq : (view h').queue = (view h₁).queue) (hg : grants h' = grants h₁)
    (hst : s'.state = s₁.state) (ho : s'.opcode = s₁.opcode) : Served kind s h held line s' h' where
  units := by rw [hw]; exact hx.units
  left := by rw [hq]; exact hx.left
  unlocked := by rw [hw]; exact hx.unlocked
  granted := hg.trans hx.granted
  result := by rw [hst]; exact hx.result
  others := by rw [hst]; exact hx.others
  opcode := ho.trans hx.opcode

theorem Granted.trans {g g' : List Ptr} {s₂ : Cfg} {h₂ : List Event} (hx : Granted s h g s₁ h₁)
    (hy : Granted s₁ h₁ g' s₂ h₂) : Granted s h (g ++ g') s₂ h₂ := by
  constructor
  case granted => rw [hy.granted, hx.granted, List.append_assoc]
  case result =>
    intro b hb
    by_cases hb' : b ∈ g'
    · exact hy.result b hb'
    · rw [hy.others b hb']
      exact hx.result b ((List.mem_append.mp hb).resolve_right hb')
  case others =>
    intro b hb
    rw [List.mem_append, not_or] at hb
    rw [hy.others b hb.2, hx.others b hb.1]
  case opcode => rw [hy.opcode, hx.opcode]

/-- Something is freed behind a service, and the rest of the line is served: that is one
service with so much less in use. -/
theorem Served.trans {held' : ℕ} {s₂ : Cfg} {h₂ : List Event} (hx : Served kind s h held line s₁ h₁)
    (hle : held' ≤ held) (hy : Served kind s₁ h₁
      (held' + (kind.policy s.opcode).load ((kind.policy s.opcode).serve held line))
      (view h₁).queue.reverse s₂ h₂) : Served kind s h held' line s₂ h₂ := by
  obtain ⟨hserve, hrest⟩ := serve_twice (P := kind.policy s.opcode) (l := line) hle
  obtain ⟨hgr, hd, hq, hn⟩ := hy
  rw [hx.opcode, hx.left] at hd hq hgr
  refine ⟨?_, ?_, ?_, hn⟩
  · rw [hserve]
    exact hx.toGranted.trans hgr
  · rw [hserve, load_append, hd]
    omega
  · rw [hrest, hq]

theorem loop_served {x : Holder} (hk : kind.Grants) (hr : Reach kind free s h)
    (hp : s.pc t = .releaseLoop x op s.word) (hcan : op.CanRelease s.word) (hn : ¬Locked s.word) :
    ∃ s' h', Solo kind t s h s' h' ∧ s'.pc t = x.after.pc ∧ s'.slot = s.slot ∧
      .release t x op :: h <:+ h' ∧
      Served kind s h (data s.word - op.acquiredCount) (view h).queue.reverse s' h' := by
  have hi := reach_inv hk.not_barrier hr
  have hs : step kind s (.run t) = some (releaseLoop s t x op s.word) := by
    simp [step, runStep, hp]
  rw [releaseLoop, if_neg (not_not.mpr hcan), if_neg (not_not.mpr rfl)] at hs
  have hg : grants (.release t x op :: h) = grants h := by simp [grants, View.served]
  by_cases hz : anchor s.word = 0
  · have hnil : (view h).queue = [] := hi.glob.chain.eq_nil_iff.mpr hz
    rw [if_pos (.inl hz)] at hs
    refine ⟨_, _, .step hs .done, goto_pc_self .., rfl, List.suffix_rfl, ?_⟩
    obtain ⟨-, hd, hlk⟩ := sub_fields (acquired_le_data hcan)
    rw [hnil]
    exact served_nobody hd hnil (mt hlk.mp hn) hg rfl rfl
  · rw [if_neg (not_or.mpr ⟨hz, hn⟩)] at hs
    have hr₁ : Reach kind free _ (.release t x op :: h) := .step (a := Action.run t) hr trivial hs
    have hd : data (lock s.word - op.acquiredCount) = data s.word - op.acquiredCount := by
      have hle : op.acquiredCount ≤ data (lock s.word) := by
        rw [lock_fields.2.1]
        exact acquired_le_data hcan
      rw [(sub_fields hle).2.1, lock_fields.2.1]
    obtain ⟨s', h', hx, hpc, hsl, hserved⟩ := pass_served hk hr₁ (goto_pc_self ..)
    rw [goto_word, hd] at hserved
    exact ⟨s', h', .step hs hx, hpc, hsl, hx.suffix, hserved.before rfl rfl hg⟩

theorem Quiescent.unlocked (hq : Quiescent s) (hi : Inv kind s (view h))
    (hw : kind = .lock → s.word ≠ POISONED_STATE) : ¬Locked s.word := by
  intro hl
  rcases hi.locked hl with ⟨u, hu⟩ | ⟨hlock, hx⟩
  · rcases hq u with hp | ⟨q, retry, hp⟩ <;> rw [hp] at hu <;> exact hu
  · exact hw hlock hx

theorem Quiescent.of_quiet (hq : Quiet t s) (ht : s.pc t = .idle) : Quiescent s := by
  intro u
  by_cases hu : u = t
  · exact .inl (hu ▸ ht)
  · exact hq u hu

variable (kind) in
theorem fast_step (hp : s.pc t = .releaseFast op) (hcan : op.CanRelease s.word) :
    (∃ w ≤ s.word, s.word < 64 ∧ step kind s (.run t) =
      some (.release t (.caller t) op, { s with word := w }.goto t .idle)) ∨
    step kind s (.run t) = some (.tau, s.goto t (.releaseLoop (.caller t) op s.word)) := by
  have hm : DATA_MASK = 63 := by decide
  have hm' : MAX_SHARED_OWNERS = 62 := by decide
  have hd := data_lt s.word
  simp only [step, runStep, hp, Option.some.injEq]
  cases op with
  | exclusive =>
    simp only [releaseFast]
    split
    · exact .inl ⟨0, Nat.zero_le _, by omega, rfl⟩
    · exact .inr rfl
  | shared =>
    simp only [releaseFast]
    split
    · exact .inl ⟨s.word - 1, Nat.sub_le .., by omega, rfl⟩
    · exact .inr rfl
  | semaphore n =>
    have hle : n ≤ data s.word := hcan
    simp only [releaseFast]
    split
    · exact .inl ⟨0, Nat.zero_le _, by omega, rfl⟩
    · exact .inr rfl
  | barrier | wait => exact .inr rfl

theorem fast_served (hk : kind.Grants) (hr : Reach kind free s h) (hp : s.pc t = .releaseFast op)
    (hcan : op.CanRelease s.word) (hn : ¬Locked s.word) :
    ∃ s' h', Solo kind t s h s' h' ∧ s'.pc t = .idle ∧ s'.slot = s.slot ∧
      (∃ g, .release t (.caller t) op :: g <:+ h' ∧ decrements t g = decrements t h) ∧
      Served kind s h (data s.word - op.acquiredCount) (view h).queue.reverse s' h' := by
  obtain ⟨w, hle, hlt, hs⟩ | hs := fast_step kind hp hcan
  · have hi := reach_inv hk.not_barrier hr
    have hr₁ : Reach kind free _ (.release t (.caller t) op :: h) :=
      .step (a := Action.run t) hr trivial hs
    have hef := (took hi (reach_inv hk.not_barrier hr₁) hs).effect
    have hnil : (view h).queue = [] :=
      hi.glob.chain.eq_nil_iff.mpr (hi.anchor_zero (by omega))
    refine ⟨_, _, .step hs .done, goto_pc_self .., rfl, ⟨h, List.suffix_rfl, rfl⟩, ?_⟩
    rw [hnil]
    have hn' : ¬Locked w := by
      rw [locked_iff]
      omega
    exact served_nobody hef.2.1 hnil hn' (by simp [grants, View.served]) rfl rfl
  · have hr₁ : Reach kind free _ (.tau :: h) := .step (a := Action.run t) hr trivial hs
    obtain ⟨s', h', hx, hpc, hsl, hsub, hserved⟩ := loop_served hk hr₁ (goto_pc_self ..) hcan hn
    refine ⟨s', h', .step hs hx, hpc, hsl, ⟨_, hsub, by simp [decrements]⟩, ?_⟩
    exact hserved.before rfl rfl (by simp [grants, View.served])

theorem solo_during {k : List Event} {s₀ : Cfg} (hx : Solo kind t s (k ++ h) s' h')
    (hd : During kind t s₀ s k) : ∃ g, h' = g ++ h ∧ During kind t s₀ s' g := by
  generalize hb : k ++ h = b at hx
  induction hx generalizing k with
  | done => exact ⟨k, hb.symm, hd⟩
  | @step s b e s₁ _ _ hs _ ih =>
    subst hb
    replace hs : step kind s (.run t) = some (e, s₁) := hs
    have hbusy : s.pc t ≠ .idle := by
      intro hidle
      simp [step, runStep, hidle] at hs
    exact ih (.step (a := Action.run t) hd hbusy hs) rfl

theorem release_call {opc : Opcode} {op : Op} (hk : kind.Grants) (hr : Reach kind free s h)
    (hq : Quiescent s) (hop : op.unit = some opc)
    (hs : step kind s (.call t op) = some (.call t op, s₁)) (hcan : opc.CanRelease s.word)
    (hn : ¬Locked s.word) :
    ∃ s' h', Succeeds kind t op s h s' h' ∧ Reach kind free s' h' ∧ Quiescent s' ∧
      s'.slot = s.slot ∧ (∀ u, u ≠ t → s'.pc u = s.pc u) ∧
      Served kind s h (data s.word - opc.acquiredCount) (view h).queue.reverse s' h' := by
  have hr₁ : Reach kind free s₁ (.call t op :: h) := .step (a := Action.call t op) hr trivial hs
  obtain ⟨hx, -⟩ | ⟨-, rfl⟩ := release_begins hop hs
  · cases hx
  set s₁ := s.goto t (.releaseFast opc) with hs₁
  have hp : s₁.pc t = .releaseFast opc := goto_pc_self ..
  obtain ⟨s', h', hx, hidle, hsl, ⟨g, hsub, hg⟩, hserved⟩ := fast_served hk hr₁ hp hcan hn
  -- the release is among the events of the call, so it is the one decrement
  obtain ⟨k, rfl, hd⟩ := solo_during (k := []) hx .init
  have hst := during_releasing hk hr₁ hp hd
  have hcall : decrements t (.call t op :: h) = decrements t h := by simp [decrements]
  have hone : decrements t k = 1 ∧ refusals t k = 0 := by
    have hle : decrements t (.release t (.caller t) opc :: g) ≤
        decrements t (k ++ .call t op :: h) := hsub.sublist.countP_le
    have hself : decrements t [.release t (.caller t) opc] = 1 := by simp [decrements]
    rw [decrements_cons, hg, decrements_append, hself, hcall] at hle
    rw [hidle] at hst
    generalize decrements t k = n at hst hle
    generalize refusals t k = m at hst
    cases hst with
    | released => exact ⟨rfl, rfl⟩
    | refused => omega
    | processing hp => exact hp.elim
  have hothers : ∀ u, u ≠ t → s'.pc u = s.pc u := by
    intro u hu
    rw [solo_pc hk hr₁ hu hx, hs₁, goto_pc_of_ne _ _ _ hu]
  refine ⟨s', _, ⟨⟨s₁, hs, hx⟩, hidle, ?_, ?_⟩, hr₁.alone hx, ?_, hsl, hothers, ?_⟩
  · rw [decrements_append, hone.1, hcall, Nat.add_comm]
  · rw [refusals_append, hone.2, Nat.zero_add]
    simp [refusals]
  · intro u
    by_cases hu : u = t
    · exact .inl (hu ▸ hidle)
    · rw [hothers u hu]
      exact hq u
  · exact hserved.before rfl rfl (by simp [grants, View.served])

theorem canRelease_congr {w w' : ℕ} (hd : data w = data w') :
    op.CanRelease w ↔ op.CanRelease w' := by
  cases op <;> simp only [Opcode.CanRelease, hd]

def Unmoved (h h' : List Event) : Prop := view h' = view h ∧ grants h' = grants h

theorem Unmoved.refl : Unmoved h h := ⟨rfl, rfl⟩

theorem Unmoved.trans {h₂ : List Event} (hx : Unmoved h h₁) (hy : Unmoved h₁ h₂) : Unmoved h h₂ :=
  ⟨hy.1.trans hx.1, hy.2.trans hx.2⟩

theorem unmoved_tau : Unmoved h (.tau :: h) := by
  simp [Unmoved, grants, View.served, View.observe]

theorem unmoved_lock : Unmoved h (.lockQueue t :: h) := by
  simp [Unmoved, grants, View.served, View.observe]

variable (kind) in
theorem search_solo {found cur : ℕ} (hpc : s.pc t = .remove a found state cur false)
    (hl : Chain 0 s.next cur l) : ∃ prev cur' h',
      Solo kind t s h ({ s with prev := prev }.goto t (.remove a found state cur' false)) h' ∧
      Unmoved h h' ∧ (a ∈ l ∧ cur' = a ∨ a ∉ l ∧ cur' = 0) := by
  have hself : ∀ s : Cfg, s.pc t = .remove a found state cur false →
      { s with prev := s.prev }.goto t (.remove a found state cur false) = s := by
    intro s hp
    rw [← hp]
    simp [Cfg.goto]
  induction l generalizing s h cur with
  | nil =>
    obtain rfl : cur = 0 := hl
    refine ⟨s.prev, 0, h, ?_, .refl, .inr ⟨List.not_mem_nil, rfl⟩⟩
    rw [hself s hpc]
    exact .done
  | cons c l ih =>
    obtain ⟨rfl, hc, hl⟩ := hl
    by_cases hca : cur = a
    · subst hca
      refine ⟨s.prev, cur, h, ?_, .refl, .inl ⟨List.mem_cons_self .., rfl⟩⟩
      rw [hself s hpc]
      exact .done
    obtain ⟨prev, hs⟩ : ∃ prev, step kind s (.run t) =
        some (.tau, { s with prev := prev }.goto t (.remove a found state (s.next cur) false)) := by
      by_cases hn : s.next cur = 0
      · exact ⟨s.prev, by simp [step, runStep, hpc, removeStep, hc, hca, hn]⟩
      · exact ⟨_, by simp [step, runStep, hpc, removeStep, hc, hca, hn]; rfl⟩
    obtain ⟨prev', cur', h', hx, hun, hend⟩ := ih (h := .tau :: h)
      (s := { s with prev := prev }.goto t (.remove a found state (s.next cur) false))
      (goto_pc_self ..) hl (fun s hp => by rw [← hp]; simp [Cfg.goto])
    refine ⟨prev', cur', h', .step hs ?_, unmoved_tau.trans hun, ?_⟩
    · simpa [Cfg.goto] using hx
    · rcases hend with ⟨hm, he⟩ | ⟨hm, he⟩
      · exact .inl ⟨List.mem_cons_of_mem _ hm, he⟩
      · refine .inr ⟨?_, he⟩
        simp [hm, Ne.symm hca]

variable (kind) in
theorem unlink_step {found : ℕ} (hpc : s.pc t = .remove a found s.word a false) (ha : a ≠ 0) :
    ∃ s', step kind s (.run t) = some (.unlink t a, s') ∧ s'.pc t = removed a found s'.word true ∧
      s'.opcode = s.opcode ∧ s'.state = s.state := by
  have hs : step kind s (.run t) = some (removeStep s t a found s.word a false) := by
    simp [step, runStep, hpc]
  simp only [removeStep, if_neg ha, ne_eq, not_true_eq_false, if_false] at hs
  split at hs
  · refine ⟨_, hs, ?_, ?_, ?_⟩
    · rw [goto_pc_self, goto_word]
      split <;> rfl
    · rw [goto_opcode]
      split <;> rfl
    · rw [goto_state]
      split <;> rfl
  · refine ⟨_, hs, ?_, ?_, ?_⟩
    · rw [goto_pc_self, goto_word]
    · rw [goto_opcode]
      split <;> rfl
    · rw [goto_state]
      split <;> rfl

theorem finish_served (hx : Served kind s h held line s₁ h₁) (hsolo : Solo kind t s h s₁ h₁)
    (hp : s₁.pc t = .finish a) : ∃ s' h', Solo kind t s h s' h' ∧ s'.pc t = .idle ∧
      Served kind s h held line s' h' := by
  have hs : step kind s₁ (.run t) = some (finishStep s₁ t a) := by simp [step, runStep, hp]
  refine ⟨_, _, hsolo.trans (.step hs .done), goto_pc_self .., hx.behind rfl rfl ?_ rfl rfl⟩
  simp [grants, View.served]

theorem drop_search (hk : kind.Grants) (hr : Reach kind free s h) (hp : s.pc t = .dropLoad a)
    (hn : ¬Locked s.word) (hz : anchor s.word ≠ 0) : ∃ prev cur h',
      Solo kind t s h ({ s with word := lock s.word, prev := prev }.goto t
          (.remove a s.word (lock s.word) cur false)) h' ∧
      Unmoved h h' ∧ (a ∈ (view h).queue ∧ cur = a ∨ a ∉ (view h).queue ∧ cur = 0) := by
  have hi := reach_inv hk.not_barrier hr
  have hs₁ : step kind s (.run t) = some (.tau, s.goto t (.dropLoop a s.word)) := by
    simp [step, runStep, hp]
  have hs₂ : step kind (s.goto t (.dropLoop a s.word)) (.run t) =
      some (.lockQueue t, { s with word := lock s.word }.goto t
        (.remove a s.word (lock s.word) (anchor s.word) false)) := by
    simp [step, runStep, forceRemove, hn, hz, Cfg.goto]
  obtain ⟨prev, cur, h', hx, hun, hend⟩ := search_solo kind (h := .lockQueue t :: .tau :: h)
    (s := { s with word := lock s.word }.goto t
      (.remove a s.word (lock s.word) (anchor s.word) false)) (goto_pc_self ..) hi.glob.chain
  refine ⟨prev, cur, h', .step hs₁ (.step hs₂ ?_), ?_, hend⟩
  · simpa [Cfg.goto] using hx
  · exact (unmoved_tau.trans unmoved_lock).trans hun

theorem queued_served (hk : kind.Grants) (hr : Reach kind free s h) (hp : s.pc t = .dropLoad a)
    (hn : ¬Locked s.word) (ha : a ∈ (view h).queue) :
    ∃ s' h', Solo kind t s h s' h' ∧ s'.pc t = .idle ∧
      Served kind s h (data s.word) ((view h).queue.erase a).reverse s' h' := by
  have hi := reach_inv hk.not_barrier hr
  have hz : anchor s.word ≠ 0 := by
    intro hz
    rw [hi.glob.chain.eq_nil_iff.mpr hz] at ha
    cases ha
  obtain ⟨prev, cur, h₂, hx, ⟨hview, hgr⟩, ⟨-, rfl⟩ | ⟨hno, -⟩⟩ := drop_search hk hr hp hn hz
  swap
  · exact absurd ha hno
  set s₂ := { s with word := lock s.word, prev := prev }.goto t
    (.remove cur s.word (lock s.word) cur false) with hs₂
  have hr₂ : Reach kind free s₂ h₂ := hr.alone hx
  obtain ⟨s₃, hs, hpc, ho, hst⟩ := unlink_step kind (s := s₂) (t := t) (a := cur)
    (goto_pc_self ..) (hi.glob.chain.ne_null cur ha)
  have hr₃ : Reach kind free s₃ (.unlink t cur :: h₂) := .step (a := Action.run t) hr₂ trivial hs
  have hef := (took (reach_inv hk.not_barrier hr₂) (reach_inv hk.not_barrier hr₃) hs).effect
  have hd : data s₃.word = data s.word := hef.2.1.trans lock_fields.2.1
  have hqueue : (view (.unlink t cur :: h₂)).queue = (view h).queue.erase cur := by
    rw [view_cons, hview]
    rfl
  have hgr₃ : grants (.unlink t cur :: h₂) = grants h := by
    rw [← hgr]
    simp [grants, View.served]
  have hsolo : Solo kind t s h s₃ (.unlink t cur :: h₂) := hx.trans (.step hs .done)
  by_cases hl : Locked s₃.word
  · have hwalk : s₃.pc t = .walk s₃.word (anchor s₃.word) (.finish cur) := by
      rw [hpc]
      simp [removed, hl, passStart]
    obtain ⟨s₄, h₄, hx₄, hpc₄, -, hserved⟩ := pass_served hk hr₃ hwalk
    rw [hd, hqueue] at hserved
    exact finish_served (hserved.before ho hst hgr₃) (hsolo.trans hx₄) hpc₄
  · have honly : (view h).queue = [cur] := by
      rw [← hview]
      exact hef.2.2 hl
    have hnil : (view h).queue.erase cur = [] := by rw [honly]; simp
    rw [hnil] at hqueue ⊢
    refine finish_served (a := cur) (served_nobody hd hqueue hl hgr₃ hst ho) hsolo ?_
    rw [hpc]
    simp [removed, hl, After.pc]

/-- The result is there, and what the entry acquired is released from a snapshot that still
has the right data field. -/
theorem complete_served (hk : kind.Grants) (hr : Reach kind free s h)
    (hp : s.pc t = .complete a state) (hst : (view h).stat a = .final)
    (hd : data state = data s.word) (hcan : (s.opcode a).CanRelease s.word) (hn : ¬Locked s.word) :
    ∃ s' h', Solo kind t s h s' h' ∧ s'.pc t = .idle ∧
      Served kind s h (data s.word - (s.opcode a).acquiredCount) (view h).queue.reverse s' h' := by
  have hi := reach_inv hk.not_barrier hr
  have hf := (hi.glob.final a hst).2
  have hs₁ : step kind s (.run t) =
      some (.tau, s.goto t (.releaseLoop (.entry a) (s.opcode a) state)) := by
    simp [step, runStep, hp, completeStep, hf]
  obtain ⟨h₁, hx, hview, hgr⟩ : ∃ h₁,
      Solo kind t s h (s.goto t (.releaseLoop (.entry a) (s.opcode a) s.word)) h₁ ∧
      Unmoved h h₁ := by
    by_cases hw : s.word = state
    · exact ⟨_, .step hs₁ (by rw [hw]; exact .done), unmoved_tau⟩
    · have hs₂ : step kind (s.goto t (.releaseLoop (.entry a) (s.opcode a) state)) (.run t) =
          some (.tau, s.goto t (.releaseLoop (.entry a) (s.opcode a) s.word)) := by
        simp [step, runStep, releaseLoop, (canRelease_congr hd).mpr hcan, hw, Cfg.goto]
      exact ⟨_, .step hs₁ (.step hs₂ .done), unmoved_tau.trans unmoved_tau⟩
  obtain ⟨s', h', hx', hpc, -, -, hserved⟩ := loop_served hk (hr.alone hx) (goto_pc_self ..) hcan hn
  rw [hview] at hserved
  exact finish_served (hserved.before rfl rfl hgr) (hx.trans hx') hpc

theorem HeadBlocked.serve {v : View} (hb : HeadBlocked kind s v) :
    (kind.policy s.opcode).serve (data s.word) v.queue.reverse = [] := by
  cases hq : v.queue.reverse with
  | nil => rfl
  | cons b l =>
    apply serve_cons_of_not
    apply hb b
    rw [← List.head?_reverse, hq]
    rfl

theorem final_served (hk : kind.Grants) (hr : Reach kind free s h) (hq : Quiet t s)
    (hp : s.pc t = .dropLoad a) (hn : ¬Locked s.word) (hst : (view h).stat a = .final)
    (hcan : (s.opcode a).CanRelease s.word) (hb : HeadBlocked kind s (view h)) :
    ∃ s' h', Solo kind t s h s' h' ∧ s'.pc t = .idle ∧
      Served kind s h (data s.word - (s.opcode a).acquiredCount) (view h).queue.reverse s' h' := by
  have hi := reach_inv hk.not_barrier hr
  by_cases hz : anchor s.word = 0
  · have hs₁ : step kind s (.run t) = some (.tau, s.goto t (.dropLoop a s.word)) := by
      simp [step, runStep, hp]
    have hs₂ : step kind (s.goto t (.dropLoop a s.word)) (.run t) =
        some (.tau, s.goto t (.complete a s.word)) := by
      simp [step, runStep, forceRemove, hn, hz, Cfg.goto]
    have hx : Solo kind t s h _ (.tau :: .tau :: h) := .step hs₁ (.step hs₂ .done)
    obtain ⟨s', h', hx', hidle, hserved⟩ :=
      complete_served hk (hr.alone hx) (goto_pc_self ..) hst rfl hcan hn
    exact ⟨s', h', hx.trans hx', hidle, hserved.before rfl rfl (by simp [grants, View.served])⟩
  have hno : a ∉ (view h).queue := by
    rw [hi.glob.queued, hst]
    simp
  obtain ⟨prev, cur, h₂, hx, ⟨hview, hgr⟩, ⟨hin, -⟩ | ⟨-, rfl⟩⟩ := drop_search hk hr hp hn hz
  · exact absurd hin hno
  set s₂ := { s with word := lock s.word, prev := prev }.goto t
    (.remove a s.word (lock s.word) 0 false) with hs₂
  set s₃ := s₂.goto t (.walk (lock s.word) (anchor (lock s.word)) (.complete a s.word)) with hs₃
  have hs : step kind s₂ (.run t) = some (.tau, s₃) := by
    simp [step, runStep, hs₂, hs₃, removeStep, removed, passStart, lock_fields.2.2]
  have hr₃ : Reach kind free s₃ (.tau :: h₂) := .step (a := Action.run t) (hr.alone hx) trivial hs
  obtain ⟨s₄, h₄, hx₄, hpc₄, -, hpass⟩ := pass_served (s := s₃) hk hr₃ (goto_pc_self ..)
  have hqueue : (view (.tau :: h₂)).queue = (view h).queue := congrArg View.queue hview
  have hdata : data s₃.word = data s.word := lock_fields.2.1
  rw [hdata, hqueue] at hpass
  replace hpass : Served kind s h (data s.word) (view h).queue.reverse s₄ h₄ := by
    refine hpass.before rfl rfl ?_
    rw [← hgr]
    simp [grants, View.served]
  have hnone := hb.serve
  have hd₄ := hpass.units
  have hq₄ := hpass.left
  rw [hnone, load_nil, Nat.add_zero] at hd₄
  rw [Policy.rest, hnone, List.length_nil, List.drop_zero] at hq₄
  have hx₄ : Solo kind t s h s₄ h₄ := hx.trans (.step hs hx₄)
  have hr₄ := hr.alone hx₄
  have hst₄ := (hq.solo hk hr hx₄).final (reach_inv hk.not_barrier hr₄) hpc₄
  have hcan₄ : (s₄.opcode a).CanRelease s₄.word := by
    rw [hpass.opcode]
    exact (canRelease_congr hd₄).mpr hcan
  obtain ⟨s', h', hx', hidle, hlast⟩ :=
    complete_served hk hr₄ hpc₄ hst₄ hd₄.symm hcan₄ hpass.unlocked
  refine ⟨s', h', hx₄.trans hx', hidle, hpass.trans (Nat.sub_le ..) ?_⟩
  rw [hnone, load_nil, Nat.add_zero]
  rwa [hd₄, hpass.opcode] at hlast

theorem Took.droppable {v : View} (ht : Took kind s v u act (.call t (.drop a)) s₁)
    (hk : kind.Grants) : Droppable s t a act := by
  have hmv := ht.move
  generalize hp : s.pc u = p at hmv
  generalize s₁.pc u = p' at hmv
  cases hmv with
  | drop hsl => exact .inl ⟨rfl, hp, hsl⟩
  | @cancel q retry hv => exact .inr ⟨rfl, q, retry, hp, hv, rfl⟩
  | enter hin =>
    cases hin with
    | gate hg => exact absurd hg hk.not_gate
  | gate hg => exact absurd hg hk.not_gate

theorem Droppable.begins {v : View} (hd : Droppable s t a act) (hk : kind.Grants)
    (hi : Inv kind s v) (hst : v.stat a ≠ .idle) :
    ∃ s₁, step kind s act = some (.call t (.drop a), s₁) ∧ s₁.pc t = .dropLoad a ∧
      s₁.word = s.word ∧ s₁.opcode = s.opcode ∧ s₁.state = s.state ∧
      ∀ u, u ≠ t → s₁.pc u = s.pc u := by
  rcases hd with ⟨rfl, hidle, hsl⟩ | ⟨rfl, q, retry, hp, hv, rfl⟩
  · have hpoll := ((hi.glob.pagers a hsl).2.2.1).mpr hst
    refine ⟨{ s with slot := Function.update s.slot a (.used t) }.goto t (kind.dropPc a),
      by simp [step, callStep, dropCall, hidle, hsl, hpoll], ?_, rfl, rfl, rfl, ?_⟩
    · rw [goto_pc_self, hk.dropPc]
    · exact fun u hu => goto_pc_of_ne _ _ _ hu
  · have hl := hi.loc t
    rw [hp] at hl
    have hpoll := hl.flagged q.entry (if_neg (by rw [hv]; simp)) rfl
    refine ⟨s.goto t (kind.dropPc q.entry), by simp [step, cancelStep, hp, hv, hpoll], ?_, rfl, rfl,
      rfl, ?_⟩
    · rw [goto_pc_self, hk.dropPc]
    · exact fun u hu => goto_pc_of_ne _ _ _ hu

theorem drop_call (hk : kind.Grants)
    (hr : Reach kind free s h) (hq : Quiescent s) (hd : Droppable s t a act)
    (hst : (view h).stat a ≠ .idle)
    (hrun : ∀ s₁, s₁.pc t = .dropLoad a → s₁.word = s.word → s₁.opcode = s.opcode →
      Reach kind free s₁ (.call t (.drop a) :: h) → Quiet t s₁ →
      ∃ s' h', Solo kind t s₁ (.call t (.drop a) :: h) s' h' ∧ s'.pc t = .idle ∧
        Served kind s₁ (.call t (.drop a) :: h) held line s' h') :
    ∃ s' h', Dropped kind t a act s h s' h' ∧ Reach kind free s' h' ∧ Quiescent s' ∧
      (∀ u, s.pc u = .idle → s'.pc u = .idle) ∧ Served kind s h held line s' h' := by
  obtain ⟨s₁, hs, hp, hw, ho, hstate, hothers⟩ :=
    hd.begins hk (reach_inv hk.not_barrier hr) hst
  have hr₁ : Reach kind free s₁ (.call t (.drop a) :: h) := .step hr trivial hs
  have hq₁ : Quiet t s₁ := by
    intro u hu
    rw [hothers u hu]
    exact hq u
  obtain ⟨s', h', hx, hidle, hserved⟩ := hrun s₁ hp hw ho hr₁ hq₁
  have hpc : ∀ u, u ≠ t → s'.pc u = s.pc u := by
    intro u hu
    rw [solo_pc hk hr₁ hu hx, hothers u hu]
  refine ⟨s', h', ⟨⟨s₁, hs, hx⟩, hidle⟩, hr₁.alone hx, ?_, ?_, hserved.before ho hstate ?_⟩
  · exact .of_quiet (hq₁.solo hk hr₁ hx) hidle
  · intro u hu
    by_cases hut : u = t
    · rw [hut]
      exact hidle
    · rw [hpc u hut]
      exact hu
  · simp [grants, View.served]

end
end Saa
