import Saa.Contract
import Saa.LifeCycle

/-! # Entries of the primitives and the machine of one entry

The runs of the primitives set a result in one step and finalize it in another, and leave
wakers and threads out; `Pager` has every access to one entry and lets resolvers do what they
are told. Here the two are put together: what a primitive does to an entry is a schedule of
the machine, and the machine is ready for it. -/
namespace Saa

open Lib.Trace

namespace Pager

variable {p : State} {g : List Event} {r : ℕ}

structure Vacant (p : State) : Prop where
  owner : p.owner = .idle
  pollable : p.pollable = false
  bits : p.bits = .clear

structure Undecided (p : State) : Prop where
  owner : p.owner = .deciding
  pollable : p.pollable = false
  bits : p.bits = .clear

structure Waiting (p : State) : Prop where
  owner : p.owner = .idle
  pollable : p.pollable = true
  bits : p.bits = .clear
  queued : p.queued = true

structure Given (owner : Owner) (r : ℕ) (p : State) : Prop where
  owner : p.owner = owner
  pollable : p.pollable = true
  bits : p.bits = ⟨r, true, false, false⟩
  resolver : p.resolver = .finalize none

structure Settled (r : ℕ) (p : State) : Prop where
  owner : p.owner = .idle
  pollable : p.pollable = true
  bits : p.bits = ⟨r, true, false, true⟩

theorem vacant_initial : Vacant initial := ⟨rfl, rfl, rfl⟩

theorem Vacant.register (hp : Vacant p) (sync : Bool) (g : List Event) :
    ∃ p' g', exec system p g [.register true sync] = some (p', g') ∧ Undecided p' := by
  obtain ⟨ho, hpoll, hb⟩ := hp
  cases p
  subst ho hpoll hb
  exact ⟨_, _, rfl, rfl, rfl, rfl⟩

theorem Undecided.push (hp : Undecided p) (g : List Event) :
    ∃ p' g', exec system p g [.push, .owner false] = some (p', g') ∧ Waiting p' := by
  obtain ⟨ho, hpoll, hb⟩ := hp
  cases p
  subst ho hpoll hb
  exact ⟨_, _, rfl, rfl, rfl, rfl, rfl⟩

theorem store_result (hres : p.resolver = .store r) (hb : p.bits = .clear) (g : List Event) :
    ∃ p' g', exec system p g [.resolver false, .resolver false, .resolver false] =
      some (p', g') ∧ Given p.owner r p' := by
  cases p
  subst hres hb
  exact ⟨_, _, rfl, rfl, rfl, by simp [Bits.clear], rfl⟩

theorem Undecided.settle (hp : Undecided p) (hr : r < ERROR_WRONG_MODE) (g : List Event) :
    ∃ p' g', exec system p g [.settle r, .resolver false, .resolver false, .resolver false] =
      some (p', g') ∧ Given .settling r p' := by
  have hs : system.step p (.settle r) =
      some (.resolve r, { p with owner := .settling, resolver := .store r }) :=
    if_pos ⟨hp.owner, hr⟩
  rw [exec, hs]
  exact store_result (p := { p with owner := .settling, resolver := .store r }) rfl hp.bits _

theorem Waiting.resolve (hp : Waiting p) (hr : r < ERROR_WRONG_MODE) (g : List Event) :
    ∃ p' g', exec system p g [.resolve r, .resolver false, .resolver false, .resolver false] =
      some (p', g') ∧ Given .idle r p' := by
  have hs : system.step p (.resolve r) =
      some (.resolve r, { p with queued := false, resolver := .store r }) :=
    if_pos ⟨hp.queued, hr⟩
  rw [exec, hs, ← hp.owner]
  exact store_result (p := { p with queued := false, resolver := .store r }) rfl hp.bits _

theorem Given.finalize {settling : Bool}
    (hp : Given (if settling then .settling else .idle) r p) (g : List Event) :
    ∃ p' g', exec system p g (.resolver false :: if settling then [.owner false] else []) =
      some (p', g') ∧ Settled r p' := by
  obtain ⟨ho, hpoll, hb, hres⟩ := hp
  cases p
  subst ho hpoll hb hres
  cases settling <;> exact ⟨_, _, rfl, rfl, rfl, rfl⟩

theorem Settled.consume (hp : Settled r p) (g : List Event) :
    ∃ p', exec system p g [.tryPoll, .owner false, .owner false, .owner false] =
      some (p', .returned (.ok r) :: .consumed r :: .tau :: .begin :: g) ∧ Vacant p' := by
  obtain ⟨ho, hpoll, hb⟩ := hp
  cases p
  subst ho hpoll hb
  exact ⟨_, rfl, rfl, rfl, rfl⟩

theorem OwnerMove.keeps {o : Owner} {e : Event} {g : Record} (hm : OwnerMove p o e p') :
    ((g.next e).opened = true → g.opened = true) ∧ (g.next e).value = g.value ∧
      p'.queued = p.queued ∧ o ≠ .deciding := by
  cases hm with
  | clear => exact ⟨by simp [Record.next], rfl, rfl, by simp⟩
  | unpoll =>
    unfold toResult
    split <;> exact ⟨id, rfl, rfl, by simp⟩
  | found hp =>
    refine ⟨id, rfl, rfl, ?_⟩
    rintro rfl
    rcases hp with hp | hp <;> cases hp
  | turn hp =>
    refine ⟨id, rfl, rfl, ?_⟩
    rintro rfl
    exact hp
  | _ => exact ⟨id, rfl, rfl, by simp⟩

theorem reach_queued (hr : Reach p g) :
    (record g).opened = true → (record g).value = none →
      p.owner = .deciding ∨ p.queued = true := by
  refine hr.invariant (P := fun p g => (record g).opened = true →
    (record g).value = none → p.owner = .deciding ∨ p.queued = true) ?_ ?_
  · simp [record, fold]
  · intro p g act e p' hr ih _ hs
    rw [record_cons]
    replace hs : step p act = some (e, p') := hs
    cases step_move hs with
    | owner hm =>
      obtain ⟨hopen, hval, hq, hno⟩ := hm.keeps (g := record g)
      rw [hval, hq]
      intro ho hv
      exact .inr ((ih (hopen ho) hv).resolve_left hno)
    | resolver hm =>
      generalize p.resolver = r at hm
      cases hm with
      | wake => rw [signal_owner, signal_queued]; exact ih
      | _ => exact ih
    | late => rw [signal_owner, signal_queued]; exact ih
    | construct => exact fun _ _ => .inl rfl
    | push => exact fun _ _ => .inr rfl
    | settle | resolve =>
      intro _ hv
      cases hv
    | failed hi | begin hi | repoll hi | abandon hi =>
      exact fun ho hv => .inr ((ih ho hv).resolve_left (by rw [hi]; simp))
    | refused | asked => exact ih

/-- Whatever its owner does, a machine whose registration waits for a result takes any code. -/
theorem receptive (hr : Reach p g) (ho : (record g).opened = true)
    (hv : (record g).value = none) (hcode : r < ERROR_WRONG_MODE) :
    ∃ act p', step p act = some (.resolve r, p') := by
  rcases reach_queued hr ho hv with hd | hq
  · exact ⟨.settle r, _, if_pos ⟨hd, hcode⟩⟩
  · exact ⟨.resolve r, _, if_pos ⟨hq, hcode⟩⟩

end Pager

/-- Where the run of a primitive puts the entry at one address, and what the owner and the
resolvers of that entry did for it, oldest first. -/
structure Script where
  view : View
  /-- The memory belongs to a pager, which may be registered again. -/
  kept : Bool
  /-- The latest result was stored by the call that owns the entry. -/
  settling : Bool
  actions : List Pager.Action

/-- What an event of the run is to the entry. -/
def Script.part (m : Script) (a : Ptr) : Event → List Pager.Action
  | .call _ (.acquire q) => if q.held = some a then [.register true (q.via = .sync)] else []
  | .push _ b _ => if b = a then [.push, .owner false] else []
  | .setResult _ b r =>
    if b = a then
      [if m.view.stat a = .idle then .settle r else .resolve r,
        .resolver false, .resolver false, .resolver false]
    else []
  | .finalize _ b =>
    if b = a then .resolver false :: if m.settling then [.owner false] else [] else []
  | .consume _ b _ => if b = a then [.tryPoll, .owner false, .owner false, .owner false] else []
  | _ => []

/-- The memory is new: it was given back, or no pager was there. -/
def Script.renews (m : Script) (a : Ptr) : Event → Bool
  | .call _ (.acquire q) => q.held = some a ∧ m.kept = false
  | .dropped _ b => b = a
  | _ => false

/-- The machine before its part: a new one in new memory. -/
def Script.start (m : Script) (a : Ptr) (e : Event) (p : Pager.State) : Pager.State :=
  if m.renews a e then Pager.initial else p

def Script.observe (a : Ptr) (m : Script) (e : Event) : Script where
  view := m.view.observe e
  kept := match e with
    | .call _ (.acquire q) => if q.held = some a then q.via = .pager else m.kept
    | .dropped _ b => if b = a then false else m.kept
    | _ => m.kept
  settling := match e with
    | .setResult _ b _ => if b = a then m.view.stat a = .idle else m.settling
    | _ => m.settling
  actions := (if m.renews a e then [] else m.actions) ++ m.part a e

def script (a : Ptr) (h : List Event) : Script :=
  fold (Script.observe a) ⟨.initial, false, false, []⟩ h

theorem observe_actions (a : Ptr) (m : Script) (e : Event) : (m.observe a e).actions =
    (if m.renews a e then [] else m.actions) ++ m.part a e := rfl

@[simp] theorem script_cons (a : Ptr) (e : Event) (h : List Event) :
    script a (e :: h) = (script a h).observe a e := rfl

@[simp] theorem script_view (a : Ptr) (h : List Event) : (script a h).view = view h := by
  induction h with
  | nil => rfl
  | cons e h ih => simp [Script.observe, ih]

def Pc.preparing : Pc → Option Req
  | .start q | .attempt q _ _ | .push q _ | .settle q _ => some q
  | _ => none

/-- Where the life of an entry puts its machine. -/
def Stat.Stands (settling : Bool) (r : ℕ) (p : Pager.State) : Stat → Prop
  | .idle => Pager.Vacant p
  | .queued | .taken _ | .unlinked => Pager.Waiting p
  | .answered _ => Pager.Given (if settling then .settling else .idle) r p
  | .final => Pager.Settled r p

structure Coupled (s : Cfg) (m : Script) (a : Ptr) (p : Pager.State) : Prop where
  prepares : ∀ t q, (s.pc t).preparing = some q → q.held = some a →
    Pager.Undecided p ∧ (m.kept = true → q.via = .pager)
  stands : m.view.stat a ≠ .idle → (m.view.stat a).Stands m.settling (s.state a).result p
  rests : m.kept = true → m.view.stat a = .idle →
    (∀ t q, (s.pc t).preparing = some q → q.held ≠ some a) → Pager.Vacant p
  settles : ∀ t, m.view.stat a = .answered t → m.settling = true → ∃ q, s.pc t = .settled q

section
variable {kind : Kind} {s s' : Cfg} {v : View} {h : List Event} {t u : Tid} {a b : Ptr} {r n : ℕ}
  {act : Action} {e : Event} {q : Req}

theorem held_entry (hq : q.held = some a) : q.via ≠ .tryOnly ∧ q.entry = a := by
  unfold Req.held at hq
  split at hq
  · cases hq
  · next hv =>
    cases hq
    exact ⟨hv, rfl⟩

theorem preparing_entry {p : Pc} (hp : p.preparing = some q) :
    p.entry = q.held ∧ p.stage = .prep := by
  cases p <;> cases hp <;> exact ⟨rfl, rfl⟩

theorem Inv.preparing (hi : Inv kind s v) (hp : (s.pc t).preparing = some q)
    (hq : q.held = some a) : v.stat a = .idle ∧ s.slot a = .used t := by
  obtain ⟨he, hstage⟩ := preparing_entry hp
  have hl := hi.loc t
  have hent : (s.pc t).entry = some a := he.trans hq
  have hst := hl.stat a hent
  rw [hstage] at hst
  exact ⟨hst, (hl.slot a).mp hent⟩

theorem after_preparing (k : After) : k.pc.preparing = none := by cases k <;> rfl

theorem Took.preparing_new (ht : Took kind s v t act e s') (hb : ∀ n, kind ≠ .barrier n)
    (hp : (s'.pc t).preparing = some q) :
    (s.pc t).preparing = some q ∨ e = .call t (.acquire q) := by
  have hmv := ht.move
  generalize s.pc t = p at hmv
  generalize s'.pc t = p' at hmv hp
  have hno : ¬∃ n, kind = .barrier n := fun ⟨n, hn⟩ => hb n hn
  cases hmv with
  | acquire =>
    cases hp
    exact .inr rfl
  | take hx =>
    cases hp
    rcases hx with rfl | ⟨state, i, rfl⟩ <;> exact .inl rfl
  | enter hen =>
    cases hen with
    | gate _ hcmd => cases hcmd <;> cases hp
    | _ => cases hp
  | gate _ hg => cases hg <;> cases hp
  | unreleased | release | leave =>
    rw [after_preparing] at hp
    cases hp
  | drop | cancel => cases kind <;> cases hp
  | retry hn | arrived hn => exact absurd hn hno
  | own | refuse | last | countDown | push | settle => cases hp
  | _ => exact .inl hp

theorem refused_via {i state : ℕ} (hp : s.pc t = .attempt q state i)
    (hs : step kind s (.run t) = some (.refuse u r, s')) : q.via ≠ .pager := by
  simp only [step, runStep, hp, Option.some.injEq] at hs
  intro hv
  simp only [attemptStep, countDown, acquired, answered, blocked, hv] at hs
  repeat' split at hs
  all_goals simp_all

theorem Took.preparing_gone (ht : Took kind s v t act e s') (hb : ∀ n, kind ≠ .barrier n)
    (hs : step kind s act = some (e, s')) (hp : (s.pc t).preparing = some q) :
    (s'.pc t).preparing = some q ∨ q.via ≠ .pager ∨ (∃ op, e = .push t q.entry op) ∨
      ∃ r, e = .setResult t q.entry r := by
  have hmv := ht.move
  have hno : ¬∃ n, kind = .barrier n := fun ⟨n, hn⟩ => hb n hn
  generalize hpc : s.pc t = p at hmv hp
  generalize s'.pc t = p' at hmv
  cases hmv with
  | own hx hv =>
    rcases hx with rfl | ⟨state, i, rfl⟩ <;> cases hp <;> exact .inr (.inl hv)
  | take hx =>
    rcases hx with rfl | ⟨state, i, rfl⟩ <;> cases hp <;> exact .inl rfl
  | refuse =>
    cases hp
    exact .inr (.inl (refused_via hpc hs))
  | push =>
    cases hp
    exact .inr (.inr (.inl ⟨_, rfl⟩))
  | settle =>
    cases hp
    exact .inr (.inr (.inr ⟨_, rfl⟩))
  | gate _ hg => cases hg <;> cases hp
  | waitOnly hn | last hn | countDown hn => exact absurd hn hno
  | acquire | drop | enter | cancel | retry | unreleased | release | leave | arrived => cases hp
  | _ => exact .inl hp

/-- The events that end or begin a part of the life of the entry. -/
def Event.Concerns (a : Ptr) : Event → Prop
  | .call _ (.acquire q) => q.held = some a
  | .push _ b _ | .setResult _ b _ | .finalize _ b | .consume _ b _ | .dropped _ b => b = a
  | _ => False

theorem Took.stat_kept (ht : Took kind s v t act e s') (hb : ∀ n, kind ≠ .barrier n)
    (he : ¬e.Concerns a) : (v.observe e).stat a = v.stat a ∨ v.stat a = .queued ∧
      ((v.observe e).stat a = .unlinked ∨ ∃ u, (v.observe e).stat a = .taken u) := by
  have hno : ¬∃ n, kind = .barrier n := fun ⟨n, hn⟩ => hb n hn
  have hq := ht.inv.glob.queued a
  have hmv := ht.move
  generalize s.pc t = p at hmv
  generalize s'.pc t = p' at hmv
  cases e with
  | cut x b =>
    simp only [View.observe, View.detach]
    split
    · next hm =>
      have hm' := (List.dropWhile_sublist _).subset (List.mem_of_mem_tail hm)
      exact .inr ⟨hq.mp hm', .inr ⟨x, rfl⟩⟩
    · exact .inl rfl
  | tailReset x | poison x | wakeAll x | last x | writeBack x =>
    simp only [View.observe, View.detach]
    split
    · next hm => exact .inr ⟨hq.mp hm, .inr ⟨x, rfl⟩⟩
    · exact .inl rfl
  | unlink x b =>
    by_cases hab : a = b
    · subst hab
      have hst : v.stat a = .queued := by
        cases hmv with
        | gate _ hg => cases hg
        | unlink hst => exact hst
        | unlinkOnly hst => exact hq.mp (by simp [hst])
      exact .inr ⟨hst, .inl (Function.update_self ..)⟩
    · exact .inl (Function.update_of_ne hab _ _)
  | countDown =>
    cases hmv with
    | gate _ hg => cases hg
    | countDown hn => exact absurd hn hno
  | retry =>
    cases hmv with
    | gate _ hg => cases hg
    | retry hn => exact absurd hn hno
  | push x b | setResult x b | finalize x b | consume x b | dropped x b =>
    exact .inl (Function.update_of_ne (fun hab => he hab.symm) _ _)
  | _ => exact .inl rfl

variable {m : Script} {p : Pager.State}

theorem unconcerned (he : ¬e.Concerns a) : m.renews a e = false ∧ m.part a e = [] ∧
    m.observe a e = { m with view := m.view.observe e } := by
  cases e with
  | call x op =>
    cases op with
    | acquire q =>
      have hq : q.held ≠ some a := he
      simp [Script.observe, Script.part, Script.renews, hq]
    | _ => simp [Script.observe, Script.part, Script.renews]
  | push x b | setResult x b | finalize x b | consume x b | dropped x b =>
    have hab : b ≠ a := he
    simp [Script.observe, Script.part, Script.renews, hab]
  | _ => simp [Script.observe, Script.part, Script.renews]

theorem Coupled.of_registered {st : Stat} (hi : Inv kind s m.view) (hst : m.view.stat a = st)
    (hne : st ≠ .idle) (hp : st.Stands m.settling (s.state a).result p)
    (hset : ∀ t, st = .answered t → m.settling = true → ∃ q, s.pc t = .settled q) :
    Coupled s m a p where
  prepares _ _ hq ha := absurd (hst.symm.trans (hi.preparing hq ha).1) hne
  stands _ := hst ▸ hp
  rests _ hidle := absurd (hst.symm.trans hidle) hne
  settles t ht := hset t (hst.symm.trans ht)

theorem Took.settled (ht : Took kind s v t act e s') (hp : s.pc t = .settled q) :
    e = .finalize t q.entry := by
  have hmv := ht.move
  generalize s'.pc t = p' at hmv
  rw [hp] at hmv
  cases hmv with
  | settled | settledWait => rfl
  | gate _ hg => cases hg
  | own hx | take hx => rcases hx with hx | ⟨state, i, hx⟩ <;> cases hx

theorem Coupled.stay (hc : Coupled s m a p) (ht : Took kind s m.view t act e s')
    (hb : ∀ n, kind ≠ .barrier n) (hs : step kind s act = some (e, s')) (he : ¬e.Concerns a) :
    Coupled s' { m with view := m.view.observe e } a p := by
  have hres : ∀ x r, e ≠ .setResult x a r := by
    rintro x r rfl
    exact he rfl
  have hpush : ∀ x op, e ≠ .push x a op := by
    rintro x op rfl
    exact he rfl
  have hfin : e ≠ .finalize t a := by
    rintro rfl
    exact he rfl
  have hst := ht.stat_kept hb he
  refine ⟨fun u q hp hq => ?_, fun hi => ?_, fun hk hi hnone => ?_, fun u hans hset => ?_⟩
  · by_cases hu : u = t
    · subst hu
      rcases ht.preparing_new hb hp with hp | rfl
      · exact hc.prepares u q hp hq
      · exact absurd hq he
    · rw [ht.frame.pc u hu] at hp
      exact hc.prepares u q hp hq
  · have hwas : m.view.stat a ≠ .idle := by
      rcases hst with hst | ⟨hst, -⟩
      · exact hst ▸ hi
      · simp [hst]
    have hstands := hc.stands hwas
    rw [← ht.frame.result a hwas hi hres] at hstands
    rcases hst with hst | ⟨hst, hst' | ⟨u, hst'⟩⟩
    · exact hst ▸ hstands
    · rw [hst] at hstands
      exact hst' ▸ hstands
    · rw [hst] at hstands
      exact hst' ▸ hstands
  · have hidle : m.view.stat a = .idle := by
      rcases hst with hst | ⟨-, hst | ⟨u, hst⟩⟩
      · exact hst ▸ hi
      · exact absurd (hst.symm.trans hi) (by simp)
      · exact absurd (hst.symm.trans hi) (by simp)
    refine hc.rests hk hidle fun u q hp hq => ?_
    by_cases hu : u = t
    · subst hu
      have hent := (held_entry hq).2
      rcases ht.preparing_gone hb hs hp with hp' | hv | ⟨op, hx⟩ | ⟨r, hx⟩
      · exact hnone u q hp' hq
      · exact hv ((hc.prepares u q hp hq).2 hk)
      · exact hpush u op (hent ▸ hx)
      · exact hres u r (hent ▸ hx)
    · exact hnone u q (by rwa [ht.frame.pc u hu]) hq
  · have hwas : m.view.stat a = .answered u := by
      rcases hst with hst | ⟨-, hst | ⟨x, hst⟩⟩
      · exact hst ▸ hans
      · exact absurd (hst.symm.trans hans) (by simp)
      · exact absurd (hst.symm.trans hans) (by simp)
    obtain ⟨q, hp⟩ := hc.settles u hwas hset
    by_cases hu : u = t
    · subst hu
      have hent := ((ht.inv.loc u).answering a).mpr hwas
      rw [hp] at hent
      cases hent
      exact absurd (ht.settled hp) hfin
    · exact ⟨q, by rw [ht.frame.pc u hu, hp]⟩

theorem Took.acquiring {x : Tid} (ht : Took kind s v t act (.call x (.acquire q)) s') :
    s'.pc t = .start q ∧
      (q.via ≠ .tryOnly → v.stat q.entry = .idle ∧ ∀ u, s.slot q.entry ≠ .used u) := by
  have hmv := ht.move
  generalize s.pc t = p at hmv
  generalize s'.pc t = p' at hmv ⊢
  cases hmv with
  | acquire _ _ hfree => exact ⟨rfl, hfree⟩
  | enter hen =>
    cases hen with
    | gate _ hcmd => cases hcmd
  | gate _ hg => cases hg

theorem Took.consuming {x : Tid} (ht : Took kind s v t act (.consume x a r) s') :
    v.stat a = .final ∧ r = (s.state a).result ∧ (s'.pc t).preparing = none := by
  have hmv := ht.move
  generalize s.pc t = p at hmv
  generalize s'.pc t = p' at hmv ⊢
  cases hmv with
  | poll _ hst | consume hst => exact ⟨hst, rfl, rfl⟩
  | gate _ hg =>
    cases hg with
    | consumed hst | acknowledged hst => exact ⟨hst, rfl, rfl⟩

theorem Took.dropping {x : Tid} (ht : Took kind s v t act (.dropped x a) s') :
    s'.pc t = .idle ∧ ∀ u, u ≠ t → s.slot a ≠ .used u := by
  have hl := ht.inv.loc t
  have hmv := ht.move
  generalize s.pc t = p at hmv hl
  generalize s'.pc t = p' at hmv ⊢
  cases hmv with
  | dropIdle hsl => exact ⟨rfl, fun u _ => by simp [hsl]⟩
  | finish =>
    refine ⟨rfl, fun u hu hsl => ?_⟩
    rw [(hl.slot a).mp rfl] at hsl
    exact hu (Slot.used.inj hsl).symm
  | gate _ hg => cases hg

theorem Took.storing {x : Tid} (ht : Took kind s v t act (.setResult x a r) s') :
    (∃ q, s.pc t = .settle q r ∧ q.held = some a ∧ s'.pc t = .settled q) ∨
      v.stat a = .taken t := by
  have hl := ht.inv.loc t
  have hmv := ht.move
  generalize s.pc t = p at hmv hl ⊢
  generalize s'.pc t = p' at hmv ⊢
  cases hmv with
  | settle => exact .inl ⟨_, rfl, if_neg hl.fits, rfl⟩
  | set hm => exact .inr ((ht.inv.glob.taken t a).mp hm)
  | gate _ hg => cases hg

/-- The machine plays its part for an event, and the run and the machine agree again. -/
def Plays (a : Ptr) (m : Script) (p : Pager.State) (e : Event) (s' : Cfg) : Prop :=
  ∀ g, ∃ p' g', exec Pager.system (m.start a e p) g (m.part a e) = some (p', g') ∧
    Coupled s' (m.observe a e) a p'

section Concerned
variable {x : Tid}

theorem Coupled.acquire (hc : Coupled s m a p) (hq : q.held = some a)
    (ht : Took kind s m.view t act (.call x (.acquire q)) s') :
    Plays a m p (.call x (.acquire q)) s' := by
  intro g
  obtain ⟨hpc, hfree⟩ := ht.acquiring
  obtain ⟨hv, hent⟩ := held_entry hq
  rw [hent] at hfree
  obtain ⟨hidle, hslot⟩ := hfree hv
  have hnone : ∀ u q', (s.pc u).preparing = some q' → q'.held ≠ some a := fun u q' hp hq' =>
    hslot u (ht.inv.preparing hp hq').2
  have hvac : Pager.Vacant (m.start a (.call x (.acquire q)) p) := by
    unfold Script.start
    split
    · exact Pager.vacant_initial
    · next hr =>
      refine hc.rests ?_ hidle hnone
      simpa [Script.renews, hq] using hr
  obtain ⟨p', g', hrun, hund⟩ := hvac.register (decide (q.via = .sync)) g
  refine ⟨p', g', ?_, ?_⟩
  · rwa [Script.part, if_pos hq]
  refine ⟨fun u q' hp hq' => ⟨hund, fun hk => ?_⟩, fun hi => absurd hidle hi, fun _ _ hno => ?_,
    fun u hans => absurd (hidle.symm.trans hans) (by simp)⟩
  · by_cases hu : u = t
    · subst hu
      rw [hpc] at hp
      cases hp
      simpa [Script.observe, hq] using hk
    · rw [ht.frame.pc u hu] at hp
      exact absurd hq' (hnone u q' hp)
  · exact absurd hq (hno t q (by rw [hpc]; rfl))

theorem Coupled.push {op : Opcode} (hc : Coupled s m a p)
    (ht : Took kind s m.view t act (.push x a op) s') : Plays a m p (.push x a op) s' := by
  intro g
  obtain ⟨-, -, ⟨q, hp, hent⟩, -⟩ := ht.effect
  have hl := ht.inv.loc x
  rw [hp] at hl
  have hq : q.held = some a := hent ▸ if_neg hl.fits.1
  obtain ⟨p', g', hrun, hwait⟩ := (hc.prepares x q (by rw [hp]; rfl) hq).1.push g
  refine ⟨p', g', ?_, ?_⟩
  · rwa [Script.part, if_pos rfl]
  have hst : (m.view.observe (.push x a op)).stat a = .queued := Function.update_self ..
  exact .of_registered ht.inv' hst (by simp) hwait (by simp)

theorem Coupled.setResult (hc : Coupled s m a p) (hr : r < Pager.ERROR_WRONG_MODE)
    (ht : Took kind s m.view t act (.setResult x a r) s') :
    Plays a m p (.setResult x a r) s' := by
  intro g
  obtain ⟨rfl, hres, -⟩ := ht.frame.set x a r rfl
  have hst : (m.view.observe (.setResult x a r)).stat a = .answered x := Function.update_self ..
  have hend : ∀ p', Pager.Given (if m.view.stat a = .idle then .settling else .idle) r p' →
      (m.view.stat a = .idle → ∃ q, s'.pc x = .settled q) →
      Coupled s' (m.observe a (.setResult x a r)) a p' := by
    intro p' hp' hset
    refine .of_registered ht.inv' hst (by simp) ?_ ?_
    · rw [hres]
      simpa [Stat.Stands, Script.observe] using hp'
    · rintro u ⟨⟩ hidle
      exact hset (by simpa [Script.observe] using hidle)
  rw [Script.part, if_pos rfl]
  rcases ht.storing with ⟨q, hp, hq, hp'⟩ | hx
  · have hpre : (s.pc x).preparing = some q := by rw [hp]; rfl
    have hidle := (ht.inv.preparing hpre hq).1
    obtain ⟨p', g', hrun, hgiven⟩ := (hc.prepares x q hpre hq).1.settle hr g
    rw [if_pos hidle] at hend ⊢
    exact ⟨p', g', hrun, hend p' hgiven fun _ => ⟨q, hp'⟩⟩
  · have hidle : m.view.stat a ≠ .idle := by simp [hx]
    have hwait := hc.stands hidle
    rw [hx] at hwait
    obtain ⟨p', g', hrun, hgiven⟩ := Pager.Waiting.resolve hwait hr g
    rw [if_neg hidle] at hend ⊢
    exact ⟨p', g', hrun, hend p' hgiven fun hi => absurd hi hidle⟩

theorem Coupled.finalize (hc : Coupled s m a p)
    (ht : Took kind s m.view t act (.finalize x a) s') : Plays a m p (.finalize x a) s' := by
  intro g
  have hwas := ht.finalizes
  have hst : (m.view.observe (.finalize x a)).stat a = .final := Function.update_self ..
  have hgiven := hc.stands (by simp [hwas])
  rw [← ht.frame.result a (by simp [hwas]) (by simp [hst]) (by simp), hwas] at hgiven
  obtain ⟨p', g', hrun, hsettled⟩ := Pager.Given.finalize hgiven g
  refine ⟨p', g', ?_, ?_⟩
  · rwa [Script.part, if_pos rfl]
  exact .of_registered ht.inv' hst (by simp) hsettled (by simp)

theorem Coupled.consume (hc : Coupled s m a p)
    (ht : Took kind s m.view t act (.consume x a r) s') : Plays a m p (.consume x a r) s' := by
  intro g
  obtain ⟨hwas, -, hnone⟩ := ht.consuming
  have hst : (m.view.observe (.consume x a r)).stat a = .idle := Function.update_self ..
  have hsettled := hc.stands (by simp [hwas])
  rw [hwas] at hsettled
  obtain ⟨p', hrun, hvac⟩ := Pager.Settled.consume hsettled g
  rw [Script.part, if_pos rfl]
  refine ⟨p', _, hrun, fun u q hp hq => ?_, fun hi => absurd hst hi, fun _ _ _ => hvac,
    fun u hans => absurd (hst.symm.trans hans) (by simp)⟩
  by_cases hu : u = t
  · subst hu
    rw [hnone] at hp
    cases hp
  · rw [ht.frame.pc u hu] at hp
    exact absurd (ht.inv.preparing hp hq).1 (by simp [hwas])

theorem Coupled.dropped (ht : Took kind s m.view t act (.dropped x a) s') :
    Plays a m p (.dropped x a) s' := by
  intro g
  have hst : (m.view.observe (.dropped x a)).stat a = .idle := Function.update_self ..
  refine ⟨_, g, rfl, fun u q hp hq => ?_, fun hi => absurd hst hi, fun hk => ?_,
    fun u hans => absurd (hst.symm.trans hans) (by simp)⟩
  · obtain ⟨hpc, hslot⟩ := ht.dropping
    by_cases hu : u = t
    · subst hu
      rw [hpc] at hp
      cases hp
    · rw [ht.frame.pc u hu] at hp
      exact absurd (ht.inv.preparing hp hq).2 (hslot u hu)
  · simp [Script.observe] at hk

end Concerned

theorem step_coupled (hc : Coupled s m a p) (ht : Took kind s m.view t act e s')
    (hb : ∀ n, kind ≠ .barrier n) (hs : step kind s act = some (e, s'))
    (hcode : ∀ x r, e = .setResult x a r → r < Pager.ERROR_WRONG_MODE) : Plays a m p e s' := by
  by_cases he : e.Concerns a
  · cases e with
    | call x op =>
      cases op with
      | acquire q => exact hc.acquire he ht
      | _ => exact he.elim
    | push =>
      subst he
      exact hc.push ht
    | setResult =>
      subst he
      exact hc.setResult (hcode _ _ rfl) ht
    | finalize =>
      subst he
      exact hc.finalize ht
    | consume =>
      subst he
      exact hc.consume ht
    | dropped =>
      subst he
      exact Coupled.dropped ht
    | _ => exact he.elim
  · obtain ⟨hn, hpart, hobs⟩ := unconcerned (m := m) he
    intro g
    rw [hobs, Script.start, hn, hpart]
    exact ⟨p, g, rfl, hc.stay ht hb hs he⟩

theorem reach_coupled (hb : ∀ n, kind ≠ .barrier n) (hr : Reach kind free s h) (a : Ptr) :
    ∃ p g, exec Pager.system Pager.initial [] (script a h).actions = some (p, g) ∧
      Coupled s (script a h) a p := by
  refine hr.invariant (P := fun s h => ∃ p g,
    exec Pager.system Pager.initial [] (script a h).actions = some (p, g) ∧
      Coupled s (script a h) a p) ?_ ?_
  · refine ⟨_, _, rfl, fun t q hp => ?_, fun hi => absurd rfl hi, fun hk => ?_, fun t hans => ?_⟩
    · cases hp
    · cases hk
    · cases hans
  · rintro s h act e s' hr ⟨p, g, hrun, hc⟩ hok hs
    have ht := took (reach_inv hb hr) (reach_inv hb (.step hr hok hs)) hs
    have hcode : ∀ x r, e = .setResult x a r → r < Pager.ERROR_WRONG_MODE := by
      rintro x r rfl
      exact (ht.stores ((reach_coded hb hr).carried _)).lt
    rw [← script_view a h] at ht
    have hplays := step_coupled hc ht hb hs hcode
    rw [script_cons]
    by_cases hn : (script a h).renews a e
    · obtain ⟨p', g', hpart, hc'⟩ := hplays []
      rw [Script.start, if_pos hn] at hpart
      exact ⟨p', g', by rwa [observe_actions, if_pos hn], hc'⟩
    · obtain ⟨p', g', hpart, hc'⟩ := hplays g
      rw [Script.start, if_neg hn] at hpart
      exact ⟨p', g', by rwa [observe_actions, if_neg hn, exec_append hrun], hc'⟩

def Pc.engages : Pc → Option Req
  | .start q | .attempt q _ _ | .push q _ | .pushed q _ | .settle q _ | .settled q
  | .await q _ => some q
  | _ => none

theorem engages_entry {p : Pc} (hp : p.engages = some q) : p.entry = q.held := by
  cases p <;> cases hp <;> rfl

theorem leave_slot (x : Cfg) (hx : (x.leave t q).slot a = .pager) :
    x.slot a = .pager ∨ q.held = some a ∧ q.via = .pager := by
  unfold Cfg.leave at hx
  cases hv : q.via with
  | tryOnly =>
    rw [hv] at hx
    exact .inl hx
  | pager =>
    rw [hv] at hx
    by_cases hab : a = q.entry
    · exact .inr ⟨by simp [Req.held, hv, hab], rfl⟩
    · exact .inl (by simpa [hab] using hx)
  | sync | async =>
    rw [hv] at hx
    by_cases hab : a = q.entry
    · simp [hab] at hx
    · exact .inl (by simpa [hab] using hx)

theorem run_pager (hs : step kind s (.run t) = some (e, s')) (ha : s'.slot a = .pager) :
    s.slot a = .pager ∨ ∃ q, (s.pc t).engages = some q ∧ q.held = some a ∧ q.via = .pager := by
  have hleave : ∀ {x : Cfg} {q : Req}, (x.leave t q).slot a = .pager → x.slot = s.slot →
      (s.pc t).engages = some q →
      s.slot a = .pager ∨ ∃ q, (s.pc t).engages = some q ∧ q.held = some a ∧ q.via = .pager := by
    intro x q hsl hx hq
    rcases leave_slot x hsl with hsl | hsl
    · exact .inl (hx ▸ hsl)
    · exact .inr ⟨q, hq, hsl⟩
  simp only [step] at hs
  unfold runStep at hs
  cases hpc : s.pc t <;> rw [hpc] at hleave <;>
    simp only [hpc, Option.some.injEq, reduceCtorEq] at hs <;>
    (try
      obtain ⟨-, h₂⟩ := Prod.ext_iff.mp hs
      change _ = s' at h₂
      subst h₂)
  case start q =>
    unfold startStep acquired at ha
    repeat' split at ha
    · exact .inl ha
    · exact hleave ha rfl rfl
    · exact .inl ha
    · exact hleave ha rfl rfl
    · exact .inl ha
  case attempt q state spin =>
    unfold attemptStep at ha
    split at ha
    · unfold countDown at ha
      repeat' split at ha
      all_goals exact .inl ha
    split at ha
    · split at ha
      · unfold acquired at ha
        split at ha
        · exact .inl ha
        · exact hleave ha rfl rfl
      · exact .inl ha
    · unfold answered at ha
      split at ha
      · exact .inl ha
      · exact hleave ha rfl rfl
    · split at ha
      · exact .inl ha
      unfold blocked at ha
      split at ha
      · exact hleave ha rfl rfl
      · split at ha
        · exact .inl ha
        · exact .inl (by simpa [construct_slot] using ha)
  case pushed q retry =>
    unfold pushedStep at ha
    split at ha
    · exact hleave ha rfl rfl
    · exact .inl ha
  case settled q =>
    unfold settledStep at ha
    split at ha
    · exact hleave ha rfl rfl
    · exact .inl ha
  case await q retry =>
    unfold awaitStep at ha
    repeat' split at ha
    · exact .inl (by simpa [construct_slot, Cfg.consume] using ha)
    · exact hleave ha rfl rfl
    · exact .inl ha
  case finish b =>
    by_cases hab : a = b
    · simp [finishStep, hab] at ha
    · exact .inl (by simpa [finishStep, hab] using ha)
  case resolve cur r n k =>
    unfold resolveStep at ha
    split at ha
    · cases k <;> exact .inl ha
    · exact .inl ha
  case releaseFast op =>
    cases op <;> dsimp only [releaseFast] at ha <;> (try split at ha) <;> exact .inl ha
  all_goals
    try dsimp only [tryPushWaitQueueEntry, releaseLoop, poisonFast, poisonLockInternal,
      clearPoisonStep, gateResetStep, gateDropStep, acknowledgeStep, walkStep, relinkStep, backStep,
      tailResetStep, updateStep, removeStep, forceRemove, completeStep] at ha
    repeat' split at ha
    all_goals exact .inl ha

theorem call_pager {op : Op} (hs : step kind s (.call t op) = some (e, s'))
    (ha : s'.slot a = .pager) : s.slot a = .pager := by
  have hup : ∀ {b : Ptr} {x : Slot}, x ≠ .pager → Function.update s.slot b x a = .pager →
      s.slot a = .pager := by
    intro b x hx hsl
    by_cases hab : a = b
    · rw [hab, Function.update_self] at hsl
      exact absurd hsl hx
    · rwa [Function.update_of_ne hab] at hsl
  simp only [step, callStep] at hs
  split at hs
  · cases hs
  split at hs
  · split at hs
    swap
    · cases hs
    cases acquireCall_begun hs with
    | refused | tryOnly => exact ha
    | bare => exact hup (x := .used t) (by simp) ha
    | fresh => exact hup (x := .used t) (by simp) (by simpa [construct_slot] using ha)
  · unfold pollCall at hs
    repeat' split at hs
    all_goals cases hs
    all_goals exact ha
  · unfold dropCall at hs
    repeat' split at hs
    all_goals cases hs
    · exact hup (x := .used t) (by simp) ha
    · exact hup (x := .none) (by simp) ha
  all_goals
    repeat' split at hs
    all_goals cases hs
    all_goals exact ha

theorem cancel_pager (hs : step kind s (.cancel t) = some (e, s')) (ha : s'.slot a = .pager) :
    s.slot a = .pager := by
  simp only [step, cancelStep] at hs
  split at hs
  swap
  · cases hs
  split at hs
  swap
  · cases hs
  next hv =>
  split at hs
  · cases hs
    exact ha
  · cases hs
    rcases leave_slot s ha with hsl | ⟨-, hp⟩
    · exact hsl
    · rw [hv] at hp
      cases hp

theorem after_engages (k : After) : k.pc.engages = none := by cases k <;> rfl

theorem Took.requested (ht : Took kind s v t act e s') (hb : ∀ n, kind ≠ .barrier n)
    (hq : (s'.pc t).engages = some q) :
    (s.pc t).engages = some q ∨ e = .call t (.acquire q) := by
  have hno : ¬∃ n, kind = .barrier n := fun ⟨n, hn⟩ => hb n hn
  have hmv := ht.move
  generalize s.pc t = p at hmv
  generalize s'.pc t = p' at hmv hq
  cases hmv with
  | acquire =>
    cases hq
    exact .inr rfl
  | take hx => rcases hx with rfl | ⟨state, i, rfl⟩ <;> exact .inl hq
  | enter hen =>
    cases hen with
    | gate _ hcmd => cases hcmd <;> cases hq
    | _ => cases hq
  | gate _ hg => cases hg <;> cases hq
  | unreleased | release | leave =>
    rw [after_engages] at hq
    cases hq
  | drop | cancel => cases kind <;> cases hq
  | arrived hn => exact absurd hn hno
  | own | refuse | last | registered | settled | consume => cases hq
  | _ => exact .inl hq

theorem dropped_slot {x : Tid} (ht : Took kind s v t act (.dropped x a) s')
    (hs : step kind s act = some (.dropped x a, s')) : s'.slot a = .none := by
  have hmv := ht.move
  generalize hpc : s.pc t = p at hmv
  generalize s'.pc t = p' at hmv
  cases hmv with
  | dropIdle hsl =>
    simp only [step, callStep, hpc, dropCall, hsl, if_true, ne_eq, not_true_eq_false,
      if_false] at hs
    split at hs
    · cases hs
    · cases hs
      exact Function.update_self ..
  | finish =>
    simp only [step, runStep, hpc, finishStep, Option.some.injEq, Prod.mk.injEq] at hs
    rw [← hs.2]
    simp
  | gate _ hg => cases hg

structure Kept (s : Cfg) (a : Ptr) (m : Script) : Prop where
  slot : s.slot a = .pager → m.kept = true
  engages : ∀ t q, (s.pc t).engages = some q → q.held = some a → q.via = .pager → m.kept = true

theorem step_kept (hk : Kept s a m) (ht : Took kind s m.view act.actor act e s')
    (hb : ∀ n, kind ≠ .barrier n) (hs : step kind s act = some (e, s')) :
    Kept s' a (m.observe a e) := by
  have hback : s'.slot a ≠ .none → ∀ x, e ≠ .dropped x a := by
    rintro hsl x rfl
    exact hsl (dropped_slot ht hs)
  have hsame : m.kept = true → s'.slot a ≠ .none →
      (∀ x q, e = .call x (.acquire q) → q.held = some a → q.via = .pager) →
      (m.observe a e).kept = true := by
    intro hkept hsl hcall
    have hdrop := hback hsl
    cases e with
    | call x op =>
      cases op with
      | acquire q =>
        by_cases hq : q.held = some a
        · simpa [Script.observe, hq] using hcall x q rfl hq
        · simpa [Script.observe, hq] using hkept
      | _ => exact hkept
    | dropped x b =>
      have hab : b ≠ a := by
        rintro rfl
        exact hdrop x rfl
      simpa [Script.observe, hab] using hkept
    | _ => exact hkept
  have hfresh : ∀ x q, e = .call x (.acquire q) → q.held = some a →
      s'.pc act.actor = .start q ∧ s'.slot a = .used act.actor := by
    rintro x q rfl hq
    have hpc := ht.acquiring.1
    exact ⟨hpc, ((ht.inv'.loc act.actor).slot a).mp (by rw [hpc]; exact hq)⟩
  constructor
  · intro hsl
    refine hsame ?_ (by simp [hsl]) fun x q he hq => ?_
    · cases act with
      | call t op => exact hk.slot (call_pager hs hsl)
      | run t =>
        rcases run_pager hs hsl with hsl | ⟨q, hp, hq, hv⟩
        · exact hk.slot hsl
        · exact hk.engages t q hp hq hv
      | cancel t => exact hk.slot (cancel_pager hs hsl)
    · rw [(hfresh x q he hq).2] at hsl
      cases hsl
  · intro u q hp hq hv
    have hslot := ((ht.inv'.loc u).slot a).mp ((engages_entry hp).trans hq)
    by_cases hu : u = act.actor
    · subst hu
      rcases ht.requested hb hp with hwas | he
      · refine hsame (hk.engages _ q hwas hq hv) (by simp [hslot]) fun x q' he hq' => ?_
        rw [(hfresh x q' he hq').1] at hp
        cases hp
        exact hv
      · subst he
        simpa [Script.observe, hq] using hv
    · refine hsame ?_ (by simp [hslot]) fun x q' he hq' => ?_
      · rw [ht.frame.pc u hu] at hp
        exact hk.engages u q hp hq hv
      · rw [(hfresh x q' he hq').2] at hslot
        exact absurd (Slot.used.inj hslot).symm hu

theorem reach_kept (hb : ∀ n, kind ≠ .barrier n) (hr : Reach kind free s h) (a : Ptr) :
    Kept s a (script a h) := by
  refine hr.invariant (P := fun s h => Kept s a (script a h)) ?_ ?_
  · constructor
    · intro hsl
      cases hsl
    · intro t q hp
      cases hp
  · intro s h act e s' hr ih hok hs
    have ht := took (reach_inv hb hr) (reach_inv hb (.step hr hok hs)) hs
    rw [← script_view a h] at ht
    exact step_kept ih ht hb hs

theorem Coupled.bits (hc : Coupled s m a p) (hi : Inv kind s m.view)
    (hst : m.view.stat a ≠ .idle) : p.bits.entry = s.state a := by
  have hstands := hc.stands hst
  have hg := hi.glob
  have hstate : ∀ {b f}, (s.state a).resultSet = b → (s.state a).finalized = f →
      s.state a = ⟨(s.state a).result, b, f⟩ := by
    rintro b f rfl rfl
    rfl
  cases hv : m.view.stat a with
  | idle => exact absurd hv hst
  | queued | taken | unlinked =>
    rw [hv] at hstands
    rw [hg.clear a (by simp [hv]), Pager.Waiting.bits hstands]
    rfl
  | answered t =>
    rw [hv] at hstands
    obtain ⟨hset, hfin⟩ := hg.set a t hv
    exact (congrArg Pager.Bits.entry (Pager.Given.bits hstands)).trans (hstate hset hfin).symm
  | final =>
    rw [hv] at hstands
    obtain ⟨hset, hfin⟩ := hg.final a hv
    exact (congrArg Pager.Bits.entry (Pager.Settled.bits hstands)).trans (hstate hset hfin).symm

theorem Coupled.at_rest (hc : Coupled s m a p) (hi : Inv kind s m.view) (hk : m.kept = true)
    (hsl : s.slot a = .pager) :
    p.owner = .idle ∧ p.pollable = s.pollable a ∧ p.bits.entry = s.state a := by
  obtain ⟨-, -, hpoll, hclear⟩ := hi.glob.pagers a hsl
  have hused : ∀ u, s.slot a ≠ .used u := by simp [hsl]
  by_cases hst : m.view.stat a = .idle
  · have hvac := hc.rests hk hst fun t q hp hq => hused t (hi.preparing hp hq).2
    have hno : s.pollable a = false := by
      by_contra hp
      exact hpoll.mp (by simpa using hp) hst
    rw [hclear hst, hvac.bits, hvac.pollable, hno]
    exact ⟨hvac.owner, rfl, rfl⟩
  · have hp : p.owner = .idle ∧ p.pollable = true := by
      have hstands := hc.stands hst
      cases hv : m.view.stat a with
      | idle => exact absurd hv hst
      | queued | taken | unlinked =>
        rw [hv] at hstands
        exact ⟨Pager.Waiting.owner hstands, Pager.Waiting.pollable hstands⟩
      | final =>
        rw [hv] at hstands
        exact ⟨Pager.Settled.owner hstands, Pager.Settled.pollable hstands⟩
      | answered t =>
        rw [hv] at hstands
        have hset : m.settling = false := by
          by_contra hset
          obtain ⟨q, hpc⟩ := hc.settles t hv (by simpa using hset)
          have hl := hi.loc t
          have hans := (hl.answering a).mpr hv
          rw [hpc] at hl hans
          cases hans
          exact hused t ((hl.slot _).mp (if_neg hl.fits))
        refine ⟨?_, Pager.Given.pollable hstands⟩
        rw [Pager.Given.owner hstands, hset]
        rfl
    exact ⟨hp.1, hp.2.trans (hpoll.mpr hst).symm, hc.bits hi hst⟩

/-- The entries of the primitives are the machines of `Pager`. In every run of a lock, a
semaphore or a gate, what happens at an address is played by one such machine, in the order in
which it happens: every registration, every result that is set, finalized and consumed. While
the entry is registered both have the same result and flags, the machine of a pager that nobody
borrows is at rest, pollable if and only if the pager is, and a result that the run consumes is
the one that the machine returns. What a primitive passes to `set_result` is moreover taken by
every machine that waits for a result, wherever the polls of its owner and spurious failures
have brought it, and no step of a machine is more to the entry than a step that the primitives
have. -/
theorem entries_realised {h : List Event} (hb : ∀ n, kind ≠ .barrier n)
    (hr : Reach kind free s h) (a : Ptr) :
    (∃ p g, exec Pager.system Pager.initial [] (script a h).actions = some (p, g) ∧
      ((view h).stat a ≠ .idle → p.bits.entry = s.state a) ∧
      (s.slot a = .pager →
        p.owner = .idle ∧ p.pollable = s.pollable a ∧ p.bits.entry = s.state a) ∧
      ∀ act t r s', step kind s act = some (.consume t a r, s') →
        ∃ p', exec Pager.system p g [.tryPoll, .owner false, .owner false, .owner false] =
          some (p', .returned (.ok r) :: .consumed r :: .tau :: .begin :: g)) ∧
    (∀ act t r s', step kind s act = some (.setResult t a r, s') →
      ∀ p g, Pager.Reach p g → (Pager.record g).opened = true → (Pager.record g).value = none →
        ∃ b p', Pager.step p b = some (.resolve r, p')) ∧
    ∀ p g, Pager.Reach p g → ∀ b e p', Pager.step p b = some (e, p') →
      Pager.EntryStep (Pager.record g).value p.bits.entry p'.bits.entry := by
  have hi := reach_inv hb hr
  have htook : ∀ {act e s'}, step kind s act = some (e, s') →
      Took kind s (view h) act.actor act e s' := fun hs =>
    took hi (reach_inv hb (.step hr trivial hs)) hs
  obtain ⟨p, g, hrun, hc⟩ := reach_coupled hb hr a
  have hi' : Inv kind s (script a h).view := by rwa [script_view]
  refine ⟨⟨p, g, hrun, fun hst => ?_, fun hsl => ?_, fun act t r s' hs => ?_⟩,
    fun act t r s' hs p g hp ho hv => ?_, fun p g hp b e p' hs => Pager.step_entry hp hs⟩
  · exact hc.bits hi' (by rwa [script_view])
  · exact hc.at_rest hi' ((reach_kept hb hr a).slot hsl) hsl
  · obtain ⟨hst, rfl, -⟩ := (htook hs).consuming
    rw [← script_view a h] at hst
    have hsettled := hc.stands (by rw [hst]; simp)
    rw [hst] at hsettled
    obtain ⟨p', hpoll, -⟩ := Pager.Settled.consume hsettled g
    exact ⟨p', hpoll⟩
  · exact Pager.receptive hp ho hv ((htook hs).stores ((reach_coded hb hr).carried _)).lt

end

/-- The pager that was handed the only permit of a semaphore. -/
theorem entries_realised_pager :
    ∃ s h p g, exec (system (.semaphore 1)) (Kind.initial (.semaphore 1)) [] (abandoned.take 17) =
        some (s, h) ∧ (view h).stat 256 = .final ∧
      exec Pager.system Pager.initial [] (script 256 h).actions = some (p, g) ∧
      p.owner = .idle ∧ p.pollable = true ∧ p.bits.entry = s.state 256 := by
  obtain ⟨s, h, hrun, hst, hsl, hpoll⟩ : ∃ s h, exec (system (.semaphore 1))
      (Kind.initial (.semaphore 1)) [] (abandoned.take 17) = some (s, h) ∧
      (view h).stat 256 = .final ∧ s.slot 256 = .pager ∧ s.pollable 256 = true :=
    ⟨_, _, rfl, rfl, rfl, rfl⟩
  obtain ⟨⟨p, g, hplay, -, hrest, -⟩, -⟩ := entries_realised (by simp)
    (Run.exec .init (admits_free ..) hrun) 256
  obtain ⟨howner, hflag, hbits⟩ := hrest hsl
  exact ⟨s, h, p, g, hrun, hst, hplay, howner, hflag.trans hpoll, hbits⟩

end Saa
