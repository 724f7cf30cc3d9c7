import Saa.Assertions
import Saa.Rounds
import Saa.Trying

/-! # Blocking calls

A call of `lock_sync`, `share_sync`, `acquire_sync`, `acquire_many_sync`, `enter_sync` or
`wait_sync`, or of one of their asynchronous twins, from its beginning to its return. The
callback of the `_with` variants is called when the entry is in the queue; a barrier calls it
when the call has counted down, and keeps it while the call waits to do that. -/
namespace Saa

open Word Lib.Linked Lib.Trace

/-- The calls of `begin_wait` by thread `t` in a call `q`. -/
def begins (q : Req) (t : Tid) (h : List Event) : ℕ :=
  h.countP fun e => match e with
    | .push u _ _ => u = t ∧ q.goal ≠ .arrive
    | .countDown u _ _ => u = t
    | _ => false

def takings (t : Tid) (h : List Event) : ℕ :=
  h.countP fun e => match e with
    | .consume u _ _ => u = t
    | _ => false

/-- A result is there without a wait: of a gate that is not controlled in a word of `seen`, or
for the last one to arrive. -/
def Answered (q : Req) (seen : ℕ → Prop) (last : Prop) : Prop :=
  (q.goal = .enter ∧ ∃ w, seen w ∧ GateState.ofUsize (data w) ≠ .controlled) ∨
    (q.goal = .arrive ∧ last)

/-- How far a blocking call is: its calls of `begin_wait`, what it has acquired by itself, its
refusals and its results. -/
inductive Blocks (q : Req) (seen : ℕ → Prop) (last : Prop) : Pc → ℕ → ℕ → ℕ → ℕ → Prop where
  | trying {p : Pc} : p.joins = some q → (∀ state i, p = .attempt q state i → seen state) →
      Blocks q seen last p 0 0 0 0
  | again {p : Pc} : p.retries = some q → Blocks q seen last p 0 0 0 0
  | closing {p : Pc} : p.arriver = some q → q.goal = .arrive → last →
      Blocks q seen last p 0 0 0 0
  | settling {r : ℕ} : Answered q seen last → Blocks q seen last (.settle q r) 0 0 0 0
  | settled : Answered q seen last → Blocks q seen last (.settled q) 0 0 0 0
  | queued : Blocks q seen last (.pushed q false) 1 0 0 0
  | waiting {n : ℕ} : n = 1 ∨ n = 0 ∧ Answered q seen last →
      Blocks q seen last (.await q false) n 0 0 0
  | acquired : Blocks q seen last .idle 0 1 0 0
  | refused : Blocks q seen last .idle 0 0 1 0
  | returned {n : ℕ} : n = 1 ∨ n = 0 ∧ Answered q seen last → Blocks q seen last .idle n 0 0 1

section
variable {kind : Kind} {ok : Cfg → Action → Prop} {s s' s₀ s₁ : Cfg} {v : View} {t u : Tid}
  {h h₀ h₁ : List Event} {e : Event} {act : Action} {q : Req} {p p' : Pc} {b a r c : ℕ}
  {seen seen' : ℕ → Prop} {last last' : Prop}

theorem Answered.mono (hx : Answered q seen last) (hle : ∀ w, seen w → seen' w)
    (hl : last → last') :
    Answered q seen' last' := by
  rcases hx with ⟨hg, w, hw, hc⟩ | ⟨hg, hx⟩
  · exact .inl ⟨hg, w, hle w hw, hc⟩
  · exact .inr ⟨hg, hl hx⟩

theorem Blocks.mono (hx : Blocks q seen last p b a r c) (hle : ∀ w, seen w → seen' w)
    (hl : last → last') : Blocks q seen' last' p b a r c := by
  cases hx with
  | trying hp hs => exact .trying hp fun state i hat => hle _ (hs state i hat)
  | again hp => exact .again hp
  | closing hp hg hx => exact .closing hp hg (hl hx)
  | settling hr => exact .settling (hr.mono hle hl)
  | settled hr => exact .settled (hr.mono hle hl)
  | queued => exact .queued
  | waiting hn => exact .waiting (hn.imp_right fun hx => ⟨hx.1, hx.2.mono hle hl⟩)
  | acquired => exact .acquired
  | refused => exact .refused
  | returned hn => exact .returned (hn.imp_right fun hx => ⟨hx.1, hx.2.mono hle hl⟩)

theorem Trying.joins (hp : Trying p q) : p.joins = some q := by
  rcases hp with rfl | ⟨state, i, rfl⟩ <;> rfl

theorem enter_done {w : ℕ} (hg : q.goal = .enter) (hd : q.goal.attempt w = .done r) :
    GateState.ofUsize (data w) ≠ .controlled := by
  intro hc
  rw [hg] at hd
  simp [Goal.attempt, pushWaitQueueEntry, hc] at hd

theorem trying_next (hp : p.joins = some q) (hat : ∀ state i, p = .attempt q state i → seen state)
    (hpager : q.via ≠ .pager) (hmv : Move kind s v t (.run t) p e p') (hw : seen s.word)
    (hl : e = .last t q.entry → last) :
    Blocks q seen last p' (0 + begins q t [e]) (0 + acquisitions t [e]) (0 + refusals t [e])
      (0 + takings t [e]) := by
  cases hmv with
  | own htry => simpa [begins, acquisitions, refusals, takings] using Blocks.acquired
  | take htry hv =>
    rw [htry.joins] at hp
    cases hp
    exact absurd hv hpager
  | load | reload =>
    cases hp
    refine .trying rfl fun state i hx => ?_
    cases hx
    exact hw
  | @spin _ state =>
    cases hp
    refine .trying rfl fun state' i hx => ?_
    cases hx
    exact hat state _ rfl
  | queue | waitOnly | again =>
    cases hp
    exact .trying rfl fun state i hx => by cases hx
  | @answer _ state _ _ _ hd hg =>
    cases hp
    have hg := hg.resolve_left hpager
    exact .settling (.inl ⟨hg, state, hat state _ rfl, enter_done hg hd⟩)
  | refuse => simpa [begins, acquisitions, refusals, takings] using Blocks.refused
  | last _ hg =>
    cases hp
    exact .closing rfl hg (hl rfl)
  | countDown =>
    cases hp
    simpa [begins, acquisitions, refusals, takings] using Blocks.queued
  | push =>
    cases hp
    by_cases hg : q.goal = .arrive
    · simpa [begins, acquisitions, refusals, takings, hg] using Blocks.again rfl
    · simpa [begins, acquisitions, refusals, takings, hg] using Blocks.queued
  | gate _ hg => cases hg <;> cases hp
  | _ => cases hp

theorem again_next (hp : p.retries = some q) (hpager : q.via ≠ .pager)
    (hmv : Move kind s v t (.run t) p e p') :
    Blocks q seen last p' (0 + begins q t [e]) (0 + acquisitions t [e]) (0 + refusals t [e])
      (0 + takings t [e]) := by
  cases hmv with
  | own htry | take htry => rcases htry with rfl | ⟨_, _, rfl⟩ <;> cases hp
  | @wait q' retry | @pending q' retry =>
    cases retry <;> cases hp
    exact .again rfl
  | @registered q' retry hv =>
    cases retry <;> cases hp
    exact absurd hv hpager
  | retry =>
    cases hp
    exact .trying rfl fun state i hx => by cases hx
  | gate _ hg => cases hg <;> cases hp
  | _ => cases hp

theorem closing_next (hp : p.arriver = some q) (hg : q.goal = .arrive) (hlast : last)
    (hmv : Move kind s v t (.run t) p e p') :
    Blocks q seen last p' (0 + begins q t [e]) (0 + acquisitions t [e]) (0 + refusals t [e])
      (0 + takings t [e]) := by
  cases hmv with
  | own htry | take htry => rcases htry with rfl | ⟨_, _, rfl⟩ <;> cases hp
  | writeBack | counted =>
    cases hp
    exact .closing rfl hg hlast
  | @set _ _ _ k | @finalize _ _ _ _ k =>
    refine .closing ?_ hg hlast
    cases k <;> exact hp
  | arrived =>
    cases hp
    exact .settling (.inr ⟨hg, hlast⟩)
  | gate _ hg => cases hg <;> cases hp
  | _ => cases hp

theorem Blocks.next (hx : Blocks q seen last p b a r c) (hpager : q.via ≠ .pager)
    (hbusy : p ≠ .idle) (hmv : Move kind s v t (.run t) p e p') (hw : seen s.word)
    (hl : e = .last t q.entry → last) :
    Blocks q seen last p' (b + begins q t [e]) (a + acquisitions t [e]) (r + refusals t [e])
      (c + takings t [e]) := by
  cases hx with
  | trying hp hat => exact trying_next hp hat hpager hmv hw hl
  | again hp => exact again_next hp hpager hmv
  | closing hp hg hlast => exact closing_next hp hg hlast hmv
  | settling hr =>
    cases hmv with
    | own htry | take htry => rcases htry with hx | ⟨_, _, hx⟩ <;> cases hx
    | settle => exact .settled hr
    | gate _ hm => cases hm
  | settled hr =>
    cases hmv with
    | own htry | take htry => rcases htry with hx | ⟨_, _, hx⟩ <;> cases hx
    | settled hv => exact absurd hv hpager
    | settledWait => exact .waiting (.inr ⟨rfl, hr⟩)
    | gate _ hm => cases hm
  | queued =>
    cases hmv with
    | own htry | take htry => rcases htry with hx | ⟨_, _, hx⟩ <;> cases hx
    | registered hv => exact absurd hv hpager
    | wait => exact .waiting (.inl rfl)
    | gate _ hm => cases hm
  | waiting hn =>
    cases hmv with
    | own htry | take htry => rcases htry with hx | ⟨_, _, hx⟩ <;> cases hx
    | pending => exact .waiting hn
    | consume => simpa [begins, acquisitions, refusals, takings] using Blocks.returned hn
    | gate _ hm => cases hm
  | acquired | refused | returned => exact absurd rfl hbusy

section
variable (hinv : ∀ s h, Reach kind (fun s _ act => ok s act) s h → Inv kind s (view h))
include hinv

end

end

end Saa
