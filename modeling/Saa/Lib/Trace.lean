import Mathlib.Data.Nat.Notation
import Mathlib.Tactic.ByContra
import Mathlib.Tactic.TypeStar

/-! # Labelled transition systems and their histories

A system is a partial step function; a run collects the labels of its steps, newest
first. The guard of a run restricts which steps are taken, and may read the history. -/
namespace Lib.Trace

variable {σ α ε V : Type*}

structure System (σ α ε : Type*) where
  init : σ
  step : σ → α → Option (ε × σ)

/-- A restriction on the steps of a run: state, history so far, action. -/
abbrev Guard (σ α ε : Type*) := σ → List ε → α → Prop

inductive Run (S : System σ α ε) (ok : Guard σ α ε) : σ → List ε → Prop where
  | init : Run S ok S.init []
  | step {s h a e s'} : Run S ok s h → ok s h a → S.step s a = some (e, s') →
      Run S ok s' (e :: h)

def free : Guard σ α ε := fun _ _ _ => True

/-- What holds initially and is preserved by every admitted step holds in every run. -/
theorem Run.invariant {S : System σ α ε} {ok : Guard σ α ε} {P : σ → List ε → Prop}
    (init : P S.init [])
    (step : ∀ {s h a e s'}, Run S ok s h → P s h → ok s h a → S.step s a = some (e, s') →
      P s' (e :: h)) {s h} (hr : Run S ok s h) : P s h := by
  induction hr with
  | init => exact init
  | step hr hok hs ih => exact step hr ih hok hs

/-- A guard may be exchanged for one that follows from it in the states it reaches. -/
theorem Run.guard {S : System σ α ε} {ok ok' : Guard σ α ε}
    (hle : ∀ s h a, Run S ok s h → ok s h a → ok' s h a) {s h} (hr : Run S ok s h) :
    Run S ok' s h := by
  induction hr with
  | init => exact .init
  | step hr hok hs ih => exact .step ih (hle _ _ _ hr hok) hs

theorem Run.mono {S : System σ α ε} {ok ok' : Guard σ α ε}
    (hle : ∀ s h a, ok s h a → ok' s h a) {s h} (hr : Run S ok s h) : Run S ok' s h :=
  hr.guard fun s h a _ => hle s h a

theorem Run.any {S : System σ α ε} {ok : Guard σ α ε} {s h} (hr : Run S ok s h) :
    Run S free s h := hr.mono fun _ _ _ _ => trivial

theorem Run.resume {S : System σ α ε} {ok : Guard σ α ε} {s₁ h₁} (hr : Run S free s₁ h₁) {s h}
    (hx : Run ⟨s₁, S.step⟩ ok s h) : Run S free s (h ++ h₁) := by
  induction hx with
  | init => exact hr
  | step _ _ hs ih => exact .step ih trivial hs

theorem countP_newest (f : ε → Bool) (e : ε) (h : List ε) :
    (e :: h).countP f = h.countP f + [e].countP f := by
  rw [← List.singleton_append, List.countP_append, Nat.add_comm]

/-- The value a monitor computes from a history. -/
def fold (f : V → ε → V) (v : V) : List ε → V
  | [] => v
  | e :: h => f (fold f v h) e

@[simp] theorem fold_nil (f : V → ε → V) (v : V) : fold f v [] = v := rfl

@[simp] theorem fold_cons (f : V → ε → V) (v : V) (e : ε) (h : List ε) :
    fold f v (e :: h) = f (fold f v h) e := rfl

def exec (S : System σ α ε) (s : σ) (h : List ε) : List α → Option (σ × List ε)
  | [] => some (s, h)
  | a :: as => match S.step s a with
    | some (e, s') => exec S s' (e :: h) as
    | none => none

/-- Every step of a schedule meets the guard. -/
def Admits (S : System σ α ε) (ok : Guard σ α ε) (s : σ) (h : List ε) : List α → Prop
  | [] => True
  | a :: as => ok s h a ∧ ∀ e s', S.step s a = some (e, s') → Admits S ok s' (e :: h) as

theorem Run.exec {S : System σ α ε} {ok : Guard σ α ε} {as : List α} {s s' h h'}
    (hr : Run S ok s h) (hg : Admits S ok s h as) (he : exec S s h as = some (s', h')) :
    Run S ok s' h' := by
  induction as generalizing s h with
  | nil =>
    simp only [Trace.exec, Option.some.injEq, Prod.mk.injEq] at he
    obtain ⟨rfl, rfl⟩ := he
    exact hr
  | cons a as ih =>
    simp only [Trace.exec] at he
    split at he
    · next e u hs => exact ih (.step hr hg.1 hs) (hg.2 e u hs) he
    · cases he

theorem exec_append {S : System σ α ε} {as : List α} {s s₁ : σ} {h h₁ : List ε}
    (he : exec S s h as = some (s₁, h₁)) (bs : List α) :
    exec S s h (as ++ bs) = exec S s₁ h₁ bs := by
  induction as generalizing s h with
  | nil =>
    cases he
    rfl
  | cons a as ih =>
    simp only [exec, List.cons_append] at he ⊢
    split at he
    · exact ih he
    · cases he

theorem admits_free (S : System σ α ε) (s : σ) (h : List ε) (as : List α) :
    Admits S free s h as := by
  induction as generalizing s h with
  | nil => trivial
  | cons a as ih => exact ⟨trivial, fun _ _ _ => ih _ _⟩

def execIf (S : System σ α ε) (ok : Guard σ α ε) [∀ s h a, Decidable (ok s h a)] (s : σ)
    (h : List ε) : List α → Option (σ × List ε)
  | [] => some (s, h)
  | a :: as => if ok s h a then
      match S.step s a with
      | some (e, s') => execIf S ok s' (e :: h) as
      | none => none
    else none

theorem Run.execIf {S : System σ α ε} {ok : Guard σ α ε} [∀ s h a, Decidable (ok s h a)]
    {as : List α} {s s' h h'} (hr : Run S ok s h) (he : execIf S ok s h as = some (s', h')) :
    Run S ok s' h' := by
  induction as generalizing s h with
  | nil =>
    simp only [Trace.execIf, Option.some.injEq, Prod.mk.injEq] at he
    obtain ⟨rfl, rfl⟩ := he
    exact hr
  | cons a as ih =>
    simp only [Trace.execIf] at he
    split at he
    · next hok =>
      split at he
      · next e u hs => exact ih (.step hr hok hs) he
      · cases he
    · cases he

/-- Finitely many steps of the action `a` lead from one state to another. -/
inductive Alone (S : System σ α ε) (a : α) : σ → List ε → σ → List ε → Prop where
  | done {s h} : Alone S a s h s h
  | step {s h e s₁ s' h'} : S.step s a = some (e, s₁) → Alone S a s₁ (e :: h) s' h' →
      Alone S a s h s' h'

theorem Alone.trans {S : System σ α ε} {a : α} {s s₁ s' : σ} {h h₁ h' : List ε}
    (hx : Alone S a s h s₁ h₁) (hy : Alone S a s₁ h₁ s' h') : Alone S a s h s' h' := by
  induction hx with
  | done => exact hy
  | step hs _ ih => exact .step hs (ih hy)

theorem Alone.rebase {S : System σ α ε} {a : α} {s s' : σ} {h h' : List ε}
    (hx : Alone S a s h s' h') (g : List ε) : ∃ g', Alone S a s g s' g' := by
  induction hx generalizing g with
  | done => exact ⟨g, .done⟩
  | @step _ _ e _ _ _ hs _ ih =>
    obtain ⟨g', hg⟩ := ih (e :: g)
    exact ⟨g', .step hs hg⟩

theorem Run.alone {S : System σ α ε} {a : α} {s s' : σ} {h h' : List ε} (hr : Run S free s h)
    (ha : Alone S a s h s' h') : Run S free s' h' := by
  induction ha with
  | done => exact hr
  | step hs _ ih => exact ih (.step hr trivial hs)

theorem Alone.suffix {S : System σ α ε} {a : α} {s s' : σ} {h h' : List ε}
    (hx : Alone S a s h s' h') : h <:+ h' := by
  induction hx with
  | done => exact List.suffix_rfl
  | step _ _ ih => exact (List.suffix_cons ..).trans ih

/-- Where the action is no longer possible does not depend on how one gets there. -/
theorem Alone.unique {S : System σ α ε} {a : α} {s s₁ s₂ : σ} {h h₁ h₂ : List ε}
    (hx : Alone S a s h s₁ h₁) (hx' : S.step s₁ a = none) (hy : Alone S a s h s₂ h₂)
    (hy' : S.step s₂ a = none) : s₁ = s₂ ∧ h₁ = h₂ := by
  induction hx with
  | done =>
    cases hy with
    | done => exact ⟨rfl, rfl⟩
    | step hs =>
      rw [hx'] at hs
      cases hs
  | step hs _ ih =>
    cases hy with
    | done =>
      rw [hy'] at hs
      cases hs
    | step hs' hy =>
      rw [hs] at hs'
      cases hs'
      exact ih hx' hy

/-- A run in which one party is busy at every step: it takes `n` steps of its own, and the
others change what it observes `m` times. -/
inductive Among (S : System σ α ε) (own : α → Prop) (busy : σ → Prop) (obs : σ → V) :
    σ → List ε → ℕ → ℕ → σ → List ε → Prop where
  | done {s h} : Among S own busy obs s h 0 0 s h
  | own {s h n m s₁ h₁ a e s'} : Among S own busy obs s h n m s₁ h₁ → busy s₁ → own a →
      S.step s₁ a = some (e, s') → Among S own busy obs s h (n + 1) m s' (e :: h₁)
  | quiet {s h n m s₁ h₁ a e s'} : Among S own busy obs s h n m s₁ h₁ → busy s₁ → ¬own a →
      S.step s₁ a = some (e, s') → obs s' = obs s₁ → Among S own busy obs s h n m s' (e :: h₁)
  | disturb {s h n m s₁ h₁ a e s'} : Among S own busy obs s h n m s₁ h₁ → busy s₁ → ¬own a →
      S.step s₁ a = some (e, s') → obs s' ≠ obs s₁ →
      Among S own busy obs s h n (m + 1) s' (e :: h₁)

section
variable {S : System σ α ε} {own : α → Prop} {busy : σ → Prop} {obs : σ → V} {s s' : σ}
  {h h' : List ε} {n m : ℕ}

theorem Among.run (hx : Among S own busy obs s h n m s' h') (hr : Run S free s h) :
    Run S free s' h' := by
  induction hx with
  | done => exact hr
  | own _ _ _ hs ih | quiet _ _ _ hs _ ih | disturb _ _ _ hs _ ih => exact .step ih trivial hs

/-- The rule for termination under finite interference: a measure that allows for a number
of disturbances to come bounds the steps of the party. Its own steps decrease the measure,
those of the others do not increase it, and a disturbance uses up one of the number. -/
theorem Among.bound {c : ℕ → σ → List ε → ℕ}
    (mine : ∀ {s h a e s' k}, Run S free s h → busy s → own a → S.step s a = some (e, s') →
      c k s' (e :: h) < c k s h)
    (quiet : ∀ {s h a e s' k}, Run S free s h → busy s → ¬own a → S.step s a = some (e, s') →
      obs s' = obs s → c k s' (e :: h) ≤ c k s h)
    (disturb : ∀ {s h a e s' k}, Run S free s h → busy s → ¬own a → S.step s a = some (e, s') →
      c k s' (e :: h) ≤ c (k + 1) s h)
    (hr : Run S free s h) (hx : Among S own busy obs s h n m s' h') (k : ℕ) :
    n + c k s' h' ≤ c (m + k) s h := by
  induction hx generalizing k with
  | done => simp
  | own hx hb ho hs ih =>
    have hlt := mine (k := k) (hx.run hr) hb ho hs
    have hle := ih k
    omega
  | quiet hx hb ho hs he ih =>
    have hlt := quiet (k := k) (hx.run hr) hb ho hs he
    have hle := ih k
    omega
  | @disturb _ m _ _ _ _ _ hx hb ho hs _ ih =>
    have hlt := disturb (k := k) (hx.run hr) hb ho hs
    have hle := ih (k + 1)
    rw [show m + 1 + k = m + (k + 1) by omega]
    omega

theorem Among.finishes {a : α} {b : ℕ} (ha : own a)
    (hb : ∀ n s' h', Among S own busy obs s h n 0 s' h' → n ≤ b)
    (hstep : ∀ s' h', Alone S a s h s' h' → busy s' → ∃ e s'', S.step s' a = some (e, s'')) :
    ∃ s' h', Alone S a s h s' h' ∧ ¬busy s' := by
  by_contra hno
  have hlong : ∀ n, ∃ s' h', Among S own busy obs s h n 0 s' h' ∧ Alone S a s h s' h' := by
    intro n
    induction n with
    | zero => exact ⟨s, h, .done, .done⟩
    | succ n ih =>
      obtain ⟨s', h', hx, hy⟩ := ih
      have hbusy : busy s' := by
        by_contra hn
        exact hno ⟨s', h', hy, hn⟩
      obtain ⟨e, s'', hs⟩ := hstep s' h' hy hbusy
      exact ⟨s'', e :: h', .own hx hbusy ha hs, hy.trans (.step hs .done)⟩
  obtain ⟨s', h', hx, -⟩ := hlong (b + 1)
  have := hb _ s' h' hx
  omega

end

end Lib.Trace
