import Saa.Lib.Trace

/-! # Refinement

A specification is a labelled relation between states. A system refines it along an
abstraction of its states when every step of the system is one step of the specification,
or a step that the specification does not see. -/
namespace Lib.Refine

open Lib.Trace

variable {σ α ε τ β : Type*}

/-- The run goes on from `s`, and `g` happens after `h`. -/
inductive Onward (S : System σ α ε) (ok : Guard σ α ε) (s : σ) (h : List ε) :
    σ → List ε → Prop where
  | done : Onward S ok s h s []
  | step {s₁ g a e s'} : Onward S ok s h s₁ g → ok s₁ (g ++ h) a → S.step s₁ a = some (e, s') →
      Onward S ok s h s' (e :: g)

section
variable {S : System σ α ε} {ok : Guard σ α ε} {s s' : σ} {h g : List ε}

theorem Onward.run (hx : Onward S ok s h s' g) (hr : Run S ok s h) : Run S ok s' (g ++ h) := by
  induction hx with
  | done => exact hr
  | step _ hok hs ih => exact .step ih hok hs

theorem Onward.exec {as : List α} {s₁ : σ} {h' : List ε} (hx : Onward S free s h s₁ g)
    (he : exec S s₁ (g ++ h) as = some (s', h')) :
    ∃ g', h' = g' ++ h ∧ Onward S free s h s' g' := by
  induction as generalizing s₁ g with
  | nil =>
    simp only [Trace.exec, Option.some.injEq, Prod.mk.injEq] at he
    obtain ⟨rfl, rfl⟩ := he
    exact ⟨g, rfl, hx⟩
  | cons a as ih =>
    simp only [Trace.exec] at he
    split at he
    · next e u hs => exact ih (.step hx trivial hs) he
    · cases he

theorem Onward.whole (hr : Run S ok s h) : Onward S ok S.init [] s h := by
  induction hr with
  | init => exact .done
  | step _ hok hs ih => exact .step ih (by rwa [List.append_nil]) hs

end

structure Spec (τ β : Type*) where
  init : τ
  next : τ → β → τ → Prop

/-- The specification gets from one state to another. Labels are newest first. -/
inductive Spec.Path (A : Spec τ β) (x : τ) : τ → List β → Prop where
  | done : A.Path x x []
  | step {y b z l} : A.Path x y l → A.next y b z → A.Path x z (b :: l)

/-- One step of the specification, or none. -/
def Spec.Answers (A : Spec τ β) (x : τ) : Option β → τ → Prop
  | none, y => y = x
  | some b, y => A.next x b y

theorem Spec.Path.answers {A : Spec τ β} {x y z : τ} {l : List β} {b : Option β}
    (hx : A.Path x y l) (ha : A.Answers y b z) : A.Path x z (b.toList ++ l) := by
  cases b with
  | none =>
    obtain rfl : z = y := ha
    exact hx
  | some b => exact .step hx ha

/-- The labels of those steps behind `h` that the specification sees. What a step is to the
specification may depend on the history before it. -/
def visible (label : List ε → ε → Option β) (h : List ε) : List ε → List β
  | [] => []
  | e :: g => (label (g ++ h) e).toList ++ visible label h g

/-- The rule for forward simulations. -/
theorem refines {S : System σ α ε} {ok : Guard σ α ε} {A : Spec τ β} {abs : σ → List ε → τ}
    {label : List ε → ε → Option β}
    (step : ∀ {s h a e s'}, Run S ok s h → ok s h a → S.step s a = some (e, s') →
      A.Answers (abs s h) (label h e) (abs s' (e :: h))) {s s' : σ} {h g : List ε}
    (hr : Run S ok s h) (hx : Onward S ok s h s' g) :
    A.Path (abs s h) (abs s' (g ++ h)) (visible label h g) := by
  induction hx with
  | done => exact .done
  | step hx hok hs ih => exact ih.answers (step (hx.run hr) hok hs)

end Lib.Refine
