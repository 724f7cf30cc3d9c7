import Saa.Lib.Refine

/-! # One party after the other

If every party of a system can be brought to a good place by steps of its own that leave the
others where they are, then all of them can, as long as only finitely many are elsewhere. -/
namespace Lib.Sweep

open Lib.Trace Lib.Refine

variable {σ α ε ι P : Type*} {S : System σ α ε} {ok : Guard σ α ε} {s s₁ s' : σ} {h g g' : List ε}

theorem onward_trans (hx : Onward S ok s h s₁ g) (hy : Onward S ok s₁ (g ++ h) s' g') :
    Onward S ok s h s' (g' ++ g) := by
  induction hy with
  | done => exact hx
  | step _ hok hs ih =>
    rw [← List.append_assoc] at hok
    exact .step ih hok hs

theorem onward_mono {ok' : Guard σ α ε} (hle : ∀ s h a, ok s h a → ok' s h a)
    (hx : Onward S ok s h s' g) : Onward S ok' s h s' g := by
  induction hx with
  | done => exact .done
  | step _ hok hs ih => exact .step ih (hle _ _ _ hok) hs

theorem onward_alone {a : α} {h' : List ε} (hok : ∀ s h, ok s h a) (hx : Alone S a s h s' h') :
    ∃ g, h' = g ++ h ∧ Onward S ok s h s' g := by
  induction hx with
  | done => exact ⟨[], rfl, .done⟩
  | @step s h e s₁ s' h' hs _ ih =>
    obtain ⟨g, rfl, hy⟩ := ih
    have hone : Onward S ok s h s₁ [e] := .step .done (hok ..) hs
    exact ⟨g ++ [e], by simp, onward_trans hone hy⟩

def Only (act : ι → α) : Guard σ α ε := fun _ _ a => ∃ i, a = act i

theorem sweep (act : ι → α) (pc : σ → ι → P) (good : P → Prop) {C : σ → List ε → Prop}
    (one : ∀ {s h} i, C s h → ∃ s' h', Alone S (act i) s h s' h' ∧ C s' h' ∧ good (pc s' i) ∧
      ∀ j, j ≠ i → pc s' j = pc s j) {l : List ι} (hc : C s h)
    (hl : ∀ i, i ∉ l → good (pc s i)) :
    ∃ s' g, Onward S (Only act) s h s' g ∧ C s' (g ++ h) ∧ ∀ i, good (pc s' i) := by
  induction l generalizing s h with
  | nil => exact ⟨s, [], .done, hc, fun i => hl i (by simp)⟩
  | cons i l ih =>
    obtain ⟨s₁, h₁, hx, hc₁, hgood, hothers⟩ := one i hc
    have hok : ∀ (s : σ) (h : List ε), Only act s h (act i) := fun _ _ => ⟨i, rfl⟩
    obtain ⟨g, rfl, hon⟩ := onward_alone hok hx
    obtain ⟨s', g', hon', hc', hall⟩ := ih hc₁ fun j hj => by
      by_cases hji : j = i
      · rw [hji]
        exact hgood
      · rw [hothers j hji]
        exact hl j (by simp [hji, hj])
    exact ⟨s', g' ++ g, onward_trans hon hon', by rwa [List.append_assoc], hall⟩

end Lib.Sweep
