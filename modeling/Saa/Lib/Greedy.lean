import Mathlib.Algebra.BigOperators.Group.List.Basic
import Mathlib.Algebra.Order.Monoid.Canonical.Defs
import Mathlib.Data.List.Basic

/-! # A line that is served from the front

Customers wait in a line, oldest first. Each of them adds a weight to what is in use, and is
admitted or not depending on what is in use already: less in use never hurts. Serving the
line takes its longest prefix of customers that are admitted one after the other. -/
namespace Lib.Greedy

structure Policy (α M : Type*) [LE M] where
  admits : M → α → Prop
  weight : α → M
  dec : ∀ m a, Decidable (admits m a)
  antitone : ∀ {m m' a}, m' ≤ m → admits m a → admits m' a

instance {α M : Type*} [LE M] (P : Policy α M) (m : M) (a : α) : Decidable (P.admits m a) :=
  P.dec m a

section
variable {α M : Type*} [AddCommMonoid M] [PartialOrder M]

/-- What a list of customers adds. -/
def Policy.load (P : Policy α M) (l : List α) : M := (l.map P.weight).sum

def Policy.serve (P : Policy α M) (m : M) : List α → List α
  | [] => []
  | a :: l => if P.admits m a then a :: P.serve (m + P.weight a) l else []

/-- Those who still wait. -/
def Policy.rest (P : Policy α M) (m : M) (l : List α) : List α := l.drop (P.serve m l).length

variable {P : Policy α M} {m m' : M} {a : α} {l g r : List α}

@[simp] theorem load_nil : P.load [] = 0 := rfl

@[simp] theorem load_cons : P.load (a :: l) = P.weight a + P.load l := by
  simp [Policy.load]

@[simp] theorem load_append : P.load (g ++ r) = P.load g + P.load r := by
  simp [Policy.load]

@[simp] theorem serve_nil : P.serve m [] = [] := rfl

theorem serve_cons_of_admits (h : P.admits m a) :
    P.serve m (a :: l) = a :: P.serve (m + P.weight a) l := by
  simp [Policy.serve, h]

theorem serve_cons_of_not (h : ¬P.admits m a) : P.serve m (a :: l) = [] := by
  simp [Policy.serve, h]

theorem serve_rest : P.serve m l ++ P.rest m l = l := by
  induction l generalizing m with
  | nil => rfl
  | cons a l ih =>
    by_cases h : P.admits m a
    · have hl := ih (m := m + P.weight a)
      unfold Policy.rest at hl ⊢
      rw [serve_cons_of_admits h, List.length_cons, List.drop_succ_cons, List.cons_append, hl]
    · simp [Policy.rest, serve_cons_of_not h]

theorem serve_append (h : P.serve m g = g) :
    P.serve m (g ++ r) = g ++ P.serve (m + P.load g) r := by
  induction g generalizing m with
  | nil => simp
  | cons a g ih =>
    by_cases ha : P.admits m a
    · rw [serve_cons_of_admits ha] at h
      rw [List.cons_append, serve_cons_of_admits ha, ih (List.cons.inj h).2, load_cons, add_assoc,
        List.cons_append]
    · rw [serve_cons_of_not ha] at h
      cases h

theorem rest_append (h : P.serve m g = g) : P.rest m (g ++ r) = P.rest (m + P.load g) r := by
  unfold Policy.rest
  rw [serve_append h, List.length_append, List.drop_append]
  simp

/-- Who is served is served also when nobody else waits. -/
theorem serve_serve : P.serve m (P.serve m l) = P.serve m l := by
  induction l generalizing m with
  | nil => rfl
  | cons a l ih =>
    by_cases h : P.admits m a
    · rw [serve_cons_of_admits h, serve_cons_of_admits h, ih]
    · rw [serve_cons_of_not h, serve_nil]

variable [DecidableEq α]

theorem load_erase (ha : a ∈ g) : P.load (g.erase a) + P.weight a = P.load g := by
  rw [add_comm, ← load_cons]
  exact (((List.perm_cons_erase ha).map P.weight).sum_eq).symm

/-- A customer who leaves the line before being served does not change who was served. -/
theorem serve_erase_of_waiting (ha : a ∉ P.serve m l) :
    P.serve m (l.erase a) =
      P.serve m l ++ P.serve (m + P.load (P.serve m l)) ((P.rest m l).erase a) ∧
    P.rest m (l.erase a) = P.rest (m + P.load (P.serve m l)) ((P.rest m l).erase a) := by
  have hl : l.erase a = P.serve m l ++ (P.rest m l).erase a := by
    conv_lhs => rw [← serve_rest (P := P) (m := m) (l := l)]
    exact List.erase_append_right _ ha
  rw [hl]
  exact ⟨serve_append serve_serve, rest_append serve_serve⟩

end

section
variable {α M : Type*} [AddCommMonoid M] [PartialOrder M] [IsOrderedAddMonoid M]
  {P : Policy α M} {m m' : M} {a : α} {l g r : List α}

theorem serve_of_le (hle : m' ≤ m) (h : P.serve m g = g) : P.serve m' g = g := by
  induction g generalizing m m' with
  | nil => rfl
  | cons a g ih =>
    by_cases ha : P.admits m a
    · rw [serve_cons_of_admits ha] at h
      rw [serve_cons_of_admits (P.antitone hle ha),
        ih (by gcongr) (List.cons.inj h).2]
    · rw [serve_cons_of_not ha] at h
      cases h

/-- Serving a line, freeing something and serving again comes to the same as freeing it at
once. -/
theorem serve_twice (hle : m' ≤ m) :
    P.serve m' l = P.serve m l ++ P.serve (m' + P.load (P.serve m l)) (P.rest m l) ∧
    P.rest m' l = P.rest (m' + P.load (P.serve m l)) (P.rest m l) := by
  have hg : P.serve m' (P.serve m l) = P.serve m l := serve_of_le hle serve_serve
  have hs := serve_append (r := P.rest m l) hg
  have hr := rest_append (r := P.rest m l) hg
  rw [serve_rest] at hs hr
  exact ⟨hs, hr⟩

variable [DecidableEq α] [CanonicallyOrderedAdd M]

theorem serve_erase_self (h : P.serve m g = g) : P.serve m (g.erase a) = g.erase a := by
  induction g generalizing m with
  | nil => rfl
  | cons b g ih =>
    by_cases hb : P.admits m b
    · rw [serve_cons_of_admits hb] at h
      have hg := (List.cons.inj h).2
      by_cases hab : b = a
      · subst hab
        rw [List.erase_cons_head]
        exact serve_of_le le_self_add hg
      · rw [List.erase_cons_tail (by simpa using hab), serve_cons_of_admits hb, ih hg]
    · rw [serve_cons_of_not hb] at h
      cases h

/-- Neither does one who was served and gives everything back: the others go on from there. -/
theorem serve_erase_of_served (ha : a ∈ P.serve m l) :
    P.serve m (l.erase a) = (P.serve m l).erase a ++
      P.serve (m + P.load ((P.serve m l).erase a)) (P.rest m l) ∧
    P.rest m (l.erase a) = P.rest (m + P.load ((P.serve m l).erase a)) (P.rest m l) := by
  have hl : l.erase a = (P.serve m l).erase a ++ P.rest m l := by
    conv_lhs => rw [← serve_rest (P := P) (m := m) (l := l)]
    exact List.erase_append_left _ ha
  have hg : P.serve m ((P.serve m l).erase a) = (P.serve m l).erase a :=
    serve_erase_self serve_serve
  rw [hl]
  exact ⟨serve_append hg, rest_append hg⟩

end
end Lib.Greedy
