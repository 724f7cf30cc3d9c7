import Mathlib.Data.List.Chain
import Mathlib.Data.List.Nodup
import Mathlib.Logic.Function.Basic

/-! # Singly linked chains in a pointer map

`Chain null next p l` says that following `next` from `p` visits exactly `l` and then
reaches `null`. Backward links are `List.IsChain` of the relation `Back prev`. -/
namespace Lib.Linked

variable {α : Type*} {null : α} {next next' prev prev' : α → α} {p a b : α} {l l₁ l₂ : List α}

def Chain (null : α) (next : α → α) : α → List α → Prop
  | p, [] => p = null
  | p, a :: l => p = a ∧ a ≠ null ∧ Chain null next (next a) l

@[simp] theorem chain_nil : Chain null next p [] ↔ p = null := Iff.rfl

@[simp] theorem chain_cons :
    Chain null next p (a :: l) ↔ p = a ∧ a ≠ null ∧ Chain null next (next a) l := Iff.rfl

theorem chain_null : Chain null next null l ↔ l = [] := by
  cases l with
  | nil => simp
  | cons a l =>
    simp only [chain_cons, reduceCtorEq, iff_false]
    exact fun h => h.2.1 h.1.symm

theorem Chain.ne_null (h : Chain null next p l) : ∀ a ∈ l, a ≠ null := by
  induction l generalizing p with
  | nil => simp
  | cons b l ih =>
    intro a ha
    rcases List.mem_cons.mp ha with rfl | ha
    · exact h.2.1
    · exact ih h.2.2 a ha

theorem Chain.head (h : Chain null next p (a :: l)) : p = a := h.1

theorem Chain.eq_nil_iff (h : Chain null next p l) : l = [] ↔ p = null := by
  cases l with
  | nil => simpa using h
  | cons a l => simp [h.1, h.2.1]

theorem Chain.mem_head (h : Chain null next p l) (hp : p ≠ null) : ∃ l', l = p :: l' := by
  cases l with
  | nil => exact absurd h hp
  | cons a l => exact ⟨l, by rw [h.1]⟩

theorem Chain.unique (h₁ : Chain null next p l₁) (h₂ : Chain null next p l₂) : l₁ = l₂ := by
  induction l₁ generalizing p l₂ with
  | nil => exact (chain_null.mp (h₁ ▸ h₂)).symm
  | cons a l₁ ih =>
    obtain ⟨rfl, hne, h₁⟩ := h₁
    obtain ⟨l', rfl⟩ := h₂.mem_head hne
    rw [ih h₁ h₂.2.2]

theorem Chain.congr (h : Chain null next p l) (he : ∀ a ∈ l, next' a = next a) :
    Chain null next' p l := by
  induction l generalizing p with
  | nil => exact h
  | cons a l ih =>
    refine ⟨h.1, h.2.1, ?_⟩
    rw [he a (by simp)]
    exact ih h.2.2 fun b hb => he b (by simp [hb])

theorem Chain.suffix (h : Chain null next p (l₁ ++ a :: l₂)) : Chain null next a (a :: l₂) := by
  induction l₁ generalizing p with
  | nil => exact ⟨rfl, h.2⟩
  | cons b l₁ ih => exact ih h.2.2

theorem Chain.next_eq (h : Chain null next p (l₁ ++ a :: b :: l₂)) : next a = b :=
  h.suffix.2.2.1

theorem Chain.next_last (h : Chain null next p (l₁ ++ [a])) : next a = null := h.suffix.2.2

/-- A finite chain has no repetition: a repeated member would give it two lengths. -/
theorem Chain.nodup (h : Chain null next p l) : l.Nodup := by
  induction l generalizing p with
  | nil => exact List.nodup_nil
  | cons a l ih =>
    refine List.nodup_cons.mpr ⟨?_, ih h.2.2⟩
    intro ha
    obtain ⟨l₁, l₂, rfl⟩ := List.append_of_mem ha
    have hl := Chain.unique h.2.2.suffix (h.1 ▸ h : Chain null next a _)
    have := congrArg List.length hl
    simp at this
    omega

variable [DecidableEq α]

theorem Chain.update (h : Chain null next p l) (ha : a ∉ l) (v : α) :
    Chain null (Function.update next a v) p l :=
  h.congr fun _ hb => Function.update_of_ne (ne_of_mem_of_not_mem hb ha) _ _

theorem Chain.cut (h : Chain null next p (l₁ ++ a :: l₂)) :
    Chain null (Function.update next a null) p (l₁ ++ [a]) := by
  induction l₁ generalizing p with
  | nil => exact ⟨h.1, h.2.1, by simp⟩
  | cons b l₁ ih =>
    have hb : b ≠ a := by
      rintro rfl
      have := h.nodup
      simp at this
    refine ⟨h.1, h.2.1, ?_⟩
    rw [Function.update_of_ne hb]
    exact ih h.2.2

theorem Chain.cut_rest (h : Chain null next p (l₁ ++ a :: l₂)) (v : α) :
    Chain null (Function.update next a v) (next a) l₂ := by
  have hs := h.suffix
  have ha : a ∉ l₂ := (List.nodup_cons.mp hs.nodup).1
  exact hs.2.2.update ha v

theorem Chain.unlink (h : Chain null next p (l₁ ++ b :: a :: l₂)) :
    Chain null (Function.update next b (next a)) p (l₁ ++ b :: l₂) := by
  induction l₁ generalizing p with
  | nil =>
    refine ⟨h.1, h.2.1, ?_⟩
    rw [Function.update_self]
    have hn := List.nodup_cons.mp h.nodup
    exact h.2.2.2.2.update (fun hm => hn.1 (List.mem_cons_of_mem _ hm)) _
  | cons c l₁ ih =>
    have hc : c ≠ b := by
      rintro rfl
      have := h.nodup
      simp at this
    refine ⟨h.1, h.2.1, ?_⟩
    rw [Function.update_of_ne hc]
    exact ih h.2.2

theorem Chain.push (h : Chain null next p l) (ha : a ≠ null) (hn : a ∉ l) :
    Chain null (Function.update next a p) a (a :: l) :=
  ⟨rfl, ha, by rw [Function.update_self]; exact h.update hn p⟩

/-- `b` points back to the element in front of it. -/
def Back (prev : α → α) (a b : α) : Prop := prev b = a

omit [DecidableEq α] in
theorem back_congr (h : l.IsChain (Back prev)) (he : ∀ a ∈ l.tail, prev' a = prev a) :
    l.IsChain (Back prev') := by
  induction l with
  | nil => exact .nil
  | cons a l ih =>
    cases l with
    | nil => exact .singleton _
    | cons b l =>
      rw [List.isChain_cons_cons] at h ⊢
      refine ⟨(he b (by simp)).trans h.1, ih h.2 fun c hc => he c ?_⟩
      simp only [List.tail_cons, List.mem_cons] at hc ⊢
      exact Or.inr hc

theorem back_update (h : l.IsChain (Back prev)) (ha : a ∉ l.tail) (v : α) :
    l.IsChain (Back (Function.update prev a v)) :=
  back_congr h fun _ hb => Function.update_of_ne (ne_of_mem_of_not_mem hb ha) _ _

theorem back_extend (h : (l ++ [a]).IsChain (Back prev)) (hb : b ∉ l ++ [a]) :
    (l ++ [a] ++ [b]).IsChain (Back (Function.update prev b a)) := by
  rw [List.isChain_append]
  refine ⟨back_update h (fun hm => hb (List.mem_of_mem_tail hm)) a, .singleton _, ?_⟩
  intro x hx y hy
  have hx : a = x := by simpa using hx
  have hy : b = y := by simpa using hy
  subst hx hy
  exact Function.update_self ..

omit [DecidableEq α] in
theorem chain_of_back (h : l.IsChain (Back prev)) (hne : ∀ a ∈ l, a ≠ null)
    (hhead : ∀ a ∈ l.head?, prev a = null) (hlast : l.getLast? = some p) :
    Chain null prev p l.reverse := by
  induction l using List.reverseRecOn generalizing p with
  | nil => cases hlast
  | append_singleton l a ih =>
    obtain rfl : a = p := by simpa using hlast
    rw [List.reverse_append, List.reverse_singleton, List.singleton_append]
    refine ⟨rfl, hne a (by simp), ?_⟩
    cases hl : l.getLast? with
    | none =>
      obtain rfl := List.getLast?_eq_none_iff.mp hl
      exact hhead a rfl
    | some b =>
      rw [List.isChain_append] at h
      have hab : prev a = b := h.2.2 b hl a rfl
      rw [hab]
      refine ih h.1 (fun c hc => hne c (List.mem_append_left _ hc)) (fun c hc => ?_) hl
      exact hhead c (by rw [List.head?_append_of_ne_nil _ (by rintro rfl; cases hl)]; exact hc)

/-- Backward links from some element on: null links, then a fully linked rest. -/
def Partial (null : α) (prev : α → α) : List α → Prop
  | a :: b :: l => (prev b = null ∧ Partial null prev (b :: l)) ∨ (a :: b :: l).IsChain (Back prev)
  | _ => True

omit [DecidableEq α] in
theorem partial_of_back (h : l.IsChain (Back prev)) : Partial null prev l := by
  match l with
  | [] | [_] => trivial
  | _ :: _ :: _ => exact Or.inr h

omit [DecidableEq α] in
theorem partial_congr (h : Partial null prev l) (he : ∀ a ∈ l.tail, prev' a = prev a) :
    Partial null prev' l := by
  induction l with
  | nil => trivial
  | cons a l ih =>
    cases l with
    | nil => trivial
    | cons b l =>
      rcases h with ⟨hb, h⟩ | h
      · refine Or.inl ⟨(he b (by simp)).trans hb, ih h fun c hc => he c ?_⟩
        simp only [List.tail_cons, List.mem_cons] at hc ⊢
        exact Or.inr hc
      · exact Or.inr (back_congr h he)

omit [DecidableEq α] in
theorem partial_append (h : Partial null prev l₂) (h₁ : ∀ a ∈ l₁, prev a = null)
    (h₂ : ∀ a ∈ l₂.head?, prev a = null) : Partial null prev (l₁ ++ l₂) := by
  induction l₁ with
  | nil => exact h
  | cons a l₁ ih =>
    have ih := ih fun b hb => h₁ b (by simp [hb])
    cases l₁ with
    | nil =>
      cases l₂ with
      | nil => trivial
      | cons b l₂ => exact Or.inl ⟨h₂ b (by simp), h⟩
    | cons b l₁ => exact Or.inl ⟨h₁ b (by simp), ih⟩

end Lib.Linked
