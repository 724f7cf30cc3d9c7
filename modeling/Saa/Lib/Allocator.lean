import Saa.Lib.Greedy
import Saa.Lib.Refine

/-! # An allocator with a waiting line

The specification of a resource that is shared in units. A request is met at once if
nobody waits and the policy admits it, else it goes to the end of the line. Who is at the
front of the line is served when the policy admits them, in the order of the line. The
allocator can be closed, which sends everybody home, and opened again. -/
namespace Lib.Allocator

open Lib.Greedy Lib.Refine

variable {ι ω : Type*}

structure State (ι ω : Type*) where
  used : ℕ
  /-- Who waits and for what, oldest first. -/
  line : List (ι × ω)
  closed : Bool

inductive Label (ι ω : Type*) where
  | take (o : ω)
  | give (o : ω)
  | join (i : ι) (o : ω)
  | serve (who : List ι)
  | leave (i : ι)
  | close
  | reopen
  deriving DecidableEq, Repr

structure Rules (ω : Type*) where
  policy : Policy ω ℕ
  /-- What may be given back from so many units. -/
  returns : ℕ → ω → Prop
  /-- When the allocator may be closed. -/
  closes : ℕ → Prop

def who (l : List (ι × ω)) : List ι := l.map Prod.fst

def wants (l : List (ι × ω)) : List ω := l.map Prod.snd

inductive Next (R : Rules ω) : State ι ω → Label ι ω → State ι ω → Prop where
  | take {used : ℕ} {o : ω} : R.policy.admits used o →
      Next R ⟨used, [], false⟩ (.take o) ⟨used + R.policy.weight o, [], false⟩
  | give {used : ℕ} {line : List (ι × ω)} {closed : Bool} {o : ω} : R.returns used o →
      Next R ⟨used, line, closed⟩ (.give o) ⟨used - R.policy.weight o, line, closed⟩
  | join {used : ℕ} {line : List (ι × ω)} {i : ι} {o : ω} : i ∉ who line →
      (line = [] → ¬R.policy.admits used o) →
      Next R ⟨used, line, false⟩ (.join i o) ⟨used, line ++ [(i, o)], false⟩
  | serve {used : ℕ} {front rest : List (ι × ω)} : front ≠ [] →
      R.policy.serve used (wants front) = wants front →
      Next R ⟨used, front ++ rest, false⟩ (.serve (who front))
        ⟨used + R.policy.load (wants front), rest, false⟩
  | leave {used : ℕ} {front rest : List (ι × ω)} {i : ι} {o : ω} :
      Next R ⟨used, front ++ (i, o) :: rest, false⟩ (.leave i) ⟨used, front ++ rest, false⟩
  | close {used : ℕ} {line : List (ι × ω)} : R.closes used →
      Next R ⟨used, line, false⟩ .close ⟨0, [], true⟩
  | reopen : Next R ⟨0, [], true⟩ .reopen ⟨0, [], false⟩

/-- The allocator that starts with `used` units in use. -/
def spec (ι : Type*) (R : Rules ω) (used : ℕ) : Spec (State ι ω) (Label ι ω) :=
  ⟨⟨used, [], false⟩, Next R⟩

/-- The waiter is served, goes away or is sent home. -/
def Label.Dismisses (i : ι) : Label ι ω → Prop
  | .serve who => i ∈ who
  | .leave j => j = i
  | .close => True
  | _ => False

def servedBy : List (Label ι ω) → List ι
  | [] => []
  | .serve who :: l => servedBy l ++ who
  | _ :: l => servedBy l

variable {R : Rules ω} {used : ℕ} {x y : State ι ω} {l : List (Label ι ω)} {b : Label ι ω}
  {i : ι} {o : ω} {front rest : List (ι × ω)}

theorem cut_cons {f₁ f₂ r₁ r₂ : List (ι × ω)} {c : ι × ω} (h : f₁ ++ r₁ = f₂ ++ c :: r₂) :
    (∃ m, f₂ = f₁ ++ m ∧ r₁ = m ++ c :: r₂) ∨ ∃ m, f₁ = f₂ ++ c :: m ∧ r₂ = m ++ r₁ := by
  rcases List.append_eq_append_iff.mp h with ⟨m, rfl, rfl⟩ | ⟨m, rfl, hm⟩
  · exact .inl ⟨m, rfl, rfl⟩
  · cases m with
    | nil => exact .inl ⟨[], by simp, by simpa using hm.symm⟩
    | cons d m =>
      rw [List.cons_append, List.cons.injEq] at hm
      obtain ⟨rfl, rfl⟩ := hm
      exact .inr ⟨m, rfl, rfl⟩

theorem Next.stays (hn : Next R x b y) (hx : x.line = front ++ (i, o) :: rest)
    (hb : ¬b.Dismisses i) : (∀ o, b ≠ .take o) ∧
      ∃ front' rest', y.line = front' ++ (i, o) :: rest' ∧
        (servedBy [b] ++ who front').Sublist (who front) := by
  cases hn with
  | take | reopen => simp at hx
  | close => exact absurd trivial hb
  | give => exact ⟨by simp, front, rest, hx, by simp [servedBy]⟩
  | @join _ line j p =>
    obtain rfl : line = front ++ (i, o) :: rest := hx
    exact ⟨by simp, front, rest ++ [(j, p)], by simp, by simp [servedBy]⟩
  | @serve _ f r =>
    refine ⟨by simp, ?_⟩
    rcases cut_cons hx with ⟨m, rfl, rfl⟩ | ⟨m, rfl, -⟩
    · exact ⟨m, rest, rfl, by simp [servedBy, who]⟩
    · exact absurd (show i ∈ who (front ++ (i, o) :: m) by simp [who]) hb
  | @leave _ f r j p =>
    have hne : (j, p) ≠ (i, o) := by
      rintro he
      cases he
      exact hb rfl
    refine ⟨by simp, ?_⟩
    rcases cut_cons hx with ⟨m, rfl, hr⟩ | ⟨m, rfl, rfl⟩
    · cases m with
      | nil => exact absurd (List.cons.inj hr).1 hne
      | cons d m =>
        obtain ⟨rfl, rfl⟩ := List.cons.inj hr
        exact ⟨f ++ m, rest, by simp, by simp [servedBy, who]⟩
    · exact ⟨front, m ++ r, by simp, by simp [servedBy]⟩

theorem servedBy_cons : servedBy (b :: l) = servedBy l ++ servedBy [b] := by
  cases b <;> simp [servedBy]

/-- While somebody waits, units go to those who stood before them and to nobody else, in the
order of the line and to each of them once. -/
theorem no_bypass {A : Spec (State ι ω) (Label ι ω)} (hA : A.next = Next R) (hp : A.Path x y l)
    (hx : x.line = front ++ (i, o) :: rest) (hl : ∀ b ∈ l, ¬b.Dismisses i) :
    (∀ o, .take o ∉ l) ∧ ∃ front' rest', y.line = front' ++ (i, o) :: rest' ∧
      (servedBy l ++ who front').Sublist (who front) := by
  induction hp with
  | done => exact ⟨by simp, front, rest, hx, by simp [servedBy]⟩
  | @step y b z l _ hn ih =>
    obtain ⟨hno, front₁, rest₁, hy, hsub⟩ := ih fun c hc => hl c (List.mem_cons_of_mem _ hc)
    rw [hA] at hn
    obtain ⟨hne, front₂, rest₂, hz, hstep⟩ := hn.stays hy (hl b (List.mem_cons_self ..))
    refine ⟨fun o hm => ?_, front₂, rest₂, hz, ?_⟩
    · rcases List.mem_cons.mp hm with he | hm
      · exact hne o he.symm
      · exact hno o hm
    · rw [servedBy_cons, List.append_assoc]
      exact (hstep.append_left _).trans hsub

end Lib.Allocator
