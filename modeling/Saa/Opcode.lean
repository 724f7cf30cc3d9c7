import Saa.Word

/-! # Operation types

`opcode.rs`: what a queued entry asks for, what it holds once granted, and when a
word admits its release. Counts are `u8` in the source; no reachable count is 256 or more. -/
namespace Saa

open Word

inductive Opcode where
  | exclusive
  | shared
  | barrier (waitOnly : Bool)
  | semaphore (count : ℕ)
  | wait (count : ℕ)
  deriving DecidableEq, Repr

/-- `Opcode::can_release`. -/
def Opcode.CanRelease (op : Opcode) (state : ℕ) : Prop :=
  match op with
  | .exclusive => data state = DATA_MASK
  | .shared => 1 ≤ data state ∧ data state ≠ DATA_MASK
  | .semaphore count => count ≤ data state
  | .barrier _ | .wait _ => True

instance (op : Opcode) (state : ℕ) : Decidable (op.CanRelease state) :=
  match op with
  | .exclusive => inferInstanceAs (Decidable (_ = _))
  | .shared => inferInstanceAs (Decidable (_ ∧ _))
  | .semaphore _ => inferInstanceAs (Decidable (_ ≤ _))
  | .barrier _ | .wait _ => inferInstanceAs (Decidable True)

/-- `Opcode::desired_count`. -/
def Opcode.desiredCount : Opcode → ℕ
  | .exclusive => DATA_MASK
  | .shared => 1
  | .barrier waitOnly => if waitOnly then 0 else 1
  | .semaphore count | .wait count => count

/-- `Opcode::acquired_count`. -/
def Opcode.acquiredCount : Opcode → ℕ
  | .exclusive => DATA_MASK
  | .shared => 1
  | .semaphore count => count
  | .barrier _ | .wait _ => 0

/-- The debug assertion of `process_wait_queue`: an entry never takes more than it asks for. -/
theorem acquired_le_desired (op : Opcode) : op.acquiredCount ≤ op.desiredCount := by
  cases op <;> simp [Opcode.acquiredCount, Opcode.desiredCount]

theorem acquired_le_data {op : Opcode} {w : ℕ} (h : op.CanRelease w) :
    op.acquiredCount ≤ data w := by
  cases op with
  | exclusive => exact le_of_eq (Eq.symm h)
  | shared => exact h.1
  | semaphore n => exact h
  | barrier b => exact Nat.zero_le _
  | wait n => exact Nat.zero_le _

/-- The test of `process_wait_queue`: an entry can inherit ownership from `held` units. -/
def Grantable (max held : ℕ) (op : Opcode) : Prop :=
  held = 0 ∨ held + op.desiredCount ≤ max

instance (max held : ℕ) (op : Opcode) : Decidable (Grantable max held op) :=
  inferInstanceAs (Decidable (_ ∨ _))

end Saa
