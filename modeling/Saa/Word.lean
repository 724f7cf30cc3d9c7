import Mathlib.Data.Nat.Bitwise

/-! # The tagged state word

Every primitive keeps one `usize`: the anchor address of the newest waiter, one
flag bit and six data bits. The word is a natural number and the masks are those
of `wait_queue.rs`; the arithmetic forms below are what the proofs compute with. -/
namespace Saa.Word

def VIRTUAL_ALIGNMENT : ℕ := 128

def LOCKED_FLAG : ℕ := VIRTUAL_ALIGNMENT >>> 1

def DATA_MASK : ℕ := LOCKED_FLAG - 1

/-- `WaitQueue::ADDR_MASK` on a 64-bit target. -/
def ADDR_MASK : ℕ := 2 ^ 64 - 1 - (LOCKED_FLAG ||| DATA_MASK)

/-- `state & DATA_MASK`. -/
def data (w : ℕ) : ℕ := w &&& DATA_MASK

/-- `state & LOCKED_FLAG == LOCKED_FLAG`. -/
def Locked (w : ℕ) : Prop := w &&& LOCKED_FLAG = LOCKED_FLAG

instance (w : ℕ) : Decidable (Locked w) := inferInstanceAs (Decidable (_ = _))

/-- `state & !ADDR_MASK`: the flag together with the data. -/
def tag (w : ℕ) : ℕ := w &&& (LOCKED_FLAG ||| DATA_MASK)

/-- `state & ADDR_MASK`, which is also `to_anchor_ptr(state)`: zero is the null pointer. -/
def anchor (w : ℕ) : ℕ := w - tag w

/-- `state | LOCKED_FLAG`. -/
def lock (w : ℕ) : ℕ := w ||| LOCKED_FLAG

/-- An address and a tag put together with `|`. -/
def join (a t : ℕ) : ℕ := t ||| a

theorem data_eq (w : ℕ) : data w = w % 64 := Nat.and_two_pow_sub_one_eq_mod w 6

theorem tag_eq (w : ℕ) : tag w = w % 128 := Nat.and_two_pow_sub_one_eq_mod w 7

theorem anchor_eq (w : ℕ) : anchor w = w - w % 128 := by rw [anchor, tag_eq]

theorem land_flag (w : ℕ) : w &&& 64 = 64 * (w / 64 % 2) := by
  have h := Nat.and_two_pow w 6
  rw [Nat.testBit_eq_decide_div_mod_eq] at h
  rcases Nat.mod_two_eq_zero_or_one (w / 64) with hb | hb
  · simpa [hb] using h
  · simpa [hb] using h

theorem locked_iff (w : ℕ) : Locked w ↔ w / 64 % 2 = 1 := by
  have h := land_flag w
  change w &&& 64 = 64 ↔ _
  omega

theorem lock_eq (w : ℕ) : lock w = if Locked w then w else w + 64 := by
  have hlow : ∀ m < 128, m ||| 64 = if m / 64 % 2 = 1 then m else m + 64 := by decide
  have hd : (w ||| 64) / 128 = w / 128 := by
    have h := Nat.or_div_two_pow (a := w) (b := 64) (n := 7)
    simpa using h
  have hm : (w ||| 64) % 128 = w % 128 ||| 64 := by
    have h := Nat.or_mod_two_pow (a := w) (b := 64) (n := 7)
    simpa using h
  rw [hlow _ (Nat.mod_lt _ (by omega))] at hm
  change w ||| 64 = _
  simp only [locked_iff]
  split at hm <;> split <;> omega

/-- On a 64-bit target the anchor is what the address mask extracts. -/
theorem anchor_eq_land {w : ℕ} (h : w < 2 ^ 64) : anchor w = w &&& ADDR_MASK := by
  have ha : w = (w / 128) * 2 ^ 7 + w % 128 := by omega
  have hm : ADDR_MASK = (2 ^ 57 - 1) * 2 ^ 7 := by decide
  have hq : w / 128 < 2 ^ 57 := by omega
  rw [anchor_eq, hm]
  apply Nat.eq_of_testBit_eq
  intro i
  have hw : w - w % 128 = (w / 128) * 2 ^ 7 := by omega
  rw [hw, Nat.testBit_and, Nat.testBit_mul_two_pow, Nat.testBit_mul_two_pow,
    Nat.testBit_two_pow_sub_one]
  by_cases hi : 7 ≤ i
  · have hsplit : w.testBit i = (w / 128).testBit (i - 7) := by
      have := Nat.testBit_div_two_pow (n := 7) w (i - 7)
      rw [show i - 7 + 7 = i by omega] at this
      exact this.symm
    by_cases hj : i - 7 < 57
    · simp [hi, hj, hsplit]
    · have hz : (w / 128).testBit (i - 7) = false :=
        Nat.testBit_lt_two_pow (lt_of_lt_of_le hq (Nat.pow_le_pow_right (by omega) (by omega)))
      rw [hsplit, hz]
      simp
  · simp [hi]

theorem join_eq {a t : ℕ} (ha : a % 128 = 0) (ht : t < 128) : join a t = a + t := by
  have h := Nat.two_pow_add_eq_or_of_lt (i := 7) ht (a / 128)
  have hm : 2 ^ 7 * (a / 128) = a := by omega
  rw [hm] at h
  rw [join, Nat.or_comm, ← h]

theorem join_tag {a : ℕ} (w : ℕ) (ha : a % 128 = 0) :
    anchor (join a (tag w)) = a ∧ data (join a (tag w)) = data w ∧
    (Locked (join a (tag w)) ↔ Locked w) := by
  have ht : tag w < 128 := by rw [tag_eq]; omega
  rw [join_eq ha ht]
  simp only [anchor_eq, data_eq, locked_iff, tag_eq] at ht ⊢
  omega

theorem join_data (w : ℕ) {d : ℕ} (hd : d < 64) :
    anchor (join (anchor w) d) = anchor w ∧ data (join (anchor w) d) = d ∧
    ¬Locked (join (anchor w) d) := by
  have ha : anchor w % 128 = 0 := by rw [anchor_eq]; omega
  rw [join_eq ha (by omega)]
  simp only [anchor_eq, data_eq, locked_iff] at ha ⊢
  omega

theorem data_lt (w : ℕ) : data w < 64 := by rw [data_eq]; omega

end Saa.Word
