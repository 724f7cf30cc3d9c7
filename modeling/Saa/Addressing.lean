import Saa.Word
import Mathlib.Data.List.Basic
import Mathlib.Tactic.Common

/-! # Addresses of wait queues, anchors and entries

A `WaitQueue` is 128 bytes at any multiple of 8. Its anchor is the one multiple of 128 in
it, and its `Entry` is in the half without the anchor. Threads find one from the other by
the three conversions of `wait_queue.rs`, all in `usize` arithmetic that may wrap. -/
namespace Saa

open Word

def U64_MAX : ℕ := 2 ^ 64 - 1

def wadd (a b : ℕ) : ℕ := (a + b) % 2 ^ 64

def wsub (a b : ℕ) : ℕ := (a + 2 ^ 64 - b) % 2 ^ 64

/-- Eight bytes of memory: a `u64`, or the `i`-th piece of an `Entry` with this `offset`. -/
inductive MemCell where
  | raw (val : ℕ)
  | entry (offset i : ℕ)
deriving DecidableEq, Repr

abbrev Mem := ℕ → MemCell

/-- The `u64` that a pointer is dereferenced to. -/
def Mem.u64 (m : Mem) (p : ℕ) : ℕ := match m p with
  | .raw val => val
  | .entry .. => 0

/-- The field `offset` of the `Entry` at an address. -/
def Mem.offset (m : Mem) (p : ℕ) : ℕ := match m p with
  | .entry off 0 => off
  | _ => 0

def Mem.store (m : Mem) (p val : ℕ) : Mem := fun x => if x = p then .raw val else m x

/-- The size of an `Entry`, which `_ENTRY_ALIGN_ASSERT` and `_ENTRY_SIZE_ASSERT` restrict. -/
structure Layout where
  size : ℕ
  pos : 0 < size
  aligned : size % 8 = 0
  fits : size ≤ VIRTUAL_ALIGNMENT / 2

/-- `entry_ptr.write(entry)`. -/
def Mem.write (l : Layout) (m : Mem) (p offset : ℕ) : Mem := fun x =>
  if p ≤ x ∧ x < p + l.size then .entry offset ((x - p) / 8) else m x

/-- `WaitQueue::anchor_ptr`: the anchor and its offset in the wait queue. -/
def anchorPtr (addr : ℕ) : ℕ × ℕ :=
  let anchorAddr := if addr % VIRTUAL_ALIGNMENT = 0 then addr
    else wsub (wadd addr VIRTUAL_ALIGNMENT) (addr % VIRTUAL_ALIGNMENT)
  (anchorAddr, wsub anchorAddr addr)

def toEntryPtr (m : Mem) (p : ℕ) : ℕ :=
  let anchorVal := m.u64 p
  if anchorVal = 0 then 0
  else
    let offset := U64_MAX - anchorVal
    let startAddr := wsub p offset
    if offset < VIRTUAL_ALIGNMENT / 2 then wadd startAddr (VIRTUAL_ALIGNMENT / 2) else startAddr

def toAnchorPtr (state : ℕ) : ℕ :=
  let anchorAddr := state &&& ADDR_MASK
  if anchorAddr = 0 then 0 else anchorAddr

def toWaitQueuePtr (m : Mem) (entryPtr : ℕ) : ℕ := wsub entryPtr (m.offset entryPtr)

/-- What `WaitQueue::construct` does to the anchor and to the field `offset`. -/
def construct (l : Layout) (m : Mem) (addr : ℕ) : Mem :=
  let (p, offset) := anchorPtr addr
  if m.u64 p = 0 then
    let m := m.store p (U64_MAX - offset)
    let entryPtr := toEntryPtr m p
    let off := wsub entryPtr addr
    -- `u16::try_from(..).unwrap_or(0)`
    m.write l entryPtr (if off < 2 ^ 16 then off else 0)
  else
    -- The entry exists: other fields of it change.
    m

/-- A place for a `WaitQueue`: a multiple of 8 that leaves 128 bytes of address space. -/
structure Place where
  addr : ℕ
  pos : 0 < addr
  aligned : addr % 8 = 0
  fits : addr + 128 ≤ 2 ^ 64

def Place.Apart (q q' : Place) : Prop := q.addr + 128 ≤ q'.addr ∨ q'.addr + 128 ≤ q.addr

def Zeroed (m : Mem) (q : Place) : Prop :=
  ∀ x, q.addr ≤ x → x < q.addr + 128 → m x = .raw 0

namespace Place
variable (q : Place)

/-- The anchor: the only multiple of 128 in the wait queue. -/
def anchor : ℕ := (q.addr + 127) / 128 * 128

/-- The entry: in the half without the anchor. -/
def entry : ℕ := if q.anchor < q.addr + 64 then q.addr + 64 else q.addr

theorem anchor_aligned : q.anchor % 128 = 0 := Nat.mul_mod_left ..

theorem anchor_inside : q.addr ≤ q.anchor ∧ q.anchor + 8 ≤ q.addr + 128 := by
  have ha := q.aligned
  simp only [anchor]
  omega

theorem entry_apart (l : Layout) :
    q.addr ≤ q.entry ∧ q.entry + l.size ≤ q.addr + 128 ∧
    (q.anchor + 8 ≤ q.entry ∨ q.entry + l.size ≤ q.anchor) := by
  obtain ⟨hle, hlt⟩ := q.anchor_inside
  have hmod := q.anchor_aligned
  have ha := q.aligned
  have hl : l.size ≤ 64 := l.fits
  simp only [entry]
  split <;> omega

theorem anchorPtr_eq : anchorPtr q.addr = (q.anchor, q.anchor - q.addr) := by
  obtain ⟨hle, hlt⟩ := q.anchor_inside
  have hf := q.fits
  have hp : (if q.addr % VIRTUAL_ALIGNMENT = 0 then q.addr
      else wsub (wadd q.addr VIRTUAL_ALIGNMENT) (q.addr % VIRTUAL_ALIGNMENT)) = q.anchor := by
    split
    · next h0 =>
      simp only [VIRTUAL_ALIGNMENT, anchor] at h0 ⊢
      omega
    · next h0 =>
      simp only [VIRTUAL_ALIGNMENT, wsub, wadd, anchor] at h0 ⊢
      omega
  have hoff : wsub q.anchor q.addr = q.anchor - q.addr := by
    simp only [wsub]
    omega
  simp only [anchorPtr, hp, hoff]

theorem Apart.anchor_ne {q q' : Place} (h : q.Apart q') : q.anchor ≠ q'.anchor := by
  obtain ⟨hle, hlt⟩ := q.anchor_inside
  obtain ⟨hle', hlt'⟩ := q'.anchor_inside
  rcases h with h | h <;> omega

end Place

/-- The wait queue has its entry: the anchor holds the complement of its offset, and the
entry the offset of its own. -/
structure Constructed (l : Layout) (m : Mem) (q : Place) : Prop where
  anchor : m q.anchor = .raw (U64_MAX - (q.anchor - q.addr))
  entry : ∀ x, q.entry ≤ x → x < q.entry + l.size →
    m x = .entry (q.entry - q.addr) ((x - q.entry) / 8)

section
variable {l : Layout} {m : Mem} {q q' : Place}

theorem anchorVal_ne (q : Place) : U64_MAX - (q.anchor - q.addr) ≠ 0 := by
  have h := q.anchor_inside
  simp only [U64_MAX]
  omega

theorem toEntryPtr_of (h : m q.anchor = .raw (U64_MAX - (q.anchor - q.addr))) :
    toEntryPtr m q.anchor = q.entry := by
  obtain ⟨hle, hlt⟩ := q.anchor_inside
  have hf := q.fits
  have hu : m.u64 q.anchor = U64_MAX - (q.anchor - q.addr) := by simp only [Mem.u64, h]
  have hoff : U64_MAX - (U64_MAX - (q.anchor - q.addr)) = q.anchor - q.addr := by
    simp only [U64_MAX]
    omega
  simp only [toEntryPtr, hu, hoff, anchorVal_ne, if_false, VIRTUAL_ALIGNMENT, wsub, wadd,
    Place.entry]
  split <;> split <;> omega

theorem Constructed.toWaitQueuePtr (h : Constructed l m q) :
    toWaitQueuePtr m q.entry = q.addr := by
  obtain ⟨hle, hlt, -⟩ := q.entry_apart l
  have hf := q.fits
  have hoff : m.offset q.entry = q.entry - q.addr := by
    have he := h.entry q.entry le_rfl (by have := l.pos; omega)
    rw [Nat.sub_self] at he
    simp only [Mem.offset, he]
  simp only [Saa.toWaitQueuePtr, hoff, wsub]
  omega

theorem toAnchorPtr_eq {w : ℕ} (h : w < 2 ^ 64) : toAnchorPtr w = anchor w := by
  rw [anchor_eq_land h, toAnchorPtr]
  split
  · next h0 => exact h0.symm
  · rfl

theorem toAnchorPtr_join (q : Place) {t : ℕ} (ht : t < 128) :
    toAnchorPtr (join q.anchor t) = q.anchor := by
  obtain ⟨hle, hlt⟩ := q.anchor_inside
  have hmod := q.anchor_aligned
  have hf := q.fits
  rw [join_eq hmod ht, toAnchorPtr_eq (by omega), anchor_eq]
  omega

theorem construct_zeroed (l : Layout) (h : Zeroed m q) :
    Constructed l (construct l m q.addr) q := by
  obtain ⟨hle, hlt⟩ := q.anchor_inside
  obtain ⟨hle', hlt', hapart⟩ := q.entry_apart l
  have hf := q.fits
  have h0 : m.u64 q.anchor = 0 := by simp only [Mem.u64, h q.anchor hle (by omega)]
  let m₁ := m.store q.anchor (U64_MAX - (q.anchor - q.addr))
  have hval : m₁ q.anchor = .raw (U64_MAX - (q.anchor - q.addr)) := if_pos rfl
  have hoff : wsub q.entry q.addr = q.entry - q.addr := by
    simp only [wsub]
    omega
  have hfit : q.entry - q.addr < 2 ^ 16 := by omega
  have hc : construct l m q.addr = m₁.write l q.entry (q.entry - q.addr) := by
    simp only [construct, q.anchorPtr_eq, h0, if_true]
    rw [toEntryPtr_of hval, hoff, if_pos hfit]
  rw [hc]
  constructor
  · rw [Mem.write, if_neg (by omega)]
    exact hval
  · intro x hx hx'
    exact if_pos ⟨hx, hx'⟩

theorem construct_again (h : Constructed l m q) : construct l m q.addr = m := by
  have hu : m.u64 q.anchor ≠ 0 := by
    simp only [Mem.u64, h.anchor]
    exact anchorVal_ne q
  simp only [construct, q.anchorPtr_eq, hu, if_false]

theorem construct_elsewhere (h : Zeroed m q ∨ Constructed l m q) {x : ℕ}
    (hx : x < q.addr ∨ q.addr + 128 ≤ x) : construct l m q.addr x = m x := by
  rcases h with h | h
  · obtain ⟨hle, hlt⟩ := q.anchor_inside
    obtain ⟨hle', hlt', -⟩ := q.entry_apart l
    have h0 : m.u64 q.anchor = 0 := by simp only [Mem.u64, h q.anchor hle (by omega)]
    simp only [construct, q.anchorPtr_eq, h0, if_true]
    rw [toEntryPtr_of (if_pos rfl), Mem.write, if_neg (by omega), Mem.store, if_neg (by omega)]
  · rw [construct_again h]

end

def constructAll (l : Layout) (m : Mem) (built : List Place) : Mem :=
  built.foldl (fun m q => construct l m q.addr) m

section
variable {l : Layout} {m : Mem} {q q' : Place} {qs built : List Place}

theorem Zeroed.construct (hq : Zeroed m q ∨ Constructed l m q) (ha : q.Apart q')
    (h : Zeroed m q') : Zeroed (construct l m q.addr) q' := by
  intro x hx hx'
  rw [construct_elsewhere hq (by rcases ha with ha | ha <;> omega)]
  exact h x hx hx'

theorem Constructed.construct (hq : Zeroed m q ∨ Constructed l m q) (ha : q.Apart q')
    (h : Constructed l m q') : Constructed l (construct l m q.addr) q' := by
  obtain ⟨hle, hlt⟩ := q'.anchor_inside
  obtain ⟨hle', hlt', -⟩ := q'.entry_apart l
  constructor
  · rw [construct_elsewhere hq (by rcases ha with ha | ha <;> omega)]
    exact h.anchor
  · intro x hx hx'
    rw [construct_elsewhere hq (by rcases ha with ha | ha <;> omega)]
    exact h.entry x hx hx'

/-- Each wait queue is untouched until it is constructed, and stays constructed after it. -/
theorem constructAll_spec (hqs : ∀ q ∈ qs, ∀ q' ∈ qs, q ≠ q' → q.Apart q')
    (hsub : ∀ q ∈ built, q ∈ qs) (hm : ∀ q ∈ qs, Zeroed m q ∨ Constructed l m q) :
    ∀ q ∈ qs, Constructed l m q ∨ q ∈ built → Constructed l (constructAll l m built) q := by
  induction built generalizing m with
  | nil =>
    intro q _ h
    exact h.resolve_right (List.not_mem_nil)
  | cons b built ih =>
    have hb : b ∈ qs := hsub b List.mem_cons_self
    have hown : Constructed l (Saa.construct l m b.addr) b := by
      rcases hm b hb with h | h
      · exact construct_zeroed l h
      · rwa [construct_again h]
    have hstep : ∀ q ∈ qs, b ≠ q → (Zeroed m q → Zeroed (Saa.construct l m b.addr) q) ∧
        (Constructed l m q → Constructed l (Saa.construct l m b.addr) q) := by
      intro q hq hne
      have ha := hqs b hb q hq hne
      exact ⟨Zeroed.construct (hm b hb) ha, Constructed.construct (hm b hb) ha⟩
    intro q hq h
    apply ih (fun q hq => hsub q (List.mem_cons_of_mem b hq)) _ q hq
    · by_cases hne : b = q
      · exact .inl (hne ▸ hown)
      · rcases h with h | h
        · exact .inl ((hstep q hq hne).2 h)
        · exact .inr ((List.mem_cons.1 h).resolve_left (Ne.symm hne))
    · intro q hq
      by_cases hne : b = q
      · exact .inr (hne ▸ hown)
      · exact (hm q hq).imp (hstep q hq hne).1 (hstep q hq hne).2

/-- Addressing loses nothing. Let any wait queues that do not overlap be constructed, in any
order and any number of times. Then anchor and entry of each lie in it and not in one
another, the conversions between the three addresses are inverse to one another, an anchor
is read back from any word that it was put into, and no two wait queues share an anchor. -/
theorem addressing_lossless (hqs : ∀ q ∈ qs, ∀ q' ∈ qs, q ≠ q' → q.Apart q')
    (hm : ∀ q ∈ qs, Zeroed m q) (hsub : ∀ q ∈ built, q ∈ qs) :
    (∀ q ∈ built, ∃ p e offset, anchorPtr q.addr = (p, offset) ∧
      p ≠ 0 ∧ p % VIRTUAL_ALIGNMENT = 0 ∧
      q.addr ≤ p ∧ p + 8 ≤ q.addr + 128 ∧
      q.addr ≤ e ∧ e + l.size ≤ q.addr + 128 ∧
      (p + 8 ≤ e ∨ e + l.size ≤ p) ∧
      constructAll l m built p = .raw (U64_MAX - offset) ∧ U64_MAX - offset ≠ 0 ∧
      (∀ x, e ≤ x → x < e + l.size → ∃ off i, constructAll l m built x = .entry off i) ∧
      toEntryPtr (constructAll l m built) p = e ∧
      toWaitQueuePtr (constructAll l m built) e = q.addr ∧
      ∀ t, t ≤ LOCKED_FLAG ||| DATA_MASK → toAnchorPtr (t ||| p) = p) ∧
    ∀ q q' : Place, q.Apart q' → (anchorPtr q.addr).1 ≠ (anchorPtr q'.addr).1 := by
  constructor
  · intro q hq
    have hc : Constructed l (constructAll l m built) q :=
      constructAll_spec hqs hsub (fun q hq => .inl (hm q hq)) q (hsub q hq) (.inr hq)
    obtain ⟨hle, hlt⟩ := q.anchor_inside
    obtain ⟨hle', hlt', hapart⟩ := q.entry_apart l
    have hpos := q.pos
    refine ⟨q.anchor, q.entry, q.anchor - q.addr, q.anchorPtr_eq, by omega, q.anchor_aligned, hle,
      hlt, hle', hlt', hapart, hc.anchor, anchorVal_ne q, ?_, toEntryPtr_of hc.anchor,
      hc.toWaitQueuePtr, ?_⟩
    · intro x hx hx'
      exact ⟨_, _, hc.entry x hx hx'⟩
    · intro t ht
      exact toAnchorPtr_join q (Nat.lt_succ_of_le ht)
  · intro q q' hapart
    rw [q.anchorPtr_eq, q'.anchorPtr_eq]
    exact hapart.anchor_ne

end

/-- Neighbours: the first is perfectly aligned, the second has its anchor in the second half. -/
def neighbours : List Place :=
  [⟨256, by decide, by decide, by decide⟩, ⟨416, by decide, by decide, by decide⟩]

/-- The second one is constructed, then the first one, then both again. -/
theorem addressing_lossless_neighbours :
    ∃ m : Mem, m = constructAll ⟨64, by decide, by decide, by decide⟩ (fun _ => .raw 0)
        (neighbours.reverse ++ neighbours) ∧
      ∃ e, toEntryPtr m 512 = e ∧ toWaitQueuePtr m e = 416 ∧ (anchorPtr 256).1 ≠ 512 := by
  have hapart : ∀ q ∈ neighbours, ∀ q' ∈ neighbours, q ≠ q' → q.Apart q' := by
    simp [neighbours, Place.Apart]
  have hsub : ∀ q ∈ neighbours.reverse ++ neighbours, q ∈ neighbours := by simp
  obtain ⟨hall, hne⟩ := addressing_lossless (m := fun _ => .raw 0)
    (l := ⟨64, by decide, by decide, by decide⟩) hapart (fun _ _ _ _ _ => rfl) hsub
  obtain ⟨p, e, offset, hp, -, -, -, -, -, -, -, -, -, -, hentry, hqueue, -⟩ :=
    hall ⟨416, by decide, by decide, by decide⟩ (by simp [neighbours])
  have h512 : p = 512 := by
    rw [← show (anchorPtr 416).1 = 512 by decide, hp]
  subst h512
  exact ⟨_, rfl, e, hentry, hqueue, by decide⟩

end Saa
