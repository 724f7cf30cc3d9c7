import Saa.Lib.Linked
import Saa.View

/-! # The queue invariant

`Inv` relates the memory of a primitive to the abstract queue of its history. Facts
about the shared state are in `Global`, facts about one thread at its program point in
`Local`, and `Rely` is what a thread needs from the steps of the others. The invariant
then follows step by step from `Inv.advance`. -/
namespace Saa

open Word Lib.Linked

def Req.held (q : Req) : Option Ptr := if q.via = .tryOnly then none else some q.entry

def After.entry : After → Option Ptr
  | .returned => none
  | .finish a | .complete a _ => some a

def Then.entry : Then → Option Ptr
  | .pass _ _ k | .leave k => k.entry
  | .poisoned | .woken => none
  | .acknowledge a => some a
  | .writeBack q | .last q => some q.entry

def Holder.borrowed : Holder → Option Ptr
  | .caller _ => none
  | .entry a => some a

/-- The entry whose `WaitQueue` the running call borrows. -/
def Pc.entry : Pc → Option Ptr
  | .start q | .attempt q _ _ | .push q _ | .pushed q _ | .settle q _ | .settled q
  | .await q _ | .writeBack q _ => q.held
  | .releaseLoop h _ _ => h.borrowed
  | .wakeAll _ _ k | .resolve _ _ _ k | .finalize _ _ _ _ k => k.entry
  | .gateDrop a | .acknowledge a | .remove a _ _ _ _ | .dropLoad a | .dropLoop a _
  | .complete a _ | .finish a => some a
  | .walk _ _ k | .relink _ _ _ k | .back _ _ _ _ _ k | .tailReset _ _ _ _ k
  | .update _ _ _ _ k | .add _ _ _ _ k => k.entry
  | .idle | .fault | .releaseFast _ | .poisonFast | .poisonLoop _ | .clearPoison
  | .gateReset => none

/-- How far the borrowed entry has got. -/
inductive Stage where
  | prep | answered | live | gone | final | over
  deriving DecidableEq, Repr

def After.stage : After → Stage
  | .returned => .over
  | .finish _ => .over
  | .complete _ _ => .gone

def Then.stage : Then → Stage
  | .pass _ _ k | .leave k => k.stage
  | .acknowledge _ => .live
  | .poisoned | .woken | .writeBack _ | .last _ => .prep

def Pc.stage : Pc → Stage
  | .settled _ => .answered
  | .pushed _ _ | .await _ _ | .gateDrop _ | .acknowledge _ | .remove _ _ _ _ _
  | .dropLoad _ => .live
  | .dropLoop _ state => if anchor state = 0 then .gone else .live
  | .releaseLoop _ _ _ => .final
  | .complete _ _ => .gone
  | .finish _ => .over
  | .wakeAll _ _ k | .resolve _ _ _ k | .finalize _ _ _ _ k => k.stage
  | .walk _ _ k | .relink _ _ _ k | .back _ _ _ _ _ k | .tailReset _ _ _ _ k
  | .update _ _ _ _ k | .add _ _ _ _ k => k.stage
  | _ => .prep

def Stage.Admits (t : Tid) : Stage → Stat → Prop
  | .prep, st => st = .idle
  | .answered, st => st = .answered t
  | .live, st => st ≠ .idle ∧ st ≠ .unlinked
  | .gone, st => st ≠ .idle ∧ st ≠ .unlinked ∧ st ≠ .queued
  | .final, st => st = .final
  | .over, st => st = .final ∨ st = .unlinked ∨ st = .idle

def Then.built : Then → Bool
  | .writeBack _ | .last _ => true
  | _ => false

/-- The entry was constructed for the call and is not registered yet. -/
def Pc.built : Pc → Bool
  | .start q | .attempt q _ _ => q.via = .pager || q.goal.constructsEarly
  | .push _ _ | .settle _ _ | .writeBack _ _ => true
  | .resolve _ _ _ k | .finalize _ _ _ _ k => k.built
  | _ => false

/-- The owner set the flag that makes the entry pollable, or saw it set. -/
def Pc.flagged : Pc → Bool
  | .await _ _ | .settled _ => true
  | _ => false

def Pc.reqs : Pc → Option Req
  | .start q | .attempt q _ _ | .push q _ | .pushed q _ | .settle q _ | .settled q
  | .await q _ | .writeBack q _ => some q
  | .resolve _ _ _ (.writeBack q) | .resolve _ _ _ (.last q)
  | .finalize _ _ _ _ (.writeBack q) | .finalize _ _ _ _ (.last q) => some q
  | _ => none

/-- The thread owns the queue: it set `LOCKED_FLAG` and did not clear it. -/
def Pc.Holds : Pc → Prop
  | .walk _ _ _ | .relink _ _ _ _ | .back _ _ _ _ _ _ | .tailReset _ _ _ _ _
  | .update _ _ _ _ _ | .add _ _ _ _ _ | .remove _ _ _ _ _ => True
  | .resolve _ _ _ (.pass _ _ _) | .finalize _ _ _ _ (.pass _ _ _) => True
  | _ => False

def Pc.takePtr : Pc → Ptr
  | .resolve cur _ _ _ => cur
  | .finalize _ next _ _ _ => next
  | .update _ _ _ resolved _ | .add _ _ _ resolved _ => resolved
  | _ => 0

def Pc.answering : Pc → Option Ptr
  | .finalize cur _ _ _ _ => some cur
  | .settled q => some q.entry
  | _ => none

/-- Program points that only one kind of primitive reaches. -/
def Pc.Fits (kind : Kind) : Pc → Prop
  | .poisonFast | .poisonLoop _ | .clearPoison | .resolve _ _ _ .poisoned
  | .finalize _ _ _ _ .poisoned => kind = .lock
  | .wakeAll _ _ k => kind = .gate ∧ (k = .woken ∨ ∃ a, k = .acknowledge a)
  | .push q state => q.via ≠ .tryOnly ∧ (kind = .lock → state ≠ POISONED_STATE)
  | .settle q _ | .settled q => q.via ≠ .tryOnly
  | .pushed q retry => q.via ≠ .tryOnly ∧ (retry = true → q.goal = .arrive)
  | .await q retry => (q.via = .sync ∨ q.via = .async) ∧ (retry = true → q.goal = .arrive)
  | .gateReset | .gateDrop _ | .acknowledge _ | .resolve _ _ _ .woken
  | .finalize _ _ _ _ .woken | .resolve _ _ _ (.acknowledge _)
  | .finalize _ _ _ _ (.acknowledge _) => kind = .gate
  | .writeBack _ _ | .resolve _ _ _ (.writeBack _) | .finalize _ _ _ _ (.writeBack _)
  | .resolve _ _ _ (.last _) | .finalize _ _ _ _ (.last _) => ∃ n, kind = .barrier n
  | .releaseFast op => (kind = .lock ∧ (op = .exclusive ∨ op = .shared)) ∨
      ∃ n c, kind = .semaphore n ∧ op = .semaphore c ∧ c < 256
  | .releaseLoop _ _ _ | .dropLoad _ | .dropLoop _ _ | .complete _ _ => kind ≠ .gate
  | .walk _ _ _ | .relink _ _ _ _ | .back _ _ _ _ _ _ | .tailReset _ _ _ _ _
  | .update _ _ _ _ _ | .add _ _ _ _ _ | .remove _ _ _ _ _ => kind ≠ .gate
  | .resolve _ _ _ (.pass _ _ _) | .finalize _ _ _ _ (.pass _ _ _) => kind ≠ .gate
  | .resolve _ _ _ (.leave _) | .finalize _ _ _ _ (.leave _) => kind ≠ .gate
  | _ => True

/-- The operations an entry of the primitive can ask for. -/
def Opcode.Fits (kind : Kind) : Opcode → Prop
  | .exclusive | .shared => kind = .lock
  | .wait count => count ≤ DATA_MASK ∧ (kind = .lock ∨ kind = .gate)
  | .semaphore count => count ≤ DATA_MASK ∧ ∃ n, kind = .semaphore n
  | .barrier _ => ∃ n, kind = .barrier n

theorem Opcode.Fits.acquired_le {kind : Kind} {op : Opcode} (h : op.Fits kind) :
    op.acquiredCount ≤ DATA_MASK := by
  cases op with
  | semaphore n => exact h.1
  | _ => simp [Opcode.acquiredCount, DATA_MASK, LOCKED_FLAG, VIRTUAL_ALIGNMENT]

/-- How often the result of the current registration was set. -/
def Stat.setCount : Stat → ℕ
  | .answered _ | .final => 1
  | _ => 0

/-- Units a list of entries takes from the word. -/
def total (opcode : Ptr → Opcode) (l : List Ptr) : ℕ :=
  (l.map fun a => (opcode a).acquiredCount).sum

/-- The entries, newest first, were granted one after the other starting from `held`. -/
def Greedy (max : ℕ) (opcode : Ptr → Opcode) (held : ℕ) : List Ptr → Prop
  | [] => True
  | a :: l => Greedy max opcode held l ∧ Grantable max (held + total opcode l) (opcode a)

/-- The queue seen from a snapshot: `newer` was pushed after it, `seg` is what it reaches. -/
structure Snap (s : Cfg) (v : View) (state : ℕ) (newer seg : List Ptr) : Prop where
  split : v.queue = newer ++ seg
  tail : seg.head? = some (anchor state)
  locked : Locked state
  word_locked : Locked s.word
  data_le : data s.word ≤ data state
  newer_prev : ∀ a ∈ newer, s.prev a = 0
  tail_prev : s.prev (anchor state) = 0

/-- What the thread that owns the queue knows at each of its program points. -/
def Hold (kind : Kind) (s : Cfg) (v : View) : Pc → Prop
  | .walk state cur _ => ∃ newer done rest, Snap s v state newer (done ++ cur :: rest) ∧
      (done ++ [cur]).IsChain (Back s.prev)
  | .relink state head cur _ => ∃ newer done rest,
      Snap s v state newer (done ++ cur :: rest) ∧ (done ++ [cur]).IsChain (Back s.prev) ∧
      Partial 0 s.prev (cur :: rest) ∧ (done ++ cur :: rest).getLast? = some head
  | .back state _ cur transferred resolved _ => ∃ newer rest granted,
      Snap s v state newer (rest ++ cur :: granted) ∧
      (rest ++ cur :: granted).IsChain (Back s.prev) ∧
      transferred = total s.opcode granted ∧ resolved = granted.headD 0 ∧
      Greedy kind.maxSharedOwners s.opcode (data state) granted
  | .tailReset state cur transferred resolved _ => ∃ newer granted,
      Snap s v state newer (cur :: granted) ∧
      transferred = total s.opcode granted ∧ resolved = granted.headD 0 ∧
      Greedy kind.maxSharedOwners s.opcode (data state) (cur :: granted)
  | .update state head transferred _ _ => ∃ newer seg,
      Snap s v state newer seg ∧ seg.IsChain (Back s.prev) ∧ seg.getLast? = some head ∧
      ¬Grantable kind.maxSharedOwners (data state + transferred) (s.opcode head)
  | .add state head _ _ _ => ∃ newer seg,
      Snap s v state newer seg ∧ seg.IsChain (Back s.prev) ∧ seg.getLast? = some head
  | .resolve _ _ _ (.pass state head _) | .finalize _ _ _ _ (.pass state head _) =>
      ∃ newer seg, Snap s v state newer seg ∧ Partial 0 s.prev seg ∧
        seg.getLast? = some head
  | .remove a _ state cur again => ∃ newer seg, Snap s v state newer seg ∧ a ∉ newer ∧
      ((∃ done rest, seg = done ++ cur :: rest ∧ (done ++ [cur]).IsChain (Back s.prev) ∧
        a ∉ done ∧ (again = true → a ∈ cur :: rest)) ∨
      (cur = 0 ∧ again = false ∧ a ∉ seg))
  | _ => True

/-- The counters of a pass: what was transferred is the total of what was detached. -/
def Counted (kind : Kind) (s : Cfg) (v : View) (t : Tid) : Pc → Prop
  | .update state _ transferred _ _ | .add state _ transferred _ _ =>
      transferred = total s.opcode (v.taken t) ∧
      Greedy kind.maxSharedOwners s.opcode (data state) (v.taken t)
  | _ => True

structure Global (kind : Kind) (s : Cfg) (v : View) : Prop where
  chain : Chain 0 s.next (anchor s.word) v.queue
  queued : ∀ a, a ∈ v.queue ↔ v.stat a = .queued
  taken : ∀ t a, a ∈ v.taken t ↔ v.stat a = .taken t
  anchors : ∀ a, v.stat a ≠ .idle → IsAnchor a
  alive : ∀ a, v.stat a ≠ .idle → s.slot a ≠ .none
  clear : ∀ a, v.stat a = .queued ∨ (∃ t, v.stat a = .taken t) ∨ v.stat a = .unlinked →
    s.state a = .clear
  set : ∀ a t, v.stat a = .answered t →
    (s.state a).resultSet = true ∧ (s.state a).finalized = false
  final : ∀ a, v.stat a = .final →
    (s.state a).resultSet = true ∧ (s.state a).finalized = true
  pagers : ∀ a, s.slot a = .pager → IsAnchor a ∧ v.stat a ≠ .unlinked ∧
    (s.pollable a = true ↔ v.stat a ≠ .idle) ∧ (v.stat a = .idle → s.state a = .clear)
  tail_prev : ∀ a ∈ v.queue.head?, s.prev a = 0
  opcodes : ∀ a, v.stat a ≠ .idle → (s.opcode a).Fits kind
  sets : ∀ a, v.sets a = (v.stat a).setCount

structure Local (kind : Kind) (s : Cfg) (v : View) (t : Tid) (p : Pc) : Prop where
  slot : ∀ a, p.entry = some a ↔ s.slot a = .used t
  stat : ∀ a, p.entry = some a → p.stage.Admits t (v.stat a)
  anchors : ∀ a, p.entry = some a → IsAnchor a
  built : ∀ a, p.entry = some a → p.built = true →
    s.state a = .clear ∧ s.prev a = 0 ∧ (s.opcode a).Fits kind
  flagged : ∀ a, p.entry = some a → p.flagged = true → s.pollable a = true
  reqs : ∀ q, p.reqs = some q → q.Fits kind ∧ ¬q.goal.TooMany
  fits : p.Fits kind
  answering : ∀ a, p.answering = some a ↔ v.stat a = .answered t
  taken : Chain 0 s.next p.takePtr (v.taken t)
  hold : Hold kind s v p
  counted : Counted kind s v t p

structure Inv (kind : Kind) (s : Cfg) (v : View) : Prop where
  glob : Global kind s v
  loc : ∀ t, Local kind s v t (s.pc t)
  locked : Locked s.word → (∃ t, (s.pc t).Holds) ∨ (kind = .lock ∧ s.word = POISONED_STATE)
  unique : ∀ t u, (s.pc t).Holds → (s.pc u).Holds → t = u

/-- How others may move an entry that a thread borrows. -/
def Progress (st st' : Stat) : Prop :=
  st' = st ∨ (st = .queued ∧ ∃ u, st' = .taken u) ∨
  (∃ u, st = .taken u ∧ st' = .answered u) ∨ ∃ u, st = .answered u ∧ st' = .final

/-- How others may change the queue while a thread owns it. -/
def HoldRely (s : Cfg) (v : View) (s' : Cfg) (v' : View) (u : Tid) : Prop :=
  ∃ newer, v'.queue = newer ++ v.queue ∧
    (∀ a ∈ newer, s'.prev a = 0 ∧ s.slot a ≠ .used u) ∧
    (∀ a ∈ v.queue, s'.prev a = s.prev a ∧ s'.opcode a = s.opcode a) ∧
    Locked s'.word ∧ data s'.word ≤ data s.word

structure Rely (s : Cfg) (v : View) (s' : Cfg) (v' : View) (u : Tid) : Prop where
  slot : ∀ a, s'.slot a = .used u ↔ s.slot a = .used u
  stat : ∀ a, s.slot a = .used u → Progress (v.stat a) (v'.stat a)
  fresh : ∀ a, s.slot a = .used u → v.stat a = .idle →
    s'.state a = s.state a ∧ s'.prev a = s.prev a ∧ s'.opcode a = s.opcode a
  flag : ∀ a, s.slot a = .used u → s.pollable a = true → s'.pollable a = true
  answered : ∀ a, v'.stat a = .answered u ↔ v.stat a = .answered u
  taken : v'.taken u = v.taken u
  links : ∀ a ∈ v.taken u, s'.next a = s.next a ∧ s'.opcode a = s.opcode a
  hold : (s.pc u).Holds → HoldRely s v s' v' u

theorem Stage.admits_progress {t : Tid} {g : Stage} {st st' : Stat} (h : g.Admits t st)
    (hp : Progress st st') (ha : st' = .answered t ↔ st = .answered t) : g.Admits t st' := by
  rcases hp with rfl | ⟨rfl, u, rfl⟩ | ⟨u, rfl, rfl⟩ | ⟨u, rfl, rfl⟩ <;>
    cases g <;> simp_all [Stage.Admits]

theorem Snap.rely {s s' : Cfg} {v v' : View} {state : ℕ} {newer seg pushed : List Ptr}
    (h : Snap s v state newer seg) (hq : v'.queue = pushed ++ v.queue)
    (hp : ∀ a ∈ pushed, s'.prev a = 0) (hs : ∀ a ∈ v.queue, s'.prev a = s.prev a)
    (hl : Locked s'.word) (hd : data s'.word ≤ data s.word) :
    Snap s' v' state (pushed ++ newer) seg where
  split := by rw [hq, h.split, List.append_assoc]
  tail := h.tail
  locked := h.locked
  word_locked := hl
  data_le := hd.trans h.data_le
  newer_prev := by
    intro a ha
    rcases List.mem_append.mp ha with ha | ha
    · exact hp a ha
    · rw [hs a (by rw [h.split]; exact List.mem_append_left _ ha)]
      exact h.newer_prev a ha
  tail_prev := by
    rw [hs _ (by rw [h.split]; exact List.mem_append_right _ (List.mem_of_mem_head? h.tail))]
    exact h.tail_prev

theorem total_congr {o o' : Ptr → Opcode} {l : List Ptr} (h : ∀ a ∈ l, o' a = o a) :
    total o' l = total o l := by
  unfold total
  rw [List.map_congr_left fun a ha => by rw [h a ha]]

theorem greedy_congr {max held : ℕ} {o o' : Ptr → Opcode} {l : List Ptr}
    (h : ∀ a ∈ l, o' a = o a) (hg : Greedy max o held l) : Greedy max o' held l := by
  induction l with
  | nil => trivial
  | cons a l ih =>
    have hl : ∀ b ∈ l, o' b = o b := fun b hb => h b (by simp [hb])
    refine ⟨ih hl hg.1, ?_⟩
    rw [h a (by simp), total_congr hl]
    exact hg.2

theorem Snap.mem {s : Cfg} {v : View} {state : ℕ} {newer seg : List Ptr}
    (h : Snap s v state newer seg) {a : Ptr} (ha : a ∈ seg) : a ∈ v.queue := by
  rw [h.split]
  exact List.mem_append_right _ ha

theorem Hold.of_not_holds {kind : Kind} {s : Cfg} {v : View} {p : Pc} (hh : ¬p.Holds) :
    Hold kind s v p := by
  cases p with
  | walk | relink | back | tailReset | update | add | remove => exact absurd trivial hh
  | resolve cur new act k =>
    cases k with
    | pass => exact absurd trivial hh
    | _ => trivial
  | finalize cur next new act k =>
    cases k with
    | pass => exact absurd trivial hh
    | _ => trivial
  | _ => trivial

theorem Hold.rely {kind : Kind} {s s' : Cfg} {v v' : View} {u : Tid} {p : Pc}
    (h : Hold kind s v p) (hr : p.Holds → HoldRely s v s' v' u)
    (hs : ∀ a, p.entry = some a → s.slot a = .used u) : Hold kind s' v' p := by
  by_cases hh : p.Holds
  swap
  · exact .of_not_holds hh
  obtain ⟨pushed, hq, hp, hm, hl, hd⟩ := hr hh
  have hprev : ∀ a ∈ v.queue, s'.prev a = s.prev a := fun a ha => (hm a ha).1
  have hsnap : ∀ {state newer seg}, Snap s v state newer seg →
      Snap s' v' state (pushed ++ newer) seg :=
    fun hsn => hsn.rely hq (fun a ha => (hp a ha).1) hprev hl hd
  have hop : ∀ a ∈ v.queue, s'.opcode a = s.opcode a := fun a ha => (hm a ha).2
  cases p with
  | walk state cur k =>
    obtain ⟨newer, done, rest, hsn, hc⟩ := h
    refine ⟨_, done, rest, hsnap hsn, back_congr hc fun a ha => hprev a (hsn.mem ?_)⟩
    have := List.mem_of_mem_tail ha
    simp only [List.mem_append, List.mem_cons, List.not_mem_nil, or_false] at this ⊢
    tauto
  | relink state head cur k =>
    obtain ⟨newer, done, rest, hsn, hc, hpart, hlast⟩ := h
    refine ⟨_, done, rest, hsnap hsn, back_congr hc fun a ha => hprev a (hsn.mem ?_),
      partial_congr hpart fun a ha => hprev a (hsn.mem ?_), hlast⟩
    · have := List.mem_of_mem_tail ha
      simp only [List.mem_append, List.mem_cons, List.not_mem_nil, or_false] at this ⊢
      tauto
    · exact List.mem_append_right _ (List.mem_cons_of_mem _ ha)
  | back state head cur tr res k =>
    obtain ⟨newer, rest, granted, hsn, hc, ht, hres, hg⟩ := h
    have hop' : ∀ a ∈ granted, s'.opcode a = s.opcode a := fun a ha =>
      hop a (hsn.mem (List.mem_append_right _ (List.mem_cons_of_mem _ ha)))
    exact ⟨_, rest, granted, hsnap hsn,
      back_congr hc fun a ha => hprev a (hsn.mem (List.mem_of_mem_tail ha)),
      by rw [total_congr hop']; exact ht, hres, greedy_congr hop' hg⟩
  | tailReset state cur tr res k =>
    obtain ⟨newer, granted, hsn, ht, hres, hg⟩ := h
    have hop' : ∀ a ∈ cur :: granted, s'.opcode a = s.opcode a := fun a ha => hop a (hsn.mem ha)
    exact ⟨_, granted, hsnap hsn,
      by rw [total_congr fun a ha => hop' a (List.mem_cons_of_mem _ ha)]; exact ht, hres,
      greedy_congr hop' hg⟩
  | update state head tr res k =>
    obtain ⟨newer, seg, hsn, hc, hlast, hg⟩ := h
    refine ⟨_, seg, hsnap hsn,
      back_congr hc fun a ha => hprev a (hsn.mem (List.mem_of_mem_tail ha)), hlast, ?_⟩
    rw [hop head (hsn.mem (List.mem_of_getLast? hlast))]
    exact hg
  | add state head tr res k =>
    obtain ⟨newer, seg, hsn, hc, hlast⟩ := h
    exact ⟨_, seg, hsnap hsn,
      back_congr hc fun a ha => hprev a (hsn.mem (List.mem_of_mem_tail ha)), hlast⟩
  | remove a found state cur again =>
    obtain ⟨newer, seg, hsn, hna, hor⟩ := h
    refine ⟨_, seg, hsnap hsn, ?_, ?_⟩
    · intro hm'
      rcases List.mem_append.mp hm' with hm' | hm'
      · exact (hp a hm').2 (hs a rfl)
      · exact hna hm'
    · rcases hor with ⟨done, rest, rfl, hc, hrest⟩ | hor
      · refine Or.inl ⟨done, rest, rfl, back_congr hc fun b hb => hprev b (hsn.mem ?_), hrest⟩
        have := List.mem_of_mem_tail hb
        simp only [List.mem_append, List.mem_cons, List.not_mem_nil, or_false] at this ⊢
        tauto
      · exact Or.inr hor
  | resolve cur r n k =>
    cases k with
    | pass state head k =>
      obtain ⟨newer, seg, hsn, hpart, hlast⟩ := h
      exact ⟨_, seg, hsnap hsn,
        partial_congr hpart fun a ha => hprev a (hsn.mem (List.mem_of_mem_tail ha)), hlast⟩
    | _ => trivial
  | finalize cur nxt r n k =>
    cases k with
    | pass state head k =>
      obtain ⟨newer, seg, hsn, hpart, hlast⟩ := h
      exact ⟨_, seg, hsnap hsn,
        partial_congr hpart fun a ha => hprev a (hsn.mem (List.mem_of_mem_tail ha)), hlast⟩
    | _ => trivial
  | _ => trivial

theorem built_prep {p : Pc} (h : p.built = true) : p.stage = .prep := by
  cases p with
  | resolve _ _ _ k =>
    cases k with
    | pass | leave | acknowledge => cases h
    | _ => rfl
  | finalize _ _ _ _ k =>
    cases k with
    | pass | leave | acknowledge => cases h
    | _ => rfl
  | idle | fault | start | attempt | push | settle | writeBack | releaseFast | poisonFast |
    poisonLoop | clearPoison | gateReset =>
    rfl
  | _ => cases h

theorem Local.rely {kind : Kind} {s s' : Cfg} {v v' : View} {u : Tid} {p : Pc}
    (h : Local kind s v u p) (hpc : s.pc u = p) (hr : Rely s v s' v' u) :
    Local kind s' v' u p where
  slot a := (h.slot a).trans (hr.slot a).symm
  stat a ha := Stage.admits_progress (h.stat a ha) (hr.stat a ((h.slot a).mp ha)) (hr.answered a)
  anchors := h.anchors
  built a ha hb := by
    have hu := (h.slot a).mp ha
    have hi := h.stat a ha
    rw [built_prep hb] at hi
    obtain ⟨h₁, h₂, h₃⟩ := hr.fresh a hu hi
    rw [h₁, h₂, h₃]
    exact h.built a ha hb
  flagged a ha hf := hr.flag a ((h.slot a).mp ha) (h.flagged a ha hf)
  reqs := h.reqs
  fits := h.fits
  answering a := (h.answering a).trans (hr.answered a).symm
  taken := by
    rw [hr.taken]
    exact h.taken.congr fun a ha => (hr.links a ha).1
  hold := h.hold.rely (fun hh => hr.hold (hpc ▸ hh)) fun a ha => (h.slot a).mp ha
  counted := by
    have hop : ∀ a ∈ v.taken u, s'.opcode a = s.opcode a := fun a ha => (hr.links a ha).2
    have hc := h.counted
    cases p with
    | update | add =>
      simp only [Counted] at hc ⊢
      rw [hr.taken, total_congr hop]
      exact ⟨hc.1, greedy_congr hop hc.2⟩
    | _ => trivial

/-- The induction step: the shared facts, the facts of the thread that moved, and what
the others rely on. -/
theorem Inv.advance {kind : Kind} {s s' : Cfg} {v v' : View} (h : Inv kind s v) (t : Tid)
    (hpc : ∀ u, u ≠ t → s'.pc u = s.pc u) (hg : Global kind s' v')
    (hl : Local kind s' v' t (s'.pc t)) (hr : ∀ u, u ≠ t → Rely s v s' v' u)
    (hh : (s'.pc t).Holds → (s.pc t).Holds ∨ ∀ u, ¬(s.pc u).Holds)
    (hk : Locked s'.word → (s'.pc t).Holds ∨
      (Locked s.word ∧ ¬(s.pc t).Holds ∧ (s.word = POISONED_STATE → s'.word = POISONED_STATE)) ∨
      (kind = .lock ∧ s'.word = POISONED_STATE)) : Inv kind s' v' where
  glob := hg
  loc u := by
    by_cases hu : u = t
    · subst u; exact hl
    · rw [hpc u hu]; exact (h.loc u).rely rfl (hr u hu)
  locked hw := by
    rcases hk hw with hk | ⟨hs, hn, hp⟩ | hk
    · exact Or.inl ⟨t, hk⟩
    · rcases h.locked hs with ⟨u, hu⟩ | ⟨hkind, hpo⟩
      · have hne : u ≠ t := by rintro rfl; exact hn hu
        exact Or.inl ⟨u, by rw [hpc u hne]; exact hu⟩
      · exact Or.inr ⟨hkind, hp hpo⟩
    · exact Or.inr hk
  unique := by
    have key : ∀ u, u ≠ t → (s'.pc t).Holds → (s'.pc u).Holds → False := by
      intro u hu ht hhu
      rw [hpc u hu] at hhu
      rcases hh ht with hs | hs
      · exact hu (h.unique u t hhu hs)
      · exact hs u hhu
    intro a b ha hb
    by_cases hat : a = t <;> by_cases hbt : b = t
    · rw [hat, hbt]
    · subst a; exact (key b hbt ha hb).elim
    · subst b; exact (key a hat hb ha).elim
    · rw [hpc a hat] at ha; rw [hpc b hbt] at hb; exact h.unique a b ha hb

end Saa
