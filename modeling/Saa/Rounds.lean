import Saa.Barrier

/-! # The generations of a barrier

Count-downs are numbered in the order they happen and cut into blocks of the size of the
barrier. `Rounded` says where the entry of every count-down is until its call returns, and
what the counter has to do with the block. It holds in every run in which no dropped future
locks the queue of an unfinished generation. -/
namespace Saa

open Word Lib.Linked Lib.Trace

/-- What the history says about the generations. -/
structure Rounds where
  view : View
  /-- Count-downs so far. -/
  arrived : ℕ
  /-- How often the counter was written back. -/
  backs : ℕ
  /-- The number of the count-down of an entry, until its call returns or is dropped. -/
  number : Ptr → Option ℕ

def Rounds.observe (m : Rounds) (e : Event) : Rounds where
  view := m.view.observe e
  arrived := match e with
    | .countDown _ _ _ | .last _ _ => m.arrived + 1
    | _ => m.arrived
  backs := match e with
    | .writeBack _ _ => m.backs + 1
    | _ => m.backs
  number := match e with
    | .countDown _ a _ | .last _ a => Function.update m.number a (some m.arrived)
    | .consume _ a _ | .dropped _ a => Function.update m.number a none
    | _ => m.number

def rounds (h : List Event) : Rounds := fold Rounds.observe ⟨.initial, 0, 0, fun _ => none⟩ h

@[simp] theorem rounds_cons (e : Event) (h : List Event) :
    rounds (e :: h) = (rounds h).observe e := rfl

@[simp] theorem rounds_view (h : List Event) : (rounds h).view = view h := by
  induction h with
  | nil => rfl
  | cons e h ih => simp [Rounds.observe, ih]

/-- The result of the count-down number `i`: one for the last of its block. -/
def code (size i : ℕ) : ℕ := if i % size + 1 = size then 1 else 0

/-- All count-downs of the block of `i` have happened. -/
def Rounds.Full (m : Rounds) (size i : ℕ) : Prop := (i / size + 1) * size ≤ m.arrived

instance (m : Rounds) (size i : ℕ) : Decidable (m.Full size i) :=
  inferInstanceAs (Decidable (_ ≤ _))

def Pc.fresh : Pc → Option Req
  | .start q | .attempt q _ _ | .push q _ | .pushed q true | .await q true => some q
  | _ => none

def Pc.entered : Pc → Option Req
  | .pushed q false | .await q false | .settle q _ | .settled q | .writeBack q _
  | .resolve _ _ _ (.writeBack q) | .finalize _ _ _ _ (.writeBack q)
  | .resolve _ _ _ (.last q) | .finalize _ _ _ _ (.last q) => some q
  | _ => none

def Pc.arriver : Pc → Option Req
  | .writeBack q _ | .resolve _ _ _ (.writeBack q) | .finalize _ _ _ _ (.writeBack q)
  | .resolve _ _ _ (.last q) | .finalize _ _ _ _ (.last q) => some q
  | _ => none

/-- The last arriver, before it writes the counter back. -/
def Pc.Closing : Pc → Prop
  | .writeBack _ _ | .resolve _ _ _ (.writeBack _) | .finalize _ _ _ _ (.writeBack _) => True
  | _ => False

/-- Where the entry of the count-down number `i` is: it waits in the queue, or its block is
full and its result is on the way or stored. -/
def Placed (size : ℕ) (s : Cfg) (m : Rounds) (a : Ptr) (i : ℕ) : Prop :=
  m.view.stat a = .queued ∨ m.Full size i ∧ (Gets s m.view a (code size i) ∨
    i % size + 1 = size ∧ ∃ t q, (s.pc t).arriver = some q ∧ q.entry = a)

/-- A generation is filling: the counter is what is missing from it. -/
structure Filling (size : ℕ) (s : Cfg) (m : Rounds) : Prop where
  calm : ∀ t, ¬(s.pc t).Closing
  free : ∀ t, ¬(s.pc t).Holds
  sum : data s.word + m.view.queue.length = size
  pos : data s.word ≠ 0
  arrived : m.arrived = m.backs * size + m.view.queue.length
  numbers : ∀ a ∈ m.view.queue, ∃ j, m.number a = some (m.backs * size + j) ∧
    j < m.view.queue.length

/-- A generation is full, and its last arriver `t` has not written the counter back. -/
structure Closed (size : ℕ) (s : Cfg) (m : Rounds) (t : Tid) : Prop where
  closing : (s.pc t).Closing
  only : ∀ u, u ≠ t → ¬(s.pc u).Closing
  zero : data s.word = 0
  exact : (s.pc t).reckons (m.view.taken t).length = size
  arrived : m.arrived = (m.backs + 1) * size
  numbers : ∀ a ∈ m.view.queue, m.number a = none

structure Rounded (size : ℕ) (s : Cfg) (m : Rounds) : Prop where
  fresh : ∀ t q, (s.pc t).fresh = some q → m.number q.entry = none
  entered : ∀ t q, (s.pc t).entered = some q → ∃ i, m.number q.entry = some i
  placed : ∀ a i, m.number a = some i → Placed size s m a i
  light : ∀ t o op state, s.pc t = .releaseLoop o op state → op.acquiredCount = 0
  phase : Filling size s m ∨ ∃ t, Closed size s m t

/-- The step breaks into an unfinished generation: a drop locks the queue while the counter
is not zero, to remove its entry or at the end of its release loop, or a last arriver meets
the flag. -/
def Disturbs (s : Cfg) : Action → Prop
  | .run t => match s.pc t with
    | .dropLoop _ state | .releaseLoop _ _ state =>
      s.word = state ∧ ¬Locked state ∧ anchor state ≠ 0 ∧ data state ≠ 0
    | _ => Intrudes s (.run t)
  | .call _ _ | .cancel _ => False

section
variable {n size : ℕ} {s s' : Cfg} {m : Rounds} {h : List Event} {t u : Tid} {a : Ptr} {i : ℕ}
  {q : Req} {act : Action} {e : Event} {p p' : Pc}

theorem Intrudes.disturbs (hx : Intrudes s act) : Disturbs s act := by
  cases act with
  | call | cancel => exact hx
  | run t =>
    simp only [Disturbs]
    split
    · next hpc =>
      simp only [Intrudes, hpc] at hx
    · next hpc =>
      simp only [Intrudes, hpc] at hx
    · exact hx

theorem Inv.call_entry {v : View} (hi : Inv (.barrier n) s v) (hq : (s.pc t).reqs = some q) :
    q.held = some q.entry := by
  have hf := ((hi.loc t).reqs q hq).1
  obtain ⟨hv | hv, -⟩ := arrive_fits hf (hi.arrives hq) <;> simp [Req.held, hv]

theorem fresh_reqs (hp : p.fresh = some q) : p.reqs = some q ∧ p.entry = q.held := by
  unfold Pc.fresh at hp
  split at hp <;> cases hp <;> exact ⟨rfl, rfl⟩

theorem entered_reqs (hp : p.entered = some q) :
    p.reqs = some q ∧ (p.entry = q.held ∨ p.entry = some q.entry) := by
  cases p with
  | pushed _ retry =>
    cases retry <;> cases hp
    exact ⟨rfl, .inl rfl⟩
  | await _ retry =>
    cases retry <;> cases hp
    exact ⟨rfl, .inl rfl⟩
  | settle | settled | writeBack =>
    cases hp
    exact ⟨rfl, .inl rfl⟩
  | resolve _ _ _ k | finalize _ _ _ _ k =>
    cases k <;> cases hp
    · exact ⟨rfl, .inr rfl⟩
    · exact ⟨rfl, .inr rfl⟩
  | _ => cases hp

theorem arriver_entered (hp : p.arriver = some q) : p.entered = some q := by
  unfold Pc.arriver at hp
  split at hp <;> cases hp <;> rfl

theorem Inv.fresh_used {v : View} (hi : Inv (.barrier n) s v) (hp : (s.pc t).fresh = some q) :
    s.slot q.entry = .used t := by
  obtain ⟨hreq, hent⟩ := fresh_reqs hp
  exact ((hi.loc t).slot _).mp (hent.trans (hi.call_entry hreq))

theorem Inv.entered_used {v : View} (hi : Inv (.barrier n) s v) (hp : (s.pc t).entered = some q) :
    s.slot q.entry = .used t := by
  obtain ⟨hreq, hent | hent⟩ := entered_reqs hp
  · exact ((hi.loc t).slot _).mp (hent.trans (hi.call_entry hreq))
  · exact ((hi.loc t).slot _).mp hent

def Event.Renumbers (a : Ptr) : Event → Prop
  | .countDown _ b _ | .last _ b | .consume _ b _ | .dropped _ b => a = b
  | _ => False

theorem number_observe (h : ¬e.Renumbers a) : (m.observe e).number a = m.number a := by
  cases e with
  | countDown | last | consume | dropped => exact Function.update_of_ne h _ _
  | _ => rfl

theorem Took.renumbers (ht : Took (.barrier n) s m.view t act e s') (hr : e.Renumbers a) :
    s.slot a = .used t ∨ s.slot a = .pager := by
  have hfresh : ∀ q, (s.pc t).fresh = some q → s.slot q.entry = .used t := fun q =>
    ht.inv.fresh_used
  have hent : ∀ q, (s.pc t).entered = some q → s.slot q.entry = .used t := fun q =>
    ht.inv.entered_used
  have hl := ht.inv.loc t
  have hmv := ht.move
  generalize s.pc t = p at hmv hfresh hent hl
  generalize s'.pc t = p' at hmv
  cases hmv with
  | gate hg => cases hg
  | poll hsl | dropIdle hsl =>
    obtain rfl := hr
    exact .inr hsl
  | last | countDown =>
    obtain rfl := hr
    exact .inl (hfresh _ rfl)
  | consume =>
    obtain rfl := hr
    exact .inl (hent _ rfl)
  | finish =>
    obtain rfl := hr
    exact .inl ((hl.slot _).mp rfl)
  | _ => exact hr.elim

theorem Took.number_other (ht : Took (.barrier n) s m.view t act e s') (hu : u ≠ t)
    (hsl : s.slot a = .used u) : (m.observe e).number a = m.number a := by
  refine number_observe fun hr => ?_
  rcases ht.renumbers hr with hx | hx <;> rw [hsl] at hx <;> cases hx
  exact hu rfl

theorem Placed.alive (hp : Placed size s m a i) (hi : Inv (.barrier n) s m.view)
    (hidle : m.view.stat a = .idle) : ∃ u, s.slot a = .used u := by
  rcases hp with hp | ⟨-, (⟨u, hp, -⟩ | ⟨u, q, hp, rfl⟩ | ⟨hp | ⟨u, hp⟩, -⟩) | ⟨-, u, q, hp, rfl⟩⟩
  · rw [hidle] at hp
    cases hp
  · rw [hidle] at hp
    cases hp
  · exact ⟨u, hi.entered_used (by rw [hp]; rfl)⟩
  · rw [hidle] at hp
    cases hp
  · rw [hidle] at hp
    cases hp
  · exact ⟨u, hi.entered_used (arriver_entered hp)⟩

theorem Took.uncounted (ht : Took (.barrier n) s m.view t act e s') (hr : Rounded size s m)
    (hp : (s'.pc t).fresh = some q) : (m.observe e).number q.entry = none := by
  have hfresh := hr.fresh t
  have harr : ∀ q, (s.pc t).reqs = some q → q.goal = .arrive := fun q => ht.inv.arrives
  have hmv := ht.move
  generalize s.pc t = p at hmv hfresh harr
  generalize s'.pc t = p' at hmv hp
  cases hmv with
  | gate hg => cases hg
  | enter hin =>
    cases hin with
    | gate hg => cases hg
    | _ => cases hp
  | drop | cancel => cases hp
  | @unreleased o | @release o => cases o <;> cases hp
  | @leave _ _ k => cases k <;> cases hp
  | @acquire q' hf _ hnew =>
    cases hp
    have hv : q.via ≠ .tryOnly := by
      unfold Req.Fits at hf
      split at hf <;> simp_all
      rcases hf with hf | hf <;> rw [hf] <;> simp
    obtain ⟨hidle, hslot⟩ := hnew hv
    by_contra hne
    obtain ⟨j, hj⟩ := Option.ne_none_iff_exists'.mp hne
    obtain ⟨u, hu⟩ := (hr.placed _ j hj).alive ht.inv hidle
    exact hslot u hu
  | load | reload | waitOnly | again =>
    cases hp
    exact hfresh _ rfl
  | spin hne | queue hne => exact absurd (harr _ rfl) hne
  | @push q' =>
    rw [harr q' rfl] at hp
    cases hp
    exact hfresh _ rfl
  | @wait q' retry =>
    cases retry with
    | true =>
      cases hp
      exact hfresh _ rfl
    | false => cases hp
  | @pending q' retry =>
    cases retry with
    | true =>
      cases hp
      exact hfresh _ rfl
    | false => cases hp
  | retry =>
    cases hp
    exact hfresh _ rfl
  | _ => cases hp

theorem Took.entered (ht : Took (.barrier n) s m.view t act e s') (hr : Rounded size s m)
    (hp : (s'.pc t).entered = some q) : ∃ i, (m.observe e).number q.entry = some i := by
  have hent := hr.entered t
  have harr : ∀ q, (s.pc t).reqs = some q → q.goal = .arrive := fun q => ht.inv.arrives
  have hmv := ht.move
  generalize s.pc t = p at hmv hent harr
  generalize s'.pc t = p' at hmv hp
  cases hmv with
  | gate hg => cases hg
  | enter hin =>
    cases hin with
    | gate hg => cases hg
    | _ => cases hp
  | drop | cancel => cases hp
  | @unreleased o | @release o => cases o <;> cases hp
  | @leave _ _ k => cases k <;> cases hp
  | answer hne => exact absurd (harr _ rfl) hne
  | take => exact absurd rfl ht.no_acquire
  | last | countDown =>
    cases hp
    exact ⟨m.arrived, Function.update_self ..⟩
  | @push q' =>
    rw [harr q' rfl] at hp
    cases hp
  | @wait q' retry =>
    cases retry with
    | true => cases hp
    | false =>
      cases hp
      exact hent _ rfl
  | @pending q' retry =>
    cases retry with
    | true => cases hp
    | false =>
      cases hp
      exact hent _ rfl
  | settle | settledWait | writeBack | counted | arrived =>
    cases hp
    exact hent _ rfl
  | @set _ _ _ k =>
    cases k <;> cases hp <;> exact hent _ rfl
  | @finalize _ _ _ _ k =>
    cases k <;> cases hp <;> exact hent _ rfl
  | _ => cases hp

theorem Took.light (ht : Took (.barrier n) s m.view t act e s') (hr : Rounded size s m)
    {o : Holder} {op : Opcode} {state : ℕ} (hp : s'.pc t = .releaseLoop o op state) :
    op.acquiredCount = 0 := by
  have hlight := hr.light t
  have hfits := (ht.inv.loc t).fits
  have hmv := ht.move
  generalize s.pc t = p at hmv hlight hfits
  generalize s'.pc t = p' at hmv hp
  cases hmv with
  | gate hg => cases hg
  | enter hin =>
    cases hin with
    | gate hg => cases hg
    | _ => cases hp
  | drop | cancel => cases hp
  | @unreleased o | @release o => cases o <;> cases hp
  | @leave _ _ k => cases k <;> cases hp
  | slow =>
    rcases hfits with ⟨hk, -⟩ | ⟨_, _, hk, -⟩ <;> cases hk
  | reRelease =>
    cases hp
    exact hlight _ _ _ rfl
  | @complete b state hst =>
    cases hp
    have htot : total s.opcode [b] = 0 := ht.inv.barrier_total fun c hc => by
      rw [List.mem_singleton.mp hc, hst]
      simp
    simpa [total] using htot
  | _ => cases hp

theorem block_of {b j : ℕ} (hj : j < size) :
    (b * size + j) / size = b ∧ (b * size + j) % size = j := by
  constructor
  · rw [Nat.mul_comm, Nat.mul_add_div (by omega), Nat.div_eq_of_lt hj, Nat.add_zero]
  · rw [Nat.mul_comm, Nat.mul_add_mod, Nat.mod_eq_of_lt hj]

theorem arrived_le (m : Rounds) (e : Event) : m.arrived ≤ (m.observe e).arrived := by
  cases e with
  | countDown | last => exact Nat.le_succ _
  | _ => exact le_rfl

theorem Rounds.Full.mono (hf : m.Full size i) (e : Event) : (m.observe e).Full size i :=
  hf.trans (arrived_le m e)

theorem Took.takes_all {x : Tid} (ht : Took (.barrier n) s m.view t act (.last x a) s') :
    x = t ∧ ∃ q, q.entry = a ∧ (s.pc t).fresh = some q ∧
      s'.pc t = .resolve (anchor s.word) 0 0 (.writeBack q) := by
  have hmv := ht.move
  generalize s.pc t = p at hmv
  generalize s'.pc t = p' at hmv
  cases hmv with
  | gate hg => cases hg
  | last => exact ⟨rfl, _, rfl, rfl, rfl⟩

theorem Took.retries {x : Tid} (ht : Took (.barrier n) s m.view t act (.retry x a) s') :
    ∃ q, q.entry = a ∧ (s.pc t).fresh = some q := by
  have hmv := ht.move
  generalize s.pc t = p at hmv
  generalize s'.pc t = p' at hmv
  cases hmv with
  | gate hg => cases hg
  | retry => exact ⟨_, rfl, rfl⟩

theorem Filling.waits (hf : Filling size s m) (ht : Took (.barrier n) s m.view t act e s')
    (ha : m.view.stat a = .queued) (hne : ∀ b, e ≠ .last t b) :
    (m.view.observe e).stat a = .queued := by
  rw [← ht.inv.glob.queued] at ha
  rw [← ht.inv'.glob.queued]
  have hcalm := hf.calm t
  have hfree := hf.free t
  have hfits := (ht.inv.loc t).fits
  have hmv := ht.move
  generalize s.pc t = p at hmv hcalm hfree hfits
  generalize s'.pc t = p' at hmv
  cases hmv with
  | gate hg => cases hg
  | poisonFast | poison => cases hfits
  | last => exact absurd rfl (hne _)
  | writeBack => exact absurd trivial hcalm
  | cut | tailCut | tailReset | unlink | unlinkOnly => exact absurd trivial hfree
  | push | countDown => exact List.mem_cons_of_mem _ ha
  | _ => exact ha

theorem Took.arriver (ht : Took (.barrier n) s m.view t act e s') (hp : (s.pc t).arriver = some q) :
    (s'.pc t).arriver = some q ∨ s'.pc t = .settle q 1 := by
  have hmv := ht.move
  generalize s.pc t = p at hmv hp
  generalize s'.pc t = p' at hmv
  cases hmv with
  | gate hg => cases hg
  | own htry | take htry => rcases htry with rfl | ⟨_, _, rfl⟩ <;> cases hp
  | writeBack | counted => exact .inl hp
  | arrived =>
    cases hp
    exact .inr rfl
  | @set _ _ _ k | @finalize _ _ _ _ k => cases k <;> exact .inl hp
  | _ => cases hp

theorem Took.placed (ht : Took (.barrier n) s m.view t act e s') (hr : Rounded size s m)
    (ha : (m.observe e).number a = some i) : Placed size s' (m.observe e) a i := by
  by_cases hren : e.Renumbers a
  · have hef := ht.effect
    cases e with
    | countDown x b op =>
      obtain rfl := hren
      exact .inl (Function.update_self ..)
    | last x b =>
      obtain rfl := hren
      obtain ⟨-, hd, -⟩ := hef
      obtain ⟨rfl, q, rfl, -, hp'⟩ := ht.takes_all
      simp only [Rounds.observe, Function.update_self, Option.some.injEq] at ha
      subst ha
      rcases hr.phase with hf | ⟨u, hc⟩
      swap
      · rw [hc.zero] at hd
        cases hd
      have hsum := hf.sum
      have harr := hf.arrived
      obtain ⟨h₁, h₂⟩ := block_of (b := m.backs) (show m.view.queue.length < size by omega)
      rw [← harr] at h₁ h₂
      refine .inr ⟨?_, .inr ⟨by omega, x, q, by rw [hp']; rfl, rfl⟩⟩
      simp only [Rounds.Full, Rounds.observe, h₁, Nat.add_mul]
      omega
    | consume x b r =>
      obtain rfl := hren
      simp [Rounds.observe] at ha
    | dropped x b =>
      obtain rfl := hren
      simp [Rounds.observe] at ha
    | _ => exact hren.elim
  rw [number_observe hren] at ha
  rcases hr.placed a i ha with hq | ⟨hfull, hrest⟩
  · rcases hr.phase with hf | ⟨u, hc⟩
    swap
    · rw [hc.numbers a ((ht.inv.glob.queued a).mpr hq)] at ha
      cases ha
    by_cases hlast : ∃ b, e = .last t b
    swap
    · exact .inl (hf.waits ht hq fun b hb => hlast ⟨b, hb⟩)
    obtain ⟨b, rfl⟩ := hlast
    have hmem := (ht.inv.glob.queued a).mpr hq
    obtain ⟨j, hj, hlt⟩ := hf.numbers a hmem
    obtain rfl : i = m.backs * size + j := by
      rw [ha] at hj
      exact Option.some.inj hj
    have hsum := hf.sum
    have harr := hf.arrived
    have hd : data s.word = 1 := ht.effect.2.1
    obtain ⟨-, q, -, -, hp'⟩ := ht.takes_all
    obtain ⟨h₁, h₂⟩ := block_of (b := m.backs) (show j < size by omega)
    refine .inr ⟨?_, .inl (.inl ⟨t, ?_, ?_⟩)⟩
    · simp only [Rounds.Full, Rounds.observe, h₁, Nat.add_mul]
      omega
    · simp [Rounds.observe, View.observe, View.detach, hmem]
    · rw [hp', code, h₂, if_neg (by omega)]
      rfl
  refine .inr ⟨hfull.mono e, ?_⟩
  rcases hrest with hg | ⟨hlast, u, q, hp, rfl⟩
  · refine .inl (ht.gets hg fun hidle => ?_)
    rcases stat_ends hidle with h | ⟨x, c, rfl⟩ | ⟨x, rfl⟩ | ⟨x, rfl⟩
    · exact h
    · exact absurd rfl hren
    · obtain ⟨q, rfl, hq⟩ := ht.retries
      rw [hr.fresh t q hq] at ha
      cases ha
    · exact absurd rfl hren
  · by_cases hu : u = t
    · subst hu
      rcases ht.arriver hp with hp' | hp'
      · exact .inr ⟨hlast, u, q, hp', rfl⟩
      · refine .inl (.inr (.inl ⟨u, q, ?_, rfl⟩))
        rw [hp', code, if_pos hlast]
    · exact .inr ⟨hlast, u, q, by rw [ht.frame.pc u hu]; exact hp, rfl⟩

theorem Took.closes (ht : Took (.barrier n) s m.view t act e s') (hp : (s'.pc t).Closing) :
    (s.pc t).Closing ∨ ∃ b, e = .last t b := by
  have hmv := ht.move
  generalize s.pc t = p at hmv
  generalize s'.pc t = p' at hmv hp
  cases hmv with
  | gate hg => cases hg
  | enter hin =>
    cases hin with
    | gate hg => cases hg
    | _ => exact hp.elim
  | @unreleased o | @release o => cases o <;> exact hp.elim
  | @leave _ _ k => cases k <;> exact hp.elim
  | last => exact .inr ⟨_, rfl⟩
  | counted => exact .inl trivial
  | @set _ _ _ k | @finalize _ _ _ _ k =>
    cases k with
    | writeBack => exact .inl trivial
    | _ => exact hp.elim
  | _ => exact hp.elim

theorem Took.locks (ht : Took (.barrier n) s m.view t act e s') (hp : (s'.pc t).Holds)
    (hno : ¬(s.pc t).Holds) : data s.word = 0 ∨ Disturbs s act := by
  have hmv := ht.move
  generalize hpc : s.pc t = p at hmv hno
  generalize s'.pc t = p' at hmv hp
  by_cases hd : data s.word = 0
  · exact .inl hd
  right
  cases hmv with
  | gate hg => cases hg
  | enter hin =>
    cases hin with
    | gate hg => cases hg
    | _ => exact hp.elim
  | @unreleased o | @release o => cases o <;> exact hp.elim
  | @leave _ _ k => cases k <;> exact hp.elim
  | lockQueue hn hz | releasePass _ hz hn =>
    simp only [Disturbs, hpc]
    exact ⟨trivial, hn, hz, hd⟩
  | @set _ _ _ k | @finalize _ _ _ _ k =>
    cases k with
    | pass => exact absurd trivial hno
    | _ => exact hp.elim
  | walk | walked | relink | relinked | back | backTail | cut | tailCut | missed | add | pass |
    seek | missing | unlink =>
    exact absurd trivial hno
  | _ => exact hp.elim

theorem Took.number_queued (ht : Took (.barrier n) s m.view t act e s') (ha : a ∈ m.view.queue) :
    (m.observe e).number a = m.number a := by
  refine number_observe fun hr => ?_
  have hst := (ht.inv.glob.queued a).mp ha
  have hl := ht.inv.loc t
  have hent : ∀ q, (s.pc t).fresh = some q → (s.pc t).entry = some q.entry := by
    intro q hq
    obtain ⟨hreq, he⟩ := fresh_reqs hq
    exact he.trans (ht.inv.call_entry hreq)
  have hmv := ht.move
  generalize s.pc t = p at hmv hl hent
  generalize s'.pc t = p' at hmv
  cases hmv with
  | gate hg => cases hg
  | last | countDown =>
    obtain rfl := hr
    have hidle := hl.stat _ (hent _ rfl)
    rw [hst] at hidle
    cases hidle
  | poll _ hx | dropIdle _ hx | consume hx =>
    obtain rfl := hr
    rw [hst] at hx
    cases hx
  | finish =>
    obtain rfl := hr
    rcases hl.stat _ rfl with hx | hx | hx <;> rw [hst] at hx <;> cases hx
  | _ => exact hr

theorem Filling.stay (hf : Filling size s m) (ht : Took (.barrier n) s m.view t act e s')
    (hok : ¬Disturbs s act) (hlast : ∀ b, e ≠ .last t b)
    (hq : (m.view.observe e).queue = m.view.queue) (hd : data s'.word = data s.word)
    (harr : (m.observe e).arrived = m.arrived) (hback : (m.observe e).backs = m.backs) :
    Filling size s' (m.observe e) where
  calm u := by
    by_cases hu : u = t
    · subst hu
      intro hp
      rcases ht.closes hp with hp | ⟨b, hb⟩
      · exact hf.calm u hp
      · exact hlast b hb
    · rw [ht.frame.pc u hu]
      exact hf.calm u
  free u := by
    by_cases hu : u = t
    · subst hu
      intro hp
      rcases ht.locks hp (hf.free u) with hz | hx
      · exact hf.pos hz
      · exact hok hx
    · rw [ht.frame.pc u hu]
      exact hf.free u
  sum := by
    change data s'.word + (m.view.observe e).queue.length = size
    rw [hd, hq]
    exact hf.sum
  pos := by
    rw [hd]
    exact hf.pos
  arrived := by
    change _ = _ * size + (m.view.observe e).queue.length
    rw [harr, hback, hq]
    exact hf.arrived
  numbers := by
    intro a ha
    change a ∈ (m.view.observe e).queue at ha
    change ∃ j, _ ∧ j < (m.view.observe e).queue.length
    rw [hq] at ha
    rw [hback, ht.number_queued ha, hq]
    exact hf.numbers a ha

theorem Filling.step (hf : Filling size s m) (hr : Rounded size s m)
    (ht : Took (.barrier n) s m.view t act e s') (hok : ¬Disturbs s act) (hb : Bounded n s m.view) :
    Filling size s' (m.observe e) ∨ ∃ u, Closed size s' (m.observe e) u := by
  have hef := ht.effect
  have hcalm := hf.calm t
  have hfree := hf.free t
  have hfits := (ht.inv.loc t).fits
  have hstay := hf.stay ht hok
  have hmv := ht.move
  generalize hp : s.pc t = p at hmv hcalm hfree hfits
  generalize hp' : s'.pc t = p' at hmv
  cases hmv with
  | gate hg => cases hg
  | own | take => exact absurd rfl ht.no_acquire
  | poisonFast | poison | clear => cases hfits
  | fast => rcases hfits with ⟨hk, -⟩ | ⟨_, _, hk, -⟩ <;> cases hk
  | writeBack => exact absurd trivial hcalm
  | cut | tailCut | tailReset | unlink | unlinkOnly | update | add => exact absurd trivial hfree
  | push =>
    obtain ⟨-, -, ⟨q, hpc, -⟩, -⟩ := hef
    exact absurd (hb.waitOnly _ _ _ hpc) hf.pos
  | release | releasePass =>
    have hd : data s'.word = data s.word := by
      rw [hef.2.1, hr.light t _ _ _ hp, Nat.sub_zero]
    exact .inl (hstay (by simp) rfl hd rfl rfl)
  | lockQueue => exact .inl (hstay (by simp) rfl hef.2.2.2.2 rfl rfl)
  | last hn hg hd =>
    have hsum := hf.sum
    have harr := hf.arrived
    refine .inr ⟨t, by rw [hp']; trivial, ?_, by rw [hef.2.2]; rfl, ?_, ?_,
      by simp [Rounds.observe, View.observe, View.detach]⟩
    · intro u hu
      rw [ht.frame.pc u hu]
      exact hf.calm u
    · rw [hp']
      simp only [Rounds.observe, View.observe, View.detach, Function.update_self, Pc.reckons]
      omega
    · simp only [Rounds.observe, Nat.add_mul]
      omega
  | @countDown q j hn hg hd =>
    left
    have hsum := hf.sum
    have harr := hf.arrived
    have hdata := hef.2.2.2.2.1
    refine ⟨?_, ?_, ?_, by omega, ?_, ?_⟩
    · intro u
      by_cases hu : u = t
      · rw [hu, hp']
        exact id
      · rw [ht.frame.pc u hu]
        exact hf.calm u
    · intro u
      by_cases hu : u = t
      · rw [hu, hp']
        exact id
      · rw [ht.frame.pc u hu]
        exact hf.free u
    · simp only [Rounds.observe, View.observe, List.length_cons]
      omega
    · simp only [Rounds.observe, View.observe, List.length_cons]
      omega
    · intro a ha
      rcases List.mem_cons.mp ha with rfl | ha
      · refine ⟨m.view.queue.length, ?_, by simp [Rounds.observe, View.observe]⟩
        simp only [Rounds.observe, Function.update_self]
        rw [← harr]
      · obtain ⟨j, hj, hlt⟩ := hf.numbers a ha
        refine ⟨j, (ht.number_queued ha).trans hj, ?_⟩
        simp only [Rounds.observe, View.observe, List.length_cons]
        omega
  | _ => exact .inl (hstay (by simp) rfl (congrArg data hef) rfl rfl)

theorem Took.exact (ht : Took (.barrier n) s m.view t act e s') (hp : (s.pc t).Closing)
    (hback : ∀ c, e ≠ .writeBack t c) : (s'.pc t).Closing ∧
      (s'.pc t).reckons ((m.view.observe e).taken t).length =
        (s.pc t).reckons (m.view.taken t).length := by
  have hmv := ht.move
  generalize s.pc t = p at hmv hp
  generalize s'.pc t = p' at hmv
  cases hmv with
  | gate hg => cases hg
  | own htry | take htry => rcases htry with rfl | ⟨_, _, rfl⟩ <;> exact hp.elim
  | writeBack => exact absurd rfl (hback _)
  | @set cur _ _ k hm =>
    have hlen : ((m.view.taken t).erase cur).length + 1 = (m.view.taken t).length := by
      rw [List.length_erase_of_mem hm]
      have := List.length_pos_of_mem hm
      omega
    cases k with
    | writeBack q =>
      simp only [View.observe, Function.update_self, Pc.reckons, Pc.Closing, true_and]
      omega
    | _ => exact hp.elim
  | @finalize _ _ _ _ k =>
    cases k with
    | writeBack q => exact ⟨trivial, rfl⟩
    | _ => exact hp.elim
  | counted _ hnil =>
    simp only [View.observe, hnil]
    exact ⟨trivial, rfl⟩
  | _ => exact hp.elim

theorem Closed.stay (hc : Closed size s m u) (ht : Took (.barrier n) s m.view t act e s')
    (hz : data s'.word = 0) (hlast : ∀ b, e ≠ .last t b) (hback : ∀ c, e ≠ .writeBack t c)
    (harr : (m.observe e).arrived = m.arrived) (hbacks : (m.observe e).backs = m.backs)
    (hq : ∀ a ∈ (m.view.observe e).queue, (m.observe e).number a = none) :
    Closed size s' (m.observe e) u := by
  have hown : (s'.pc u).Closing ∧ (s'.pc u).reckons ((m.view.observe e).taken u).length = size := by
    by_cases hu : u = t
    · subst hu
      obtain ⟨h₁, h₂⟩ := ht.exact hc.closing hback
      exact ⟨h₁, h₂.trans hc.exact⟩
    · rw [ht.frame.pc u hu, ht.taken_other hu]
      exact ⟨hc.closing, hc.exact⟩
  refine ⟨hown.1, fun x hx => ?_, hz, hown.2, by rw [harr, hbacks]; exact hc.arrived, hq⟩
  by_cases hxt : x = t
  · subst hxt
    intro hp
    rcases ht.closes hp with hp | ⟨b, hb⟩
    · exact hc.only x hx hp
    · exact hlast b hb
  · rw [ht.frame.pc x hxt]
    exact hc.only x hx

theorem Closed.step (hc : Closed size s m u) (hr : Rounded size s m) (hsize : size = tasks n)
    (hpos : 0 < size) (ht : Took (.barrier n) s m.view t act e s') :
    Filling size s' (m.observe e) ∨ ∃ u, Closed size s' (m.observe e) u := by
  have hef := ht.effect
  have hfits := (ht.inv.loc t).fits
  have hzero := hc.zero
  have hfresh := hr.fresh t
  have hown : (s.pc t).Closing → t = u := fun hp => by_contra fun hne => hc.only t hne hp
  have hexact := hc.exact
  have hmv := ht.move
  have hnone : ∀ a ∈ m.view.queue, (m.observe e).number a = none := fun a ha =>
    (ht.number_queued ha).trans (hc.numbers a ha)
  have hstay : data s'.word = 0 → (∀ b, e ≠ .last t b) → (∀ c, e ≠ .writeBack t c) →
      (m.observe e).arrived = m.arrived → (m.observe e).backs = m.backs →
      (∀ a ∈ (m.view.observe e).queue, a ∈ m.view.queue) →
      Filling size s' (m.observe e) ∨ ∃ u, Closed size s' (m.observe e) u :=
    fun h₁ h₂ h₃ h₄ h₅ h₆ => .inr ⟨u, hc.stay ht h₁ h₂ h₃ h₄ h₅ fun a ha => hnone a (h₆ a ha)⟩
  generalize hp : s.pc t = p at hmv hfits hown hfresh
  generalize hp' : s'.pc t = p' at hmv
  cases hmv with
  | gate hg => cases hg
  | own | take => exact absurd rfl ht.no_acquire
  | poisonFast | poison | clear => cases hfits
  | fast => rcases hfits with ⟨hk, -⟩ | ⟨_, _, hk, -⟩ <;> cases hk
  | last _ _ hd =>
    rw [hzero] at hd
    cases hd
  | countDown _ _ hd =>
    rw [hzero] at hd
    cases hd
  | release | releasePass =>
    refine hstay ?_ (by simp) (by simp) rfl rfl fun _ ha => ha
    rw [hef.2.1, hzero, Nat.zero_sub]
  | lockQueue => exact hstay (hef.2.2.2.2.trans hzero) (by simp) (by simp) rfl rfl fun _ ha => ha
  | push =>
    refine .inr ⟨u, hc.stay ht (hef.2.2.2.1.trans hzero) (by simp) (by simp) rfl rfl ?_⟩
    intro a ha
    rcases List.mem_cons.mp ha with rfl | ha
    · exact hfresh _ rfl
    · exact hc.numbers a ha
  | cut | tailCut =>
    refine hstay (by rw [hef.2]; exact hzero) (by simp) (by simp) rfl rfl fun a ha => ?_
    rw [← upTo_behind ht.cut_mem]
    exact List.mem_append_left _ ha
  | tailReset =>
    obtain ⟨-, hw, -, -⟩ := hef
    rw [ht.inv.barrier_total fun a ha => by rw [(ht.inv.glob.queued a).mp ha]; simp, hzero] at hw
    exact hstay (by rw [hw]; rfl) (by simp) (by simp) rfl rfl fun _ ha => by cases ha
  | update | add =>
    obtain ⟨-, htr, -, hd, -⟩ := hef
    rw [ht.inv.barrier_total fun a ha => by rw [(ht.inv.glob.taken t a).mp ha]; simp] at htr
    rw [htr, hzero] at hd
    exact hstay hd (by simp) (by simp) rfl rfl fun _ ha => ha
  | unlink | unlinkOnly =>
    refine hstay (hef.2.1.trans hzero) (by simp) (by simp) rfl rfl fun a ha => ?_
    exact List.mem_of_mem_erase ha
  | @writeBack q c =>
    obtain rfl := hown trivial
    rw [hp] at hexact
    obtain rfl : c = size := hexact
    have hlt : c < 64 := by
      rw [hsize]
      exact tasks_lt n
    have hw : s'.word = c := hef.2
    have hd : data s'.word = c := by rw [hw, data_eq, Nat.mod_eq_of_lt hlt]
    refine .inl ⟨?_, ?_, ?_, by omega, ?_, ?_⟩
    · intro x
      by_cases hx : x = t
      · rw [hx, hp']
        exact id
      · rw [ht.frame.pc x hx]
        exact hc.only x hx
    · exact ht.inv'.none_holds (by rw [hw]; exact (anchor_of_lt hlt).2)
    · simpa [Rounds.observe, View.observe, View.detach] using hd
    · simpa [Rounds.observe, View.observe, View.detach] using hc.arrived
    · simp [Rounds.observe, View.observe, View.detach]
  | _ =>
    exact hstay ((congrArg data hef).trans hzero) (by simp) (by simp) rfl rfl fun _ ha => ha

/-- Every step that does not break into an unfinished generation keeps the rounds. -/
theorem step_rounded (hr : Rounded size s m) (hsize : size = tasks n) (hpos : 0 < size)
    (ht : Took (.barrier n) s m.view t act e s') (hok : ¬Disturbs s act)
    (hb : Bounded n s m.view) : Rounded size s' (m.observe e) where
  fresh u q hp := by
    by_cases hu : u = t
    · subst hu
      exact ht.uncounted hr hp
    · rw [ht.frame.pc u hu] at hp
      rw [ht.number_other hu (ht.inv.fresh_used hp)]
      exact hr.fresh u q hp
  entered u q hp := by
    by_cases hu : u = t
    · subst hu
      exact ht.entered hr hp
    · rw [ht.frame.pc u hu] at hp
      rw [ht.number_other hu (ht.inv.entered_used hp)]
      exact hr.entered u q hp
  placed a i ha := ht.placed hr ha
  light u o op state hp := by
    by_cases hu : u = t
    · subst hu
      exact ht.light hr hp
    · rw [ht.frame.pc u hu] at hp
      exact hr.light u o op state hp
  phase := by
    rcases hr.phase with hf | ⟨u, hc⟩
    · exact hf.step hr ht hok hb
    · exact hc.step hr hsize hpos ht

/-- No step of the run breaks into an unfinished generation. -/
def Careful : Guard Cfg Action Event := fun s _ act => ¬Disturbs s act

instance (s : Cfg) (act : Action) : Decidable (Disturbs s act) :=
  match act with
  | .run t => by
    apply Pc.casesOn (motive := fun p => Decidable (Disturbs { s with pc := fun _ => p } (.run t)))
      (s.pc t)
    all_goals
      intros
      first
        | exact instDecidableFalse
        | exact instDecidableAnd
        | exact instDecidableLocked _
  | .call _ _ | .cancel _ => inferInstanceAs (Decidable False)

instance (s : Cfg) (h : List Event) (act : Action) : Decidable (Careful s h act) :=
  inferInstanceAs (Decidable ¬Disturbs s act)

theorem Careful.polite (hr : Reach (.barrier n) Careful s h) : Reach (.barrier n) Polite s h :=
  hr.mono fun _ _ _ hok hx => hok hx.disturbs

theorem initial_rounded (hpos : 0 < tasks n) :
    Rounded (tasks n) (Kind.initial (.barrier n)) (rounds []) := by
  have hd : data (tasks n) = tasks n := by
    rw [data_eq]
    exact Nat.mod_eq_of_lt (tasks_lt n)
  refine ⟨?_, ?_, ?_, ?_, .inl ⟨fun _ => id, fun _ => id, hd, ?_, ?_, ?_⟩⟩
  · intro t q hp
    cases hp
  · intro t q hp
    cases hp
  · intro a i ha
    cases ha
  · intro t o op state hp
    cases hp
  · change data (tasks n) ≠ 0
    omega
  · simp [rounds, View.initial]
  · intro a ha
    cases ha

theorem reach_rounded (hpos : 0 < tasks n) (hr : Reach (.barrier n) Careful s h) :
    Rounded (tasks n) s (rounds h) := by
  refine hr.invariant (P := fun s h => Rounded (tasks n) s (rounds h)) (initial_rounded hpos) ?_
  intro s h act e s' hr ih hok hs
  obtain ⟨hi, hb⟩ := reach_barrier (Careful.polite hr)
  have hi' := step_inv hi (fun hx => hok hx.disturbs) hb.fits hs
  rw [← rounds_view h] at hi hi' hb
  exact step_rounded ih rfl hpos (took hi hi' hs) hok hb

theorem Inv.arriver_idle {v : View} (hi : Inv (.barrier n) s v) (hp : (s.pc t).arriver = some q) :
    v.stat q.entry = .idle := by
  have hl := hi.loc t
  have hent := (hl.slot _).mpr (hi.entered_used (arriver_entered hp))
  have hst := hl.stat _ hent
  generalize s.pc t = p at hp hst
  unfold Pc.arriver at hp
  split at hp <;> cases hp <;> exact hst

theorem Placed.stored (hp : Placed size s m a i) (hi : Inv (.barrier n) s m.view)
    (hst : m.view.stat a = .final) : m.Full size i ∧ (s.state a).result = code size i := by
  rcases hp with hp | ⟨hfull, (⟨u, hp, -⟩ | ⟨u, q, hp, rfl⟩ | ⟨-, hres⟩) | ⟨-, u, q, hp, rfl⟩⟩
  · rw [hst] at hp
    cases hp
  · rw [hst] at hp
    cases hp
  · rw [(hi.settling hp).1] at hst
    cases hst
  · exact ⟨hfull, hres⟩
  · rw [hi.arriver_idle hp] at hst
    cases hst

theorem Placed.carried (hp : Placed size s m a i) (hi : Inv (.barrier n) s m.view)
    (hst : m.view.stat a = .taken t) :
    m.Full size i ∧ (s.pc t).verdict = some (code size i) := by
  rcases hp with hp | ⟨hfull, (⟨u, hp, hv⟩ | ⟨u, q, hp, rfl⟩ | ⟨hp | ⟨u, hp⟩, -⟩) |
    ⟨-, u, q, hp, rfl⟩⟩
  · rw [hst] at hp
    cases hp
  · rw [hst] at hp
    cases hp
    exact ⟨hfull, hv⟩
  · rw [(hi.settling hp).1] at hst
    cases hst
  · rw [hst] at hp
    cases hp
  · rw [hst] at hp
    cases hp
  · rw [hi.arriver_idle hp] at hst
    cases hst

theorem Placed.own {r : ℕ} (hp : Placed size s m q.entry i) (hi : Inv (.barrier n) s m.view)
    (hpc : s.pc t = .settle q r) : m.Full size i ∧ r = code size i := by
  obtain ⟨hidle, hslot, -⟩ := hi.settling hpc
  have hsame : ∀ u q', (s.pc u).entered = some q' → q'.entry = q.entry → u = t := by
    intro u q' hu he
    have hx := hi.entered_used hu
    rw [he, hslot] at hx
    exact (Slot.used.inj hx).symm
  rcases hp with hp | ⟨hfull, (⟨u, hp, -⟩ | ⟨u, q', hp, he⟩ | ⟨hp | ⟨u, hp⟩, -⟩) |
    ⟨-, u, q', hp, he⟩⟩
  · rw [hidle] at hp
    cases hp
  · rw [hidle] at hp
    cases hp
  · obtain rfl := hsame u q' (by rw [hp]; rfl) he
    rw [hpc] at hp
    cases hp
    exact ⟨hfull, rfl⟩
  · rw [hidle] at hp
    cases hp
  · rw [hidle] at hp
    cases hp
  · obtain rfl := hsame u q' (arriver_entered hp) he
    rw [hpc] at hp
    cases hp

/-- What a step may do in the course of the generations. -/
structure OnTime (size : ℕ) (m : Rounds) (act : Action) (e : Event) : Prop where
  /-- The last of a block is the one that closes it. -/
  last : ∀ t a, e = .last t a → m.arrived % size + 1 = size
  others : ∀ t a op, e = .countDown t a op → m.arrived % size + 1 < size
  /-- A block begins after the counter was written back. -/
  reset : (∃ t a, e = .last t a) ∨ (∃ t a op, e = .countDown t a op) →
    m.backs = m.arrived / size
  back : ∀ t c, e = .writeBack t c → c = size ∧ m.arrived = (m.backs + 1) * size
  result : ∀ t a r i, e = .setResult t a r → m.number a = some i →
    m.Full size i ∧ r = code size i
  /-- A wait call that returns has counted down in a block that is full. -/
  returns : ∀ t a r, act = .run t → e = .consume t a r → ∃ i, m.number a = some i ∧
    m.Full size i ∧ r = code size i

theorem Rounded.filling (hr : Rounded size s m) (hd : data s.word ≠ 0) : Filling size s m := by
  rcases hr.phase with hf | ⟨u, hc⟩
  · exact hf
  · exact absurd hc.zero hd

theorem Took.onTime (ht : Took (.barrier n) s m.view t act e s') (hr : Rounded size s m) :
    OnTime size m act e where
  last x a he := by
    subst he
    have hd : data s.word = 1 := ht.effect.2.1
    have hf := hr.filling (by omega)
    have hsum := hf.sum
    rw [hf.arrived, (block_of (show m.view.queue.length < size by omega)).2]
    omega
  others x a op he := by
    subst he
    have hd : 2 ≤ data s.word := ht.effect.2.2.2.1
    have hf := hr.filling (by omega)
    have hsum := hf.sum
    rw [hf.arrived, (block_of (show m.view.queue.length < size by omega)).2]
    omega
  reset he := by
    have hd : data s.word ≠ 0 := by
      have hef := ht.effect
      rcases he with ⟨x, a, rfl⟩ | ⟨x, a, op, rfl⟩
      · have : data s.word = 1 := hef.2.1
        omega
      · have : 2 ≤ data s.word := hef.2.2.2.1
        omega
    have hf := hr.filling hd
    have hsum := hf.sum
    rw [hf.arrived, (block_of (show m.view.queue.length < size by omega)).1]
  back x c he := by
    subst he
    obtain ⟨⟨q, hpc⟩, -⟩ := ht.effect
    have hclosing : (s.pc x).Closing := by
      rw [hpc]
      trivial
    rcases hr.phase with hf | ⟨u, hc⟩
    · exact absurd hclosing (hf.calm x)
    · obtain rfl : x = u := by_contra fun hne => hc.only x hne hclosing
      have hexact := hc.exact
      rw [hpc] at hexact
      exact ⟨hexact, hc.arrived⟩
  result x a r i he ha := by
    subst he
    have hp := hr.placed a i ha
    obtain ⟨rfl, -⟩ := ht.frame.set x a r rfl
    have hmv := ht.move
    generalize hpc : s.pc x = p at hmv
    generalize s'.pc x = p' at hmv
    cases hmv with
    | gate hg => cases hg
    | settle => exact hp.own ht.inv hpc
    | set hm =>
      obtain ⟨hfull, hv⟩ := hp.carried ht.inv ((ht.inv.glob.taken x a).mp hm)
      rw [hpc] at hv
      cases hv
      exact ⟨hfull, rfl⟩
  returns x a r hact he := by
    subst hact he
    have hent := hr.entered t
    have hmv := ht.move
    generalize s.pc t = p at hmv hent
    generalize s'.pc t = p' at hmv
    cases hmv with
    | gate hg => cases hg
    | consume hst =>
      obtain ⟨i, ha⟩ := hent _ rfl
      obtain ⟨hfull, hres⟩ := (hr.placed _ i ha).stored ht.inv hst
      exact ⟨i, ha, hfull, hres⟩

theorem reach_onTime (hpos : 0 < tasks n) (hr : Reach (.barrier n) Careful s h)
    (hok : Careful s h act) (hs : step (.barrier n) s act = some (e, s')) :
    OnTime (tasks n) (rounds h) act e := by
  obtain ⟨hi, hb⟩ := reach_barrier (Careful.polite hr)
  have hi' := step_inv hi (fun hx => hok hx.disturbs) hb.fits hs
  rw [← rounds_view h] at hi hi'
  exact (took hi hi' hs).onTime (reach_rounded hpos hr)

theorem tasks_pos (hn : 1 ≤ n) : 0 < tasks n := by
  have hm : MAX_TASKS = 63 := by decide
  unfold tasks
  omega

theorem last_alone {cur : Ptr} {r c : ℕ} (hi : Inv (.barrier n) s (view h))
    (hp : s.pc t = .resolve cur r c (.last q)) : ∃ s' h', Solo (.barrier n) t s h s' h' ∧
      Inv (.barrier n) s' (view h') ∧ s'.pc t = .settle q 1 := by
  obtain ⟨s₁, h₁, hsolo, hi₁, hp₁, -⟩ := resolve_alone hi hp
  have hs : step (.barrier n) s₁ (.run t) = some (.tau, s₁.goto t (.settle q 1)) := by
    simp [step, runStep, hp₁, resolveStep, Then.step]
  have hi₂ := hi₁.run (by simp [hp₁]) (by simp [hp₁]) hs
  exact ⟨_, _, hsolo.trans (.step hs .done), hi₂, goto_pc_self ..⟩

theorem writeBack_alone {c : ℕ} (hi : Inv (.barrier n) s (view h)) (hn : ¬Locked s.word)
    (hc : c < 64) (hp : s.pc t = .writeBack q c) : ∃ s' h', Solo (.barrier n) t s h s' h' ∧
      Inv (.barrier n) s' (view h') ∧ s'.pc t = .settle q 1 := by
  have hs : step (.barrier n) s (.run t) = some (writeBackStep s t q c) := by
    simp [step, runStep, hp]
  have hi₁ : Inv (.barrier n) (writeBackStep s t q c).2 (view (.writeBack t c :: h)) := by
    refine runStep_inv hi ?_ ?_ hs
    · simp only [Intrudes, hp]
      exact hn
    · intro q' c' hx
      rw [hp] at hx
      cases hx
      exact hc
  obtain ⟨s', h', hsolo, hrest⟩ := last_alone hi₁ (goto_pc_self ..)
  exact ⟨s', h', .step hs hsolo, hrest⟩

theorem counting_alone {cur : Ptr} {r c : ℕ} (hi : Inv (.barrier n) s (view h))
    (hn : ¬Locked s.word) (hc : 1 + c + ((view h).taken t).length < 64)
    (hp : s.pc t = .resolve cur r c (.writeBack q)) : ∃ s' h', Solo (.barrier n) t s h s' h' ∧
      Inv (.barrier n) s' (view h') ∧ s'.pc t = .settle q 1 := by
  obtain ⟨s₁, h₁, hsolo, hi₁, hp₁, -, hall⟩ := resolve_alone hi hp
  have hs : step (.barrier n) s₁ (.run t) =
      some (.tau, s₁.goto t (.writeBack q (1 + (c + ((view h).taken t).length)))) := by
    simp [step, runStep, hp₁, resolveStep, Then.step]
  have hi₂ := hi₁.run (by simp [hp₁]) (by simp [hp₁]) hs
  obtain ⟨s', h', hrest, hend⟩ := writeBack_alone (h := .tau :: h₁) hi₂
    (by rwa [goto_word, hall.word]) (by omega) (goto_pc_self ..)
  exact ⟨s', h', (hsolo.trans (.step hs .done)).trans hrest, hend⟩

theorem arriver_alone (hi : Inv (.barrier n) s (view h)) (hn : ¬Locked s.word)
    (hc : (s.pc t).reckons ((view h).taken t).length < 64) (hp : (s.pc t).arriver = some q) :
    ∃ s' h', Solo (.barrier n) t s h s' h' ∧ Inv (.barrier n) s' (view h') ∧
      s'.pc t = .settle q 1 := by
  have hfin : ∀ cur nx r c k, s.pc t = .finalize cur nx r c k →
      ∃ s₁, step (.barrier n) s (.run t) = some (.finalize t cur, s₁) ∧
        Inv (.barrier n) s₁ (view (.finalize t cur :: h)) ∧ s₁.word = s.word ∧
        s₁.pc t = .resolve nx r (c + 1) k := by
    intro cur nx r c k hpc
    have hs : step (.barrier n) s (.run t) = some (finalizeStep s t cur nx r c k) := by
      simp [step, runStep, hpc]
    exact ⟨_, hs, hi.run (by simp [hpc]) (by simp [hpc]) hs, rfl, goto_pc_self ..⟩
  cases hpc : s.pc t with
  | writeBack q' c =>
    rw [hpc] at hp hc
    cases hp
    exact writeBack_alone hi hn hc hpc
  | resolve cur r c k =>
    rw [hpc] at hp hc
    cases k <;> cases hp
    · exact counting_alone hi hn hc hpc
    · exact last_alone hi hpc
  | finalize cur nx r c k =>
    obtain ⟨s₁, hs, hi₁, hw, hp₁⟩ := hfin _ _ _ _ _ hpc
    rw [hpc] at hp hc
    cases k <;> cases hp
    · obtain ⟨s', h', hsolo, hend⟩ := counting_alone hi₁ (by rwa [hw]) hc hp₁
      exact ⟨s', h', .step hs hsolo, hend⟩
    · obtain ⟨s', h', hsolo, hend⟩ := last_alone hi₁ hp₁
      exact ⟨s', h', .step hs hsolo, hend⟩
  | _ =>
    rw [hpc] at hp
    cases hp

def Undropped : Guard Cfg Action Event := fun _ _ act => match act with
  | .cancel _ | .call _ (.drop _) => False
  | _ => True

instance (s : Cfg) (h : List Event) (act : Action) : Decidable (Undropped s h act) :=
  match act with
  | .run _ => inferInstanceAs (Decidable True)
  | .cancel _ => inferInstanceAs (Decidable False)
  | .call t op => by
    apply Op.casesOn (motive := fun op => Decidable (Undropped s h (.call t op))) op
    all_goals
      intros
      first
        | exact instDecidableTrue
        | exact instDecidableFalse

/-- The thread is not in a call, or in a wait call that was not dropped. -/
def Pc.Attends (p : Pc) : Prop :=
  p.phase = .idle ∨ p.phase = .acquiring ∨ p.phase = .waiting ∨ p.phase = .arriving

theorem Pc.Attends.not_holds (ha : p.Attends) : ¬p.Holds := by
  intro hh
  cases p with
  | resolve _ _ _ k => cases k <;> simp_all [Pc.Attends, Pc.phase, Then.phase, Pc.Holds]
  | finalize _ _ _ _ k => cases k <;> simp_all [Pc.Attends, Pc.phase, Then.phase, Pc.Holds]
  | _ => simp_all [Pc.Attends, Pc.phase, Pc.Holds]

theorem attends_unlocked {v : View} (ha : ∀ t, (s.pc t).Attends) (hi : Inv (.barrier n) s v) :
    ¬Locked s.word := by
  intro hl
  rcases hi.locked hl with ⟨u, hu⟩ | ⟨hk, -⟩
  · exact (ha u).not_holds hu
  · cases hk

theorem attends_careful {v : View} (ha : ∀ t, (s.pc t).Attends) (hi : Inv (.barrier n) s v) :
    ¬Disturbs s act := by
  intro hx
  cases act with
  | call | cancel => exact hx
  | run t =>
    simp only [Disturbs] at hx
    split at hx
    · next hpc =>
      have hat := ha t
      rw [hpc] at hat
      simp [Pc.Attends, Pc.phase] at hat
    · next hpc =>
      have hat := ha t
      rw [hpc] at hat
      simp [Pc.Attends, Pc.phase] at hat
    · exact attends_unlocked ha hi hx.meets.1

theorem Took.attends (ht : Took (.barrier n) s m.view t act e s') (hok : Undropped s h act)
    (ha : (s.pc t).Attends) : (s'.pc t).Attends := by
  have hmv := ht.move
  generalize s.pc t = p at hmv ha
  generalize s'.pc t = p' at hmv
  cases hmv with
  | gate hg => cases hg
  | drop | dropIdle | cancel => exact hok.elim
  | enter hin =>
    cases hin with
    | gate hg => cases hg
    | _ => rename_i hk; cases hk
  | own | take => exact absurd rfl ht.no_acquire
  | @set _ _ _ k | @finalize _ _ _ _ k => cases k <;> exact ha
  | poll | rejected | refuse | registered | settled | consume | fast | poisonFast | poisonRefuse |
    clear | clearRefuse | poisoned | finish =>
    exact .inl rfl
  | acquire | load | reload | spin | queue | waitOnly | again | retry => exact .inr (.inl rfl)
  | answer | countDown | push | wait | settle | settledWait | pending | arrived =>
    exact .inr (.inr (.inl rfl))
  | last | writeBack | counted => exact .inr (.inr (.inr rfl))
  | _ => exact absurd ha (by simp [Pc.Attends, Pc.phase, Then.phase])

theorem reach_attends (hr : Reach (.barrier n) Undropped s h) :
    Reach (.barrier n) Careful s h ∧ ∀ t, (s.pc t).Attends := by
  induction hr with
  | init => exact ⟨.init, fun t => .inl rfl⟩
  | @step s h act e s' _ hok hs ih =>
    obtain ⟨hr, ha⟩ := ih
    obtain ⟨hi, hb⟩ := reach_barrier (Careful.polite hr)
    rw [← rounds_view h] at hi hb
    have hcare : ¬Disturbs s act := attends_careful ha hi
    have hi' := step_inv hi (fun hx => hcare hx.disturbs) hb.fits hs
    have ht := took hi hi' hs
    refine ⟨.step hr hcare hs, fun u => ?_⟩
    by_cases hu : u = act.actor
    · rw [hu]
      exact ht.attends hok (ha _)
    · rw [ht.frame.pc u hu]
      exact ha u

/-- A count-down of a full block has its result, or somebody who brings it. -/
theorem full_delivered (hpos : 0 < tasks n) (hr : Reach (.barrier n) Undropped s h)
    (ha : (rounds h).number a = some i) (hfull : (rounds h).Full (tasks n) i) :
    ∃ t s' h', Solo (.barrier n) t s h s' h' ∧ (view h').stat a = .final ∧
      (s'.state a).result = code (tasks n) i := by
  obtain ⟨hcare, hatt⟩ := reach_attends hr
  obtain ⟨hi, hb⟩ := reach_barrier (Careful.polite hcare)
  have hround := reach_rounded hpos hcare
  rcases hround.placed a i ha with hq | ⟨-, hg | ⟨hlast, t, q, hp, rfl⟩⟩
  · rw [rounds_view, ← hi.glob.queued, ← rounds_view] at hq
    rcases hround.phase with hf | ⟨u, hc⟩
    swap
    · rw [hc.numbers a hq] at ha
      cases ha
    obtain ⟨j, hj, hlt⟩ := hf.numbers a hq
    rw [ha] at hj
    cases hj
    have hsum := hf.sum
    have hpos := hf.pos
    have harr := hf.arrived
    rw [Rounds.Full, (block_of (show j < tasks n by omega)).1, Nat.add_mul] at hfull
    omega
  · rw [rounds_view] at hg
    exact hg.delivered hi
  · have hn := attends_unlocked hatt hi
    obtain ⟨s₁, h₁, hsolo, hi₁, hp₁⟩ :=
      arriver_alone hi hn ((hb.counted t).trans_lt (tasks_lt n)) hp
    obtain ⟨s', h', hrest, hfin, hres⟩ := settle_alone hi₁ hp₁
    refine ⟨t, s', h', hsolo.trans hrest, hfin, ?_⟩
    rw [hres, code, if_pos hlast]

/-- The generations of a barrier without cancellation. Number the count-downs of any run in
which no future is dropped, and cut them into blocks of the size of the barrier. Every step
is on time: the last count-down of a block is the one that closes it, no result of a block is
set or returned before, it is `true` (the code 1) for the last and `false` for the others, a
block begins only after the counter was written back, and the counter is written back to the
size. And every count-down of a full block gets its result. -/
theorem barrier_generations (hn : 1 ≤ n) (hr : Reach (.barrier n) Undropped s h) :
    (∀ act e s', Undropped s h act → step (.barrier n) s act = some (e, s') →
      OnTime (tasks n) (rounds h) act e) ∧
    ∀ a i, (rounds h).number a = some i → (rounds h).Full (tasks n) i →
      ∃ t s' h', Solo (.barrier n) t s h s' h' ∧ (view h').stat a = .final ∧
        (s'.state a).result = code (tasks n) i := by
  obtain ⟨hcare, hatt⟩ := reach_attends hr
  constructor
  · intro act e s' _ hs
    have hi := (reach_barrier (Careful.polite hcare)).1
    exact reach_onTime (tasks_pos hn) hcare (attends_careful hatt hi) hs
  · intro a i ha hfull
    exact full_delivered (tasks_pos hn) hr ha hfull

/-- A barrier does not open early in a run in which no dropped future locks the queue while
the counter is not zero, and no last arriver meets the flag: count-downs belong to the
generation that the counter was written back for, and a wait call returns only when all
count-downs of its generation have happened. A lone waiter is not to be dropped either: its own
generation would still open on time, but with the counter set back too low the next one would
not. -/
theorem barrier_never_early (hn : 1 ≤ n) (hr : Reach (.barrier n) Careful s h)
    (hok : Careful s h act) (hs : step (.barrier n) s act = some (e, s')) :
    ((∃ t a, e = .last t a) ∨ (∃ t a op, e = .countDown t a op) →
      (rounds h).backs = (rounds h).arrived / tasks n) ∧
    ∀ t a r, act = .run t → e = .consume t a r → ∃ i, (rounds h).number a = some i ∧
      (i / tasks n + 1) * tasks n ≤ (rounds h).arrived := by
  have htime := reach_onTime (tasks_pos hn) hr hok hs
  refine ⟨htime.reset, fun t a r hact he => ?_⟩
  obtain ⟨i, ha, hfull, -⟩ := htime.returns t a r hact he
  exact ⟨i, ha, hfull⟩

/-- Task 0 waits alone at a barrier of two and is dropped, task 1 ends its generation, and task 2
passes in the next one without a second task. -/
example : ∃ s h s', exec (system (.barrier 2)) (Kind.initial (.barrier 2)) []
      ([.call 0 (.acquire ⟨.arrive, .async, 256⟩), .run 0, .run 0, .run 0,
        .cancel 0, .run 0, .run 0, .run 0, .run 0,
        .call 1 (.acquire ⟨.arrive, .sync, 384⟩), .run 1, .run 1, .run 1, .run 1,
        .call 2 (.acquire ⟨.arrive, .sync, 512⟩)] ++ List.replicate 7 (.run 2)) = some (s, h) ∧
    step (.barrier 2) s (.run 2) = some (.consume 2 512 1, s') ∧
    (rounds h).number 512 = some 2 ∧ (rounds h).arrived = 3 ∧ ¬(rounds h).Full (tasks 2) 2 :=
  ⟨_, _, _, rfl, rfl, rfl, rfl, by decide⟩

/-- In the same runs the counter is set back to the size of the barrier. -/
theorem barrier_size_preserved (hn : 1 ≤ n) (hr : Reach (.barrier n) Careful s h)
    (hok : Careful s h act) (hs : step (.barrier n) s act = some (e, s')) :
    ∀ t c, e = .writeBack t c → c = tasks n ∧ s'.word = tasks n := by
  rintro t c rfl
  obtain ⟨hi, -⟩ := reach_barrier (Careful.polite hr)
  obtain ⟨rfl, -⟩ := (reach_onTime (tasks_pos hn) hr hok hs).back t c rfl
  exact ⟨rfl, (step_effect hi hs).2⟩

end

/-- Two tasks meet at a barrier of two; the second has just counted down. -/
def meeting : List Action :=
  [.call 0 (.acquire ⟨.arrive, .async, 256⟩), .run 0, .run 0, .run 0,
    .call 1 (.acquire ⟨.arrive, .sync, 384⟩), .run 1, .run 1]

theorem barrier_generations_meeting :
    ∃ s h, execIf (system (.barrier 2)) Undropped (Kind.initial (.barrier 2)) [] meeting =
        some (s, h) ∧
      (∃ t s' h', Solo (.barrier 2) t s h s' h' ∧ (view h').stat 256 = .final ∧
        (s'.state 256).result = 0) ∧
      ∃ t s' h', Solo (.barrier 2) t s h s' h' ∧ (view h').stat 384 = .final ∧
        (s'.state 384).result = 1 := by
  obtain ⟨s, h, hrun, h₁, h₂, hle⟩ : ∃ s h, execIf (system (.barrier 2)) Undropped
      (Kind.initial (.barrier 2)) [] meeting = some (s, h) ∧ (rounds h).number 256 = some 0 ∧
      (rounds h).number 384 = some 1 ∧ 2 ≤ (rounds h).arrived := ⟨_, _, rfl, rfl, rfl, le_rfl⟩
  obtain ⟨-, hall⟩ := barrier_generations (by decide) (Run.execIf .init hrun)
  exact ⟨s, h, hrun, hall 256 0 h₁ hle, hall 384 1 h₂ hle⟩

/-- The first task is told its result. -/
theorem barrier_never_early_meeting :
    ∃ s h s', execIf (system (.barrier 2)) Careful (Kind.initial (.barrier 2)) []
        (meeting ++ [.run 1, .run 1]) = some (s, h) ∧
      step (.barrier 2) s (.run 0) = some (.consume 0 256 0, s') ∧
      ∃ i, (rounds h).number 256 = some i ∧ (i / tasks 2 + 1) * tasks 2 ≤ (rounds h).arrived := by
  obtain ⟨s, h, s', hrun, hs, hok⟩ : ∃ s h s', execIf (system (.barrier 2)) Careful
      (Kind.initial (.barrier 2)) [] (meeting ++ [.run 1, .run 1]) = some (s, h) ∧
      step (.barrier 2) s (.run 0) = some (.consume 0 256 0, s') ∧ Careful s h (.run 0) :=
    ⟨_, _, _, rfl, rfl, by decide⟩
  obtain ⟨-, hret⟩ := barrier_never_early (by decide) (Run.execIf .init hrun) hok hs
  exact ⟨s, h, s', hrun, hs, hret 0 256 0 rfl rfl⟩

/-- The second task writes the counter back. -/
theorem barrier_size_preserved_meeting :
    ∃ s h s', execIf (system (.barrier 2)) Careful (Kind.initial (.barrier 2)) []
        (meeting ++ [.run 1, .run 1, .run 1]) = some (s, h) ∧
      step (.barrier 2) s (.run 1) = some (.writeBack 1 2, s') ∧ s'.word = tasks 2 := by
  obtain ⟨s, h, s', hrun, hs, hok⟩ : ∃ s h s', execIf (system (.barrier 2)) Careful
      (Kind.initial (.barrier 2)) [] (meeting ++ [.run 1, .run 1, .run 1]) = some (s, h) ∧
      step (.barrier 2) s (.run 1) = some (.writeBack 1 2, s') ∧ Careful s h (.run 1) :=
    ⟨_, _, _, rfl, rfl, by decide⟩
  have hback := barrier_size_preserved (by decide) (Run.execIf .init hrun) hok hs
  exact ⟨s, h, s', hrun, hs, (hback 1 2 rfl).2⟩

/-- Two tasks wait at a barrier of three, and the future of the first one is dropped. -/
def deserted : List Action :=
  [.call 0 (.acquire ⟨.arrive, .async, 256⟩), .run 0, .run 0, .run 0,
    .call 1 (.acquire ⟨.arrive, .sync, 384⟩), .run 1, .run 1, .run 1,
    .cancel 0, .run 0, .run 0, .run 0, .run 0, .run 0, .run 0, .run 0, .run 0, .run 0]

/-- The drop wakes the second task, which returns after two count-downs. -/
theorem barrier_opens_early :
    ∃ s h s', exec (system (.barrier 3)) (Kind.initial (.barrier 3)) [] deserted = some (s, h) ∧
      step (.barrier 3) s (.run 1) = some (.consume 1 384 0, s') ∧
      (rounds h).number 384 = some 1 ∧ (rounds h).arrived = 2 ∧
      ¬(rounds h).Full (tasks 3) 1 :=
  ⟨_, _, _, rfl, rfl, rfl, rfl, by decide⟩

/-- The only waiting task of a barrier of two is dropped, and the next one arrives. -/
def shrunken : List Action :=
  [.call 0 (.acquire ⟨.arrive, .async, 256⟩), .run 0, .run 0, .run 0,
    .cancel 0, .run 0, .run 0, .run 0, .run 0,
    .call 1 (.acquire ⟨.arrive, .sync, 384⟩), .run 1, .run 1, .run 1]

/-- The barrier is one of size one afterwards. -/
theorem barrier_size_lost :
    ∃ s h s', exec (system (.barrier 2)) (Kind.initial (.barrier 2)) [] shrunken = some (s, h) ∧
      step (.barrier 2) s (.run 1) = some (.writeBack 1 1, s') ∧ s'.word = 1 ∧ tasks 2 = 2 :=
  ⟨_, _, _, rfl, rfl, rfl, rfl⟩

end Saa
