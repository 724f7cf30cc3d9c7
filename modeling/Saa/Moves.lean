import Saa.Invariant

/-! # The moves of the machine

Every step of the machine is one of a few changes of the shared state, or two of them
in a row. Each change keeps the invariant under the conditions stated with it. -/
namespace Saa

open Word Lib.Linked

theorem Hold.spec {kind : Kind} {s : Cfg} {v : View} {p : Pc} (h : Hold kind s v p)
    (hh : p.Holds) : Locked s.word ∧ v.queue ≠ [] := by
  have key : ∀ {state newer seg}, Snap s v state newer seg → Locked s.word ∧ v.queue ≠ [] := by
    intro state newer seg hs
    refine ⟨hs.word_locked, fun he => ?_⟩
    have hm := hs.mem (List.mem_of_mem_head? hs.tail)
    rw [he] at hm
    cases hm
  cases p with
  | walk => obtain ⟨_, _, _, hs, _⟩ := h; exact key hs
  | relink => obtain ⟨_, _, _, hs, _⟩ := h; exact key hs
  | back => obtain ⟨_, _, _, hs, _⟩ := h; exact key hs
  | tailReset => obtain ⟨_, _, hs, _⟩ := h; exact key hs
  | update => obtain ⟨_, _, hs, _⟩ := h; exact key hs
  | add => obtain ⟨_, _, hs, _⟩ := h; exact key hs
  | remove => obtain ⟨_, _, hs, _⟩ := h; exact key hs
  | resolve _ _ _ k =>
    cases k with
    | pass => obtain ⟨_, _, hs, _⟩ := h; exact key hs
    | _ => cases hh
  | finalize _ _ _ _ k =>
    cases k with
    | pass => obtain ⟨_, _, hs, _⟩ := h; exact key hs
    | _ => cases hh
  | _ => cases hh

section
variable {kind : Kind} {s : Cfg} {v : View} {t u : Tid} {a : Ptr} {p : Pc}

theorem Inv.word_locked (h : Inv kind s v) (hh : (s.pc t).Holds) : Locked s.word :=
  ((h.loc t).hold.spec hh).1

theorem Inv.none_holds (h : Inv kind s v) (hn : ¬Locked s.word) (u : Tid) : ¬(s.pc u).Holds :=
  fun hu => hn (h.word_locked hu)

theorem Inv.only (h : Inv kind s v) (ht : (s.pc t).Holds) (hu : u ≠ t) : ¬(s.pc u).Holds :=
  fun hh => hu (h.unique u t hh ht)

theorem Inv.anchor_ne (h : Inv kind s v) (hh : (s.pc t).Holds) : anchor s.word ≠ 0 :=
  fun he => ((h.loc t).hold.spec hh).2 (h.glob.chain.eq_nil_iff.mpr he)

theorem Local.move {p' : Pc} {w : ℕ} {f : Tid → Pc} (h : Local kind s v t p)
    (he : p'.entry = p.entry) (ha : p'.answering = p.answering) (ht : p'.takePtr = p.takePtr)
    (hs : ∀ st, p.stage.Admits t st → p'.stage.Admits t st)
    (hb : p'.built = true → p.built = true) (hf : p'.flagged = true → p.flagged = true)
    (hq : ∀ q, p'.reqs = some q → p.reqs = some q) (hk : p'.Fits kind)
    (hh : Hold kind { s with word := w, pc := f } v p')
    (hc : Counted kind { s with word := w, pc := f } v t p') :
    Local kind { s with word := w, pc := f } v t p' where
  slot a := by rw [he]; exact h.slot a
  stat a hm := hs _ (h.stat a (by rw [← he]; exact hm))
  anchors a hm := h.anchors a (by rw [← he]; exact hm)
  built a hm hp := h.built a (by rw [← he]; exact hm) (hb hp)
  flagged a hm hp := h.flagged a (by rw [← he]; exact hm) (hf hp)
  reqs q hm := h.reqs q (hq q hm)
  fits := hk
  answering a := by rw [ha]; exact h.answering a
  taken := by rw [ht]; exact h.taken
  hold := hh
  counted := hc

theorem Local.ofIdle (hs : ∀ a, s.slot a ≠ .used t) (ha : ∀ a, v.stat a ≠ .answered t)
    (ht : v.taken t = []) : Local kind s v t .idle where
  slot a := iff_of_false (by simp [Pc.entry]) (hs a)
  stat _ hm := by cases hm
  anchors _ hm := by cases hm
  built _ hm := by cases hm
  flagged _ hm := by cases hm
  reqs _ hm := by cases hm
  fits := trivial
  answering a := iff_of_false (by simp [Pc.answering]) (ha a)
  taken := by rw [ht]; rfl
  hold := trivial
  counted := trivial

theorem Local.not_answered (h : Local kind s v t p) (hp : p.answering = none) (a : Ptr) :
    v.stat a ≠ .answered t := by
  intro he
  have hm := (h.answering a).mpr he
  rw [hp] at hm
  cases hm

theorem Local.not_used (h : Local kind s v t p) (hp : p.entry = some a) {b : Ptr} (hb : b ≠ a) :
    s.slot b ≠ .used t := by
  intro he
  have hm := (h.slot b).mpr he
  rw [hp] at hm
  exact hb (Option.some.inj hm).symm

theorem Local.none_used (h : Local kind s v t p) (hp : p.entry = none) (b : Ptr) :
    s.slot b ≠ .used t := by
  intro he
  have hm := (h.slot b).mpr he
  rw [hp] at hm
  cases hm

theorem Local.detached {p' : Pc} {w : ℕ} {next : Ptr → Ptr} {f : Tid → Pc} {keep gone : List Ptr}
    (h : Local kind s v t p) (hgone : ∀ a ∈ gone, v.stat a = .queued)
    (he : p'.entry = p.entry) (ha : p'.answering = p.answering)
    (hs : ∀ st, p.stage.Admits t st → p'.stage.Admits t st)
    (hlive : ∀ st, p.stage.Admits t .queued → st = .taken t → p'.stage.Admits t st)
    (hb : p'.built = true → p.built = true) (hf : p'.flagged = true → p.flagged = true)
    (hq : ∀ q, p'.reqs = some q → p.reqs = some q) (hk : p'.Fits kind)
    (ht : Chain 0 next p'.takePtr gone)
    (hh : Hold kind { s with word := w, next := next, pc := f } (v.detach t keep gone) p')
    (hc : Counted kind { s with word := w, next := next, pc := f } (v.detach t keep gone) t p') :
    Local kind { s with word := w, next := next, pc := f } (v.detach t keep gone) t p' where
  slot a := by rw [he]; exact h.slot a
  stat a hm := by
    have hst := h.stat a (by rw [← he]; exact hm)
    by_cases hg : a ∈ gone
    · rw [hgone a hg] at hst
      exact hlive _ hst (if_pos hg)
    · rw [show (v.detach t keep gone).stat a = v.stat a from if_neg hg]
      exact hs _ hst
  anchors a hm := h.anchors a (by rw [← he]; exact hm)
  built a hm hp := h.built a (by rw [← he]; exact hm) (hb hp)
  flagged a hm hp := h.flagged a (by rw [← he]; exact hm) (hf hp)
  reqs q hm := h.reqs q (hq q hm)
  fits := hk
  answering a := by
    have hst := h.answering a
    rw [ha]
    by_cases hg : a ∈ gone
    · rw [show (v.detach t keep gone).stat a = .taken t from if_pos hg]
      rw [hgone a hg] at hst
      simpa using hst
    · rw [show (v.detach t keep gone).stat a = v.stat a from if_neg hg]
      exact hst
  taken := by
    rw [show (v.detach t keep gone).taken t = gone from Function.update_self ..]
    exact ht
  hold := hh
  counted := hc

theorem Local.taken_nil (h : Local kind s v t p) (hp : p.takePtr = 0) : v.taken t = [] := by
  have hc := h.taken
  rw [hp] at hc
  exact chain_null.mp hc

theorem Inv.setWord (h : Inv kind s v) (w : ℕ) (ha : anchor w = anchor s.word)
    (hu : ∀ u, u ≠ t → (s.pc u).Holds → Locked w ∧ data w ≤ data s.word)
    (hl : Local kind ({ s with word := w }.goto t p) v t p)
    (hh : p.Holds → (s.pc t).Holds ∨ ∀ u, ¬(s.pc u).Holds)
    (hk : Locked w → p.Holds ∨
      (Locked s.word ∧ ¬(s.pc t).Holds ∧ (s.word = POISONED_STATE → w = POISONED_STATE)) ∨
      (kind = .lock ∧ w = POISONED_STATE)) : Inv kind ({ s with word := w }.goto t p) v := by
  refine h.advance t (fun u hu => goto_pc_of_ne _ _ _ hu) ?_ (by rw [goto_pc_self]; exact hl) ?_
    (by rw [goto_pc_self]; exact hh) (by rw [goto_pc_self]; exact hk)
  · exact { h.glob with chain := by simpa only [goto_word, goto_next, ha] using h.glob.chain }
  · intro u hut
    exact {
      slot := fun _ => Iff.rfl
      stat := fun _ _ => Or.inl rfl
      fresh := fun _ _ _ => ⟨rfl, rfl, rfl⟩
      flag := fun _ _ h => h
      answered := fun _ => Iff.rfl
      taken := rfl
      links := fun _ _ => ⟨rfl, rfl⟩
      hold := fun hh => ⟨[], rfl, by simp, fun _ _ => ⟨rfl, rfl⟩, hu u hut hh⟩ }

theorem Inv.goto (h : Inv kind s v) (hl : Local kind (s.goto t p) v t p)
    (hh : p.Holds ↔ (s.pc t).Holds) : Inv kind (s.goto t p) v := by
  refine h.setWord s.word rfl (fun u _ hu => ⟨h.word_locked hu, le_rfl⟩) hl
    (fun hp => Or.inl (hh.mp hp)) fun hw => ?_
  by_cases hp : p.Holds
  · exact Or.inl hp
  · exact Or.inr (Or.inl ⟨hw, fun ht => hp (hh.mpr ht), id⟩)

theorem Inv.freeWord (h : Inv kind s v) {w : ℕ} (hs : s.word < 64) (hw : w < 64)
    (hl : Local kind ({ s with word := w }.goto t p) v t p) (hh : ¬p.Holds) :
    Inv kind ({ s with word := w }.goto t p) v := by
  have hn : ¬Locked s.word := by rw [locked_iff]; omega
  refine h.setWord w ?_ (fun u _ hu => absurd hu (h.none_holds hn u)) hl
    (fun hp => absurd hp hh) fun hl => ?_
  · rw [anchor_eq, anchor_eq]; omega
  · rw [locked_iff] at hl; omega

structure EntryOk (kind : Kind) (s : Cfg) (v : View) (a : Ptr) : Prop where
  anchors : v.stat a ≠ .idle → IsAnchor a
  alive : v.stat a ≠ .idle → s.slot a ≠ .none
  clear : v.stat a = .queued ∨ (∃ t, v.stat a = .taken t) ∨ v.stat a = .unlinked →
    s.state a = .clear
  set : ∀ t, v.stat a = .answered t →
    (s.state a).resultSet = true ∧ (s.state a).finalized = false
  final : v.stat a = .final → (s.state a).resultSet = true ∧ (s.state a).finalized = true
  pagers : s.slot a = .pager → IsAnchor a ∧ v.stat a ≠ .unlinked ∧
    (s.pollable a = true ↔ v.stat a ≠ .idle) ∧ (v.stat a = .idle → s.state a = .clear)
  opcodes : v.stat a ≠ .idle → (s.opcode a).Fits kind
  sets : v.sets a = (v.stat a).setCount

theorem Global.entry (h : Global kind s v) (a : Ptr) : EntryOk kind s v a :=
  ⟨h.anchors a, h.alive a, h.clear a, h.set a, h.final a, h.pagers a, h.opcodes a, h.sets a⟩

theorem Global.of (chain : Chain 0 s.next (anchor s.word) v.queue)
    (queued : ∀ a, a ∈ v.queue ↔ v.stat a = .queued)
    (taken : ∀ t a, a ∈ v.taken t ↔ v.stat a = .taken t)
    (tail_prev : ∀ a ∈ v.queue.head?, s.prev a = 0) (h : ∀ a, EntryOk kind s v a) :
    Global kind s v :=
  ⟨chain, queued, taken, fun a => (h a).anchors, fun a => (h a).alive, fun a => (h a).clear,
    fun a => (h a).set, fun a => (h a).final, fun a => (h a).pagers, tail_prev,
    fun a => (h a).opcodes, fun a => (h a).sets⟩

theorem EntryOk.congr {s' : Cfg} {v' : View} (h : EntryOk kind s v a) (hst : v'.stat a = v.stat a)
    (hse : v'.sets a = v.sets a) (hsl : s'.slot a = s.slot a) (hs : s'.state a = s.state a)
    (hp : s'.pollable a = s.pollable a) (ho : s'.opcode a = s.opcode a) : EntryOk kind s' v' a := by
  constructor <;> simp only [hst, hse, hsl, hs, hp, ho]
  exacts [h.anchors, h.alive, h.clear, h.set, h.final, h.pagers, h.opcodes, h.sets]

/-- Two states agree on everything outside one entry, program points aside. -/
structure SameOff (s s' : Cfg) (a : Ptr) : Prop where
  word : s'.word = s.word
  next : ∀ b, b ≠ a → s'.next b = s.next b
  prev : ∀ b, b ≠ a → s'.prev b = s.prev b
  opcode : ∀ b, b ≠ a → s'.opcode b = s.opcode b
  state : ∀ b, b ≠ a → s'.state b = s.state b
  pollable : ∀ b, b ≠ a → s'.pollable b = s.pollable b
  slot : ∀ b, b ≠ a → s'.slot b = s.slot b

/-- A step on one entry that neither enters nor leaves the queue: its owner prepares,
flags, consumes or frees it, or a resolver answers it. -/
theorem Inv.onEntry {s' : Cfg} {v' : View} (h : Inv kind s v) (a : Ptr) (hoff : SameOff s s' a)
    (hpc : ∀ u, u ≠ t → s'.pc u = s.pc u) (hqueue : v'.queue = v.queue)
    (hstat : ∀ b, b ≠ a → v'.stat b = v.stat b) (hsets : ∀ b, b ≠ a → v'.sets b = v.sets b)
    (hq : v'.stat a = .queued ↔ v.stat a = .queued)
    (htk : ∀ u, u ≠ t → (v'.stat a = .taken u ↔ v.stat a = .taken u))
    (htl : ∀ b, b ∈ v'.taken t ↔ v'.stat b = .taken t)
    (htu : ∀ u, u ≠ t → v'.taken u = v.taken u)
    (hlink : v.stat a = .queued ∨ (∃ u, v.stat a = .taken u) →
      s'.next a = s.next a ∧ s'.prev a = s.prev a ∧ s'.opcode a = s.opcode a)
    (hok : EntryOk kind s' v' a) (hslot : ∀ u, u ≠ t → (s'.slot a = .used u ↔ s.slot a = .used u))
    (hans : ∀ u, u ≠ t → (v'.stat a = .answered u ↔ v.stat a = .answered u))
    (hother : ∀ u, u ≠ t → s.slot a = .used u → Progress (v.stat a) (v'.stat a) ∧
      v.stat a ≠ .idle ∧ (s.pollable a = true → s'.pollable a = true))
    (hh : (s'.pc t).Holds ↔ (s.pc t).Holds)
    (hl : Local kind s' v' t (s'.pc t)) : Inv kind s' v' := by
  have hmem : ∀ b, b ∈ v.queue → s'.next b = s.next b ∧ s'.prev b = s.prev b ∧
      s'.opcode b = s.opcode b := by
    intro b hb
    by_cases hba : b = a
    · subst b; exact hlink (Or.inl ((h.glob.queued a).mp hb))
    · exact ⟨hoff.next b hba, hoff.prev b hba, hoff.opcode b hba⟩
  have hwit : ∀ b, EntryOk kind s' v' b := by
    intro b
    by_cases hba : b = a
    · subst b; exact hok
    · exact (h.glob.entry b).congr (hstat b hba) (hsets b hba) (hoff.slot b hba)
        (hoff.state b hba) (hoff.pollable b hba) (hoff.opcode b hba)
  refine h.advance t hpc ?_ hl ?_ (fun hp => Or.inl (hh.mp hp)) ?_
  · refine .of ?_ ?_ ?_ ?_ hwit
    · rw [hoff.word, hqueue]
      exact h.glob.chain.congr fun b hb => (hmem b hb).1
    · intro b
      rw [hqueue, h.glob.queued]
      by_cases hba : b = a
      · subst b; exact hq.symm
      · rw [hstat b hba]
    · intro u b
      by_cases hu : u = t
      · subst u; exact htl b
      · rw [htu u hu, h.glob.taken]
        by_cases hba : b = a
        · subst b; exact (htk u hu).symm
        · rw [hstat b hba]
    · intro b hb
      rw [hqueue] at hb
      rw [(hmem b (List.mem_of_mem_head? hb)).2.1]
      exact h.glob.tail_prev b hb
  · intro u hu
    exact {
      slot := by
        intro b
        by_cases hba : b = a
        · subst b; exact hslot u hu
        · rw [hoff.slot b hba]
      stat := by
        intro b hb
        by_cases hba : b = a
        · subst b; exact (hother u hu hb).1
        · exact Or.inl (hstat b hba)
      fresh := by
        intro b hb hi
        by_cases hba : b = a
        · subst b; exact absurd hi (hother u hu hb).2.1
        · exact ⟨hoff.state b hba, hoff.prev b hba, hoff.opcode b hba⟩
      flag := by
        intro b hb hp
        by_cases hba : b = a
        · subst b; exact (hother u hu hb).2.2 hp
        · rw [hoff.pollable b hba]; exact hp
      answered := by
        intro b
        by_cases hba : b = a
        · subst b; exact hans u hu
        · rw [hstat b hba]
      taken := htu u hu
      links := by
        intro b hb
        by_cases hba : b = a
        · subst b
          have hl := hlink (Or.inr ⟨u, (h.glob.taken u a).mp hb⟩)
          exact ⟨hl.1, hl.2.2⟩
        · exact ⟨hoff.next b hba, hoff.opcode b hba⟩
      hold := fun hp => ⟨[], hqueue, by simp, fun b hb => (hmem b hb).2,
        by rw [hoff.word]; exact h.word_locked hp, by rw [hoff.word]⟩ }
  · intro hw
    rw [hoff.word] at hw ⊢
    by_cases hp : (s.pc t).Holds
    · exact Or.inl (hh.mpr hp)
    · exact Or.inr (Or.inl ⟨hw, hp, id⟩)

theorem Inv.onOwn {s' : Cfg} {v' : View} (h : Inv kind s v) (hsl : s.slot a = .used t)
    (hoff : SameOff s s' a) (hpc : ∀ u, u ≠ t → s'.pc u = s.pc u)
    (hqueue : v'.queue = v.queue) (hstat : ∀ b, b ≠ a → v'.stat b = v.stat b)
    (hsets : ∀ b, b ≠ a → v'.sets b = v.sets b)
    (hq : v'.stat a = .queued ↔ v.stat a = .queued)
    (htk : ∀ u, v'.stat a = .taken u ↔ v.stat a = .taken u) (htn : v'.taken = v.taken)
    (hlink : v.stat a = .queued ∨ (∃ u, v.stat a = .taken u) →
      s'.next a = s.next a ∧ s'.prev a = s.prev a ∧ s'.opcode a = s.opcode a)
    (hok : EntryOk kind s' v' a) (hslot : ∀ u, u ≠ t → s'.slot a ≠ .used u)
    (hans : ∀ u, u ≠ t → (v'.stat a = .answered u ↔ v.stat a = .answered u))
    (hh : (s'.pc t).Holds ↔ (s.pc t).Holds)
    (hl : Local kind s' v' t (s'.pc t)) : Inv kind s' v' := by
  have hne : ∀ u, u ≠ t → s.slot a ≠ .used u := by
    intro u hu he
    rw [hsl] at he
    exact hu (Slot.used.inj he).symm
  refine h.onEntry a hoff hpc hqueue hstat hsets hq (fun u _ => htk u) ?_ (fun u _ => by rw [htn])
    hlink hok (fun u hu => iff_of_false (hslot u hu) (hne u hu)) hans
    (fun u hu hs => absurd hs (hne u hu)) hh hl
  intro b
  rw [htn, h.glob.taken]
  by_cases hb : b = a
  · subst b; exact (htk t).symm
  · rw [hstat b hb]

/-- A push: the entry becomes the tail and links to the old one. -/
theorem Inv.push (h : Inv kind s v) (w : ℕ) (hent : (s.pc t).entry = some a)
    (hprep : v.stat a = .idle) (hbuilt : (s.pc t).built = true) (hnh : ¬(s.pc t).Holds)
    (hw : anchor w = a) (hlk : Locked w ↔ Locked s.word) (hd : data w ≤ data s.word)
    (hpo : s.word ≠ POISONED_STATE) (hp : ¬p.Holds)
    (hl : Local kind ({ s with
      word := w, next := Function.update s.next a (anchor s.word) }.goto t p)
      { v with queue := a :: v.queue, stat := Function.update v.stat a .queued } t p) :
    Inv kind ({ s with word := w, next := Function.update s.next a (anchor s.word) }.goto t p)
      { v with queue := a :: v.queue, stat := Function.update v.stat a .queued } := by
  have hloc := h.loc t
  have hslot := (hloc.slot a).mp hent
  obtain ⟨hclear, hprev, hcount⟩ := hloc.built a hent hbuilt
  have hanch := hloc.anchors a hent
  have hane : a ≠ 0 := by
    have := hanch.2
    rintro rfl
    simp [VIRTUAL_ALIGNMENT] at this
  have hnq : a ∉ v.queue := by rw [h.glob.queued, hprep]; simp
  have hnt : ∀ u, a ∉ v.taken u := by intro u; rw [h.glob.taken, hprep]; simp
  refine h.advance t (fun u hu => goto_pc_of_ne _ _ _ hu) ?_ (by rw [goto_pc_self]; exact hl) ?_
    (by rw [goto_pc_self]; exact fun hh => absurd hh hp) ?_
  · refine .of ?_ ?_ ?_ ?_ ?_
    · simpa only [goto_word, goto_next, hw] using h.glob.chain.push hane hnq
    · intro b
      by_cases hb : b = a
      · subst b; simp
      · simp [hb, h.glob.queued]
    · intro u b
      by_cases hb : b = a
      · subst b; simp [hnt u]
      · simp [hb, h.glob.taken]
    · intro b hb
      simp only [List.head?_cons, Option.mem_def, Option.some.injEq] at hb
      subst b
      exact hprev
    · intro b
      by_cases hba : b = a
      · subst b
        constructor <;> simp [hanch, hslot, hclear, hcount, h.glob.sets, hprep, Stat.setCount]
      · exact (h.glob.entry b).congr (Function.update_of_ne hba _ _) rfl rfl rfl rfl rfl
  · intro u hu
    have hua : s.slot a ≠ .used u := by rw [hslot]; simpa using hu.symm
    exact {
      slot := fun _ => Iff.rfl
      stat := by
        intro b hb
        have hba : b ≠ a := by rintro rfl; exact hua hb
        exact Or.inl (Function.update_of_ne hba _ _)
      fresh := fun _ _ _ => ⟨rfl, rfl, rfl⟩
      flag := fun _ _ h => h
      answered := by
        intro b
        by_cases hba : b = a
        · subst b; simp [hprep]
        · simp [hba]
      taken := rfl
      links := by
        intro b hb
        have hba : b ≠ a := ne_of_mem_of_not_mem hb (hnt u)
        simp [hba]
      hold := fun hh => ⟨[a], rfl, by simpa using ⟨hprev, hua⟩, fun _ _ => ⟨rfl, rfl⟩,
        hlk.mpr (h.word_locked hh), hd⟩ }
  · intro hw'
    exact Or.inr (Or.inl ⟨hlk.mp hw', hnh, fun he => absurd he hpo⟩)

/-- Detaching the older part of the queue, or all of it, when nobody else owns the queue. -/
theorem Inv.detach (h : Inv kind s v) (w : ℕ) (next : Ptr → Ptr) (keep gone : List Ptr)
    (hq : v.queue = keep ++ gone) (ht : v.taken t = [])
    (hchain : Chain 0 next (anchor w) keep)
    (hnext : ∀ b, b ∉ v.queue → next b = s.next b)
    (hno : ∀ u, u ≠ t → ¬(s.pc u).Holds)
    (hh : p.Holds → (s.pc t).Holds)
    (hk : Locked w → p.Holds ∨ (kind = .lock ∧ w = POISONED_STATE))
    (hl : Local kind ({ s with word := w, next := next }.goto t p) (v.detach t keep gone) t p) :
    Inv kind ({ s with word := w, next := next }.goto t p) (v.detach t keep gone) := by
  have hnd := h.glob.chain.nodup
  rw [hq] at hnd
  have hgone : ∀ b ∈ gone, v.stat b = .queued := fun b hb =>
    (h.glob.queued b).mp (by rw [hq]; exact List.mem_append_right _ hb)
  have hne : ∀ b, b ∉ gone → (v.detach t keep gone).stat b = v.stat b := fun b hb => if_neg hb
  have heq : ∀ b, b ∈ gone → (v.detach t keep gone).stat b = .taken t := fun b hb => if_pos hb
  refine h.advance t (fun u hu => goto_pc_of_ne _ _ _ hu) ?_ (by rw [goto_pc_self]; exact hl) ?_
    (by rw [goto_pc_self]; exact fun hp => Or.inl (hh hp)) ?_
  · refine .of hchain ?_ ?_ ?_ ?_
    · intro b
      change b ∈ keep ↔ _
      by_cases hb : b ∈ gone
      · have hdis := (List.disjoint_of_nodup_append hnd)
        rw [heq b hb]
        simpa using fun hk => hdis hk hb
      · rw [hne b hb, ← h.glob.queued, hq]
        simp [hb]
    · intro u b
      by_cases hu : u = t
      · subst u
        simp only [View.detach, Function.update_self]
        by_cases hb : b ∈ gone
        · simp [hb]
        · have := h.glob.taken t b
          rw [ht] at this
          simpa [hb] using this
      · simp only [View.detach, Function.update_of_ne hu, h.glob.taken]
        by_cases hb : b ∈ gone
        · simp [hb, hgone b hb, Ne.symm hu]
        · simp [hb]
    · intro b hb
      apply h.glob.tail_prev b
      rw [hq]
      cases keep with
      | nil => cases hb
      | cons c keep => exact hb
    · intro b
      by_cases hb : b ∈ gone
      · have he := h.glob.entry b
        have hs := hgone b hb
        have hd := heq b hb
        have hsets : (v.detach t keep gone).sets = v.sets := rfl
        constructor <;> simp only [hd, hsets, goto_slot, goto_state, goto_pollable, goto_opcode,
          reduceCtorEq, false_implies, implies_true, Stat.setCount]
        · exact fun _ => he.anchors (by simp [hs])
        · exact fun _ => he.alive (by simp [hs])
        · exact fun _ => he.clear (Or.inl hs)
        · intro hp
          obtain ⟨h₁, h₂, h₃, h₄⟩ := he.pagers hp
          exact ⟨h₁, by simp, by simpa [hs] using h₃, trivial⟩
        · exact fun _ => he.opcodes (by simp [hs])
        · simpa [hs, Stat.setCount] using he.sets
      · exact (h.glob.entry b).congr (hne b hb) rfl rfl rfl rfl rfl
  · intro u hu
    exact {
      slot := fun _ => Iff.rfl
      stat := by
        intro b _
        by_cases hb : b ∈ gone
        · exact Or.inr (Or.inl ⟨hgone b hb, t, heq b hb⟩)
        · exact Or.inl (hne b hb)
      fresh := fun _ _ _ => ⟨rfl, rfl, rfl⟩
      flag := fun _ _ h => h
      answered := by
        intro b
        by_cases hb : b ∈ gone
        · simp [heq b hb, hgone b hb]
        · rw [hne b hb]
      taken := Function.update_of_ne hu _ _
      links := by
        intro b hb
        refine ⟨hnext b fun hm => ?_, rfl⟩
        have h₁ := (h.glob.taken u b).mp hb
        rw [(h.glob.queued b).mp hm] at h₁
        cases h₁
      hold := fun hp => absurd hp (hno u hu) }
  · intro hw
    rcases hk hw with hp | hp
    · exact Or.inl (by rw [goto_pc_self]; exact hp)
    · exact Or.inr (Or.inr hp)

theorem Inv.takeAll (h : Inv kind s v) (w : ℕ) (hno : ¬Locked s.word) (hw : anchor w = 0)
    (hk : Locked w → kind = .lock ∧ w = POISONED_STATE) (ht : v.taken t = []) (hp : ¬p.Holds)
    (hl : Local kind ({ s with word := w }.goto t p) (v.detach t [] v.queue) t p) :
    Inv kind ({ s with word := w }.goto t p) (v.detach t [] v.queue) :=
  h.detach w s.next [] v.queue rfl ht hw (fun _ _ => rfl) (fun u _ => h.none_holds hno u)
    (fun hh => absurd hh hp) (fun hh => Or.inr (hk hh)) hl

theorem Inv.setPrev (h : Inv kind s v) (b x : Ptr) (ht : (s.pc t).Holds) (hb : b ∈ v.queue)
    (hb' : v.queue.head? ≠ some b) (hp : p.Holds)
    (hl : Local kind ({ s with prev := Function.update s.prev b x }.goto t p) v t p) :
    Inv kind ({ s with prev := Function.update s.prev b x }.goto t p) v := by
  have hbq := (h.glob.queued b).mp hb
  refine h.advance t (fun u hu => goto_pc_of_ne _ _ _ hu) ?_ (by rw [goto_pc_self]; exact hl) ?_
    (fun _ => Or.inl ht) (fun _ => Or.inl (by rw [goto_pc_self]; exact hp))
  · refine .of h.glob.chain h.glob.queued h.glob.taken ?_
      fun c => (h.glob.entry c).congr rfl rfl rfl rfl rfl rfl
    intro c hc
    have hcb : c ≠ b := by rintro rfl; exact hb' hc
    simpa [hcb] using h.glob.tail_prev c hc
  · intro u hu
    exact {
      slot := fun _ => Iff.rfl
      stat := fun _ _ => Or.inl rfl
      fresh := by
        intro c _ hi
        have hcb : c ≠ b := by rintro rfl; rw [hbq] at hi; cases hi
        exact ⟨rfl, by simp [hcb], rfl⟩
      flag := fun _ _ h => h
      answered := fun _ => Iff.rfl
      taken := rfl
      links := fun _ _ => ⟨rfl, rfl⟩
      hold := fun hh => absurd hh (h.only ht hu) }

theorem Inv.unlink (h : Inv kind s v) (w : ℕ) (next prev : Ptr → Ptr) (l₁ l₂ : List Ptr)
    (hq : v.queue = l₁ ++ a :: l₂) (ht : (s.pc t).Holds) (hent : (s.pc t).entry = some a)
    (hchain : Chain 0 next (anchor w) (l₁ ++ l₂))
    (hnext : ∀ b, b ∉ v.queue → next b = s.next b)
    (hprev : ∀ b, b ∉ v.queue → prev b = s.prev b)
    (htail : ∀ b ∈ (l₁ ++ l₂).head?, prev b = 0)
    (hk : Locked w → p.Holds)
    (hl : Local kind ({ s with word := w, next := next, prev := prev }.goto t p)
      { v with queue := v.queue.erase a, stat := Function.update v.stat a .unlinked } t p) :
    Inv kind ({ s with word := w, next := next, prev := prev }.goto t p)
      { v with queue := v.queue.erase a, stat := Function.update v.stat a .unlinked } := by
  have hnd := h.glob.chain.nodup
  have haq : a ∈ v.queue := by rw [hq]; simp
  have hst := (h.glob.queued a).mp haq
  have hl₁ : a ∉ l₁ := by
    rw [hq] at hnd
    exact fun hm => (List.disjoint_of_nodup_append hnd) hm (by simp)
  have her : v.queue.erase a = l₁ ++ l₂ := by
    rw [hq, List.erase_append_right _ hl₁, List.erase_cons_head]
  have hslot := ((h.loc t).slot a).mp hent
  refine h.advance t (fun u hu => goto_pc_of_ne _ _ _ hu) ?_ (by rw [goto_pc_self]; exact hl) ?_
    (fun _ => Or.inl ht) (fun hw => Or.inl (by rw [goto_pc_self]; exact hk hw))
  · refine .of ?_ ?_ ?_ ?_ ?_
    · change Chain 0 next (anchor w) (v.queue.erase a)
      rw [her]
      exact hchain
    · intro b
      simp only
      rw [hnd.mem_erase_iff, h.glob.queued]
      by_cases hb : b = a
      · subst b; simp
      · simp [hb]
    · intro u b
      simp only [h.glob.taken]
      by_cases hb : b = a
      · subst b; simp [hst]
      · simp [hb]
    · change ∀ b ∈ (v.queue.erase a).head?, prev b = 0
      rw [her]
      exact htail
    · intro b
      by_cases hb : b = a
      · subst b
        have he := h.glob.entry a
        have hcl := he.clear (Or.inl hst)
        have hse := he.sets
        rw [hst] at hse
        constructor <;> simp [he.anchors (by simp [hst]), hslot, hcl, he.opcodes (by simp [hst]),
          hse, Stat.setCount]
      · exact (h.glob.entry b).congr (Function.update_of_ne hb _ _) rfl rfl rfl rfl rfl
  · intro u hu
    have hua : s.slot a ≠ .used u := by rw [hslot]; simpa using hu.symm
    have hoff : ∀ b, v.stat b ≠ .queued → b ∉ v.queue := fun b hb hm =>
      hb ((h.glob.queued b).mp hm)
    exact {
      slot := fun _ => Iff.rfl
      stat := by
        intro b hb
        have hba : b ≠ a := by rintro rfl; exact hua hb
        exact Or.inl (Function.update_of_ne hba _ _)
      fresh := fun b _ hi => ⟨rfl, hprev b (hoff b (by simp [hi])), rfl⟩
      flag := fun _ _ h => h
      answered := by
        intro b
        by_cases hb : b = a
        · subst b; simp [hst]
        · simp [hb]
      taken := rfl
      links := by
        intro b hb
        refine ⟨hnext b (hoff b ?_), rfl⟩
        rw [(h.glob.taken u b).mp hb]
        simp
      hold := fun hh => absurd hh (h.only ht hu) }

end
end Saa
