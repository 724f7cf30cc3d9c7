import Saa.Resolution

/-! # A thread running alone

What the loops over detached entries do when no other thread takes a step. -/
namespace Saa

open Word Lib.Linked Lib.Trace

/-- Thread `t` takes some steps of its call, and nobody else moves. -/
abbrev Solo (kind : Kind) (t : Tid) : Cfg → List Event → Cfg → List Event → Prop :=
  Alone (system kind) (.run t)

/-- Thread `t` gave the code `r` to the entries `as` and changed nothing else. -/
structure Handed (t : Tid) (r : ℕ) (as : List Ptr) (s : Cfg) (h : List Event) (s' : Cfg)
    (h' : List Event) : Prop where
  word : s'.word = s.word
  next : s'.next = s.next
  prev : s'.prev = s.prev
  opcode : s'.opcode = s.opcode
  slot : s'.slot = s.slot
  pc : ∀ u, u ≠ t → s'.pc u = s.pc u
  queue : (view h').queue = (view h).queue
  given : ∀ a ∈ as, s'.state a = ⟨r, true, true⟩ ∧ (view h').stat a = .final
  others : ∀ a ∉ as, s'.state a = s.state a ∧ (view h').stat a = (view h).stat a
  taken : ∀ u, u ≠ t → (view h').taken u = (view h).taken u

section
variable {kind : Kind} {s s₁ s' : Cfg} {h h₁ h' : List Event} {t : Tid} {a cur : Ptr} {r n : ℕ}
  {k : Then} {as bs l : List Ptr}

theorem Handed.refl : Handed t r [] s h s h := by
  constructor <;> simp

theorem Handed.trans (hx : Handed t r as s h s₁ h₁) (hy : Handed t r bs s₁ h₁ s' h')
    (hd : as.Disjoint bs) : Handed t r (as ++ bs) s h s' h' where
  word := hy.word.trans hx.word
  next := hy.next.trans hx.next
  prev := hy.prev.trans hx.prev
  opcode := hy.opcode.trans hx.opcode
  slot := hy.slot.trans hx.slot
  pc u hu := (hy.pc u hu).trans (hx.pc u hu)
  queue := hy.queue.trans hx.queue
  given b hb := by
    rcases List.mem_append.mp hb with hb | hb
    · obtain ⟨h₁, h₂⟩ := hy.others b (hd hb)
      rw [h₁, h₂]
      exact hx.given b hb
    · exact hy.given b hb
  others b hb := by
    rw [List.mem_append, not_or] at hb
    obtain ⟨h₁, h₂⟩ := hy.others b hb.2
    rw [h₁, h₂]
    exact hx.others b hb.1
  taken u hu := (hy.taken u hu).trans (hx.taken u hu)

/-- Outside the two writes of the last arriver of a barrier, every step of a thread keeps the
queue invariant of every primitive. -/
theorem Inv.run {v : View} {e : Event} (hi : Inv kind s v)
    (ha : ∀ q state i, s.pc t ≠ .attempt q state i) (hw : ∀ q c, s.pc t ≠ .writeBack q c)
    (hs : step kind s (.run t) = some (e, s')) : Inv kind s' (v.observe e) := by
  refine runStep_inv hi ?_ (fun q c hp => absurd hp (hw q c)) hs
  simp only [Intrudes]
  exact id

theorem resolve_one (hi : Inv kind s (view h)) (hp : s.pc t = .resolve a r n k)
    (hl : (view h).taken t = a :: l) :
    ∃ s' h', Solo kind t s h s' h' ∧ Inv kind s' (view h') ∧
      s'.pc t = .resolve (s.next a) r (n + 1) k ∧ (view h').taken t = l ∧
      Handed t r [a] s h s' h' := by
  have hst : (view h).stat a = .taken t := (hi.glob.taken t a).mp (by rw [hl]; simp)
  have hclear := hi.glob.clear a (Or.inr (Or.inl ⟨t, hst⟩))
  have hchain := (hi.loc t).taken
  rw [hl] at hchain
  have hne : a ≠ 0 := hchain.2.1
  have hset : step kind s (.run t) = some (.setResult t a r,
      (s.setResult a r).goto t (.finalize a (s.next a) r n k)) := by
    simp [step, runStep, hp, resolveStep, hne]
  have hfin : step kind ((s.setResult a r).goto t (.finalize a (s.next a) r n k)) (.run t) =
      some (.finalize t a, (((s.setResult a r).goto t
        (.finalize a (s.next a) r n k)).setFinalized a).goto t
          (.resolve (s.next a) r (n + 1) k)) := by
    simp [step, runStep, finalizeStep]
  have hi₁ := hi.run (by simp [hp]) (by simp [hp]) hset
  refine ⟨_, _, .step hset (.step hfin .done), hi₁.run (by simp) (by simp) hfin, ?_, ?_, ?_⟩
  · simp
  · simp [View.observe, hl]
  · constructor
    case given =>
      intro b hb
      rw [List.mem_singleton] at hb
      subst hb
      simp [Cfg.setFinalized, Cfg.setResult, EntryState.set, hclear, EntryState.clear, View.observe]
    case others =>
      intro b hb
      rw [List.mem_singleton] at hb
      simp [Cfg.setFinalized, Cfg.setResult, View.observe, hb]
    case pc =>
      intro u hu
      simp [goto_pc_of_ne _ _ _ hu, Cfg.setFinalized, Cfg.setResult]
    case taken =>
      intro u hu
      simp [View.observe, hu]
    all_goals rfl

/-- A thread that resolves a list finishes it, whatever the list is. -/
theorem resolve_alone (hi : Inv kind s (view h)) (hp : s.pc t = .resolve cur r n k) :
    ∃ s' h', Solo kind t s h s' h' ∧ Inv kind s' (view h') ∧
      s'.pc t = .resolve 0 r (n + ((view h).taken t).length) k ∧ (view h').taken t = [] ∧
      Handed t r ((view h).taken t) s h s' h' := by
  -- induction on the list: `resolve_one` takes off its first entry
  generalize hl : (view h).taken t = l
  induction l generalizing s h cur n with
  | nil =>
    have hchain := (hi.loc t).taken
    rw [hp, hl] at hchain
    obtain rfl : cur = 0 := hchain
    exact ⟨s, h, .done, hi, by simpa using hp, hl, .refl⟩
  | cons a l ih =>
    have hchain := (hi.loc t).taken
    rw [hp, hl] at hchain
    obtain rfl : cur = a := hchain.1
    have hnd := hchain.nodup
    obtain ⟨s₁, h₁, hsolo, hi₁, hp₁, hl₁, hone⟩ := resolve_one hi hp hl
    obtain ⟨s', h', hrest, hi', hp', hl', hall⟩ := ih hi₁ hp₁ hl₁
    refine ⟨s', h', hsolo.trans hrest, hi', ?_, hl', hone.trans hall ?_⟩
    · rw [hp', List.length_cons]
      congr 1
      omega
    · exact List.singleton_disjoint.mpr (List.nodup_cons.mp hnd).1

end
end Saa
