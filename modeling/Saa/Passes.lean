import Saa.Release

/-! # Queue passes keep the invariant

The thread that owns the queue walks it, grants entries from the head on, detaches
them and resolves them. -/
namespace Saa

open Word Lib.Linked

section
variable {kind : Kind} {s : Cfg} {v : View} {t : Tid} {p p' : Pc} {a c cur : Ptr} {k : After}
  {state : ℕ} {newer seg : List Ptr}

theorem Local.along {s' : Cfg} (h : Local kind s v t p) (hsl : s'.slot = s.slot)
    (hnext : s'.next = s.next) (he : p'.entry = p.entry) (ha : p'.answering = p.answering)
    (ht : p'.takePtr = p.takePtr) (hs : p'.stage = p.stage) (hb : p'.built = false)
    (hf : p'.flagged = false) (hq : p'.reqs = none) (hk : p'.Fits kind) (hh : Hold kind s' v p')
    (hc : Counted kind s' v t p') : Local kind s' v t p' where
  slot a := by rw [he, hsl]; exact h.slot a
  stat a hm := by rw [hs]; exact h.stat a (by rw [← he]; exact hm)
  anchors a hm := h.anchors a (by rw [← he]; exact hm)
  built _ _ hp := by rw [hb] at hp; cases hp
  flagged _ _ hp := by rw [hf] at hp; cases hp
  reqs _ hm := by rw [hq] at hm; cases hm
  fits := hk
  answering a := by rw [ha]; exact h.answering a
  taken := by rw [ht, hnext]; exact h.taken
  hold := hh
  counted := hc

theorem Inv.snap_ne (h : Inv kind s v) (hs : Snap s v state newer seg) (ha : a ∈ seg) : a ≠ 0 :=
  h.glob.chain.ne_null a (hs.mem ha)

theorem Inv.snap_chain (h : Inv kind s v) (hs : Snap s v state newer seg) :
    Chain 0 s.next (anchor s.word) (newer ++ seg) := by
  rw [← hs.split]
  exact h.glob.chain

theorem Snap.head (hs : Snap s v state newer seg) : ∃ rest, seg = anchor state :: rest := by
  cases seg with
  | nil => cases hs.tail
  | cons b rest => exact ⟨rest, by rw [Option.some.inj hs.tail]⟩

theorem Snap.goto (hs : Snap s v state newer seg) (t : Tid) (p : Pc) :
    Snap (s.goto t p) v state newer seg :=
  ⟨hs.split, hs.tail, hs.locked, hs.word_locked, hs.data_le, hs.newer_prev, hs.tail_prev⟩

theorem Snap.setPrev (hs : Snap s v state newer seg) (hnd : v.queue.Nodup) (hc : c ∈ seg.tail)
    (x : Ptr) (f : Tid → Pc) :
    Snap { s with prev := Function.update s.prev c x, pc := f } v state newer seg := by
  obtain ⟨rest, rfl⟩ := hs.head
  rw [hs.split, List.nodup_append] at hnd
  have hcr : c ∈ rest := hc
  refine ⟨hs.split, hs.tail, hs.locked, hs.word_locked, hs.data_le, fun b hb => ?_, ?_⟩
  · have hbc : b ≠ c := hnd.2.2 b hb c (List.mem_cons_of_mem _ hcr)
    simpa [hbc] using hs.newer_prev b hb
  · have hne : anchor state ≠ c := by
      rintro rfl
      exact (List.nodup_cons.mp hnd.2.1).1 hcr
    simpa [hne] using hs.tail_prev

theorem Snap.not_head (hs : Snap s v state newer seg) (hnd : v.queue.Nodup) (hc : c ∈ seg.tail) :
    v.queue.head? ≠ some c := by
  obtain ⟨rest, rfl⟩ := hs.head
  have hcr : c ∈ rest := hc
  rw [hs.split, List.nodup_append] at hnd
  intro he
  cases newer with
  | nil =>
    rw [hs.split] at he
    cases he
    exact (List.nodup_cons.mp hnd.2.1).1 hcr
  | cons b newer =>
    rw [hs.split] at he
    cases he
    exact hnd.2.2 c (by simp) c (List.mem_cons_of_mem _ hcr) rfl

theorem Inv.stepBack (h : Inv kind s v) {done rest : List Ptr} (hh : (s.pc t).Holds)
    (hs : Snap s v state newer (done ++ cur :: c :: rest))
    (hl : Local kind ({ s with prev := Function.update s.prev c cur }.goto t p) v t p)
    (hp : p.Holds) : Inv kind ({ s with prev := Function.update s.prev c cur }.goto t p) v := by
  have hnd := h.glob.chain.nodup
  have hc : c ∈ (done ++ cur :: c :: rest).tail := by
    cases done <;> simp
  exact h.setPrev c cur hh (hs.mem (List.mem_of_mem_tail hc)) (hs.not_head hnd hc) hp hl

theorem Inv.back_step (h : Inv kind s v) {done rest : List Ptr}
    (hs : Snap s v state newer (done ++ cur :: c :: rest))
    (hb : (done ++ [cur]).IsChain (Back s.prev)) (f : Tid → Pc) :
    Snap { s with prev := Function.update s.prev c cur, pc := f } v state newer
      ((done ++ [cur]) ++ c :: rest) ∧
    ((done ++ [cur]) ++ [c]).IsChain (Back (Function.update s.prev c cur)) := by
  have hnd := h.glob.chain.nodup
  have hc : c ∈ (done ++ cur :: c :: rest).tail := by
    cases done <;> simp
  have hsn := hs.setPrev hnd hc cur f
  refine ⟨by simpa using hsn, back_extend hb ?_⟩
  rw [hs.split, List.nodup_append] at hnd
  have hseg := hnd.2.1
  rw [show done ++ cur :: c :: rest = (done ++ [cur]) ++ (c :: rest) by simp,
    List.nodup_append] at hseg
  exact fun hm => hseg.2.2 c hm c (by simp) rfl

theorem walkStep_inv (h : Inv kind s v) (hpc : s.pc t = .walk state cur k) :
    Inv kind (walkStep s t state cur k).2 (v.observe (walkStep s t state cur k).1) := by
  have hl := h.loc t
  rw [hpc] at hl
  obtain ⟨newer, done, rest, hs, hb⟩ := hl.hold
  have hcur := h.snap_ne hs (a := cur) (by simp)
  have hchain := h.snap_chain hs
  rw [← List.append_assoc] at hchain
  have hh : (s.pc t).Holds := by rw [hpc]; trivial
  cases rest with
  | nil =>
    have hn : s.next cur = 0 := hchain.next_last
    simp only [walkStep, if_neg hcur, hn, ↓reduceIte]
    refine h.goto (hl.along rfl rfl rfl rfl rfl rfl rfl rfl rfl hl.fits ?_ trivial)
      (by rw [hpc]; exact Iff.rfl)
    exact ⟨newer, done, [], hs.goto t _, hb, rfl, rfl, trivial⟩
  | cons c rest =>
    have hn : s.next cur = c := hchain.next_eq
    have hc := h.snap_ne hs (a := c) (by simp)
    simp only [walkStep, if_neg hcur, hn, if_neg hc]
    obtain ⟨hs', hb'⟩ := h.back_step hs hb (Function.update s.pc t (.walk state c k))
    exact h.stepBack hh hs (hl.along rfl rfl rfl rfl rfl rfl rfl rfl rfl hl.fits
      ⟨newer, done ++ [cur], rest, hs', hb'⟩ trivial) trivial

theorem relinkStep_inv (h : Inv kind s v) {head : Ptr} (hpc : s.pc t = .relink state head cur k) :
    Inv kind (relinkStep s t state head cur k).2
      (v.observe (relinkStep s t state head cur k).1) := by
  have hl := h.loc t
  rw [hpc] at hl
  obtain ⟨newer, done, rest, hs, hb, hpart, hlast⟩ := hl.hold
  have hcur := h.snap_ne hs (a := cur) (by simp)
  have hchain := h.snap_chain hs
  rw [← List.append_assoc] at hchain
  have hh : (s.pc t).Holds := by rw [hpc]; trivial
  have hstop : (done ++ cur :: rest).IsChain (Back s.prev) →
      Inv kind (s.goto t (.back state head head 0 0 k)) v := by
    intro hfull
    obtain ⟨l, hl'⟩ := List.getLast?_eq_some_iff.mp hlast
    refine h.goto (hl.along rfl rfl rfl rfl rfl rfl rfl rfl rfl hl.fits ?_ trivial)
      (by rw [hpc]; exact Iff.rfl)
    exact ⟨newer, l, [], by rw [← hl']; exact hs.goto t _, by rw [← hl']; exact hfull, rfl, rfl,
      trivial⟩
  cases rest with
  | nil =>
    have hn : s.next cur = 0 := hchain.next_last
    simp only [relinkStep, if_neg hcur, hn, ne_eq, not_true_eq_false, false_and, ↓reduceIte]
    exact hstop hb
  | cons c rest =>
    have hn : s.next cur = c := hchain.next_eq
    have hc := h.snap_ne hs (a := c) (by simp)
    by_cases hz : s.prev c = 0
    · simp only [relinkStep, if_neg hcur, hn, ne_eq, hc, not_false_eq_true, hz, and_self,
        ↓reduceIte]
      obtain ⟨hs', hb'⟩ := h.back_step hs hb (Function.update s.pc t (.relink state head c k))
      refine h.stepBack hh hs (hl.along rfl rfl rfl rfl rfl rfl rfl rfl rfl hl.fits
        ⟨newer, done ++ [cur], rest, hs', hb', ?_, by simpa using hlast⟩ trivial) trivial
      -- a null link in front of `c` rules out that the rest is already linked
      have hrest : Partial 0 s.prev (c :: rest) := by
        rcases hpart with ⟨-, hp⟩ | hp
        · exact hp
        · rw [List.isChain_cons_cons] at hp
          exact absurd (hp.1.symm.trans hz) hcur
      refine partial_congr hrest fun b hm => Function.update_of_ne ?_ _ _
      have hnd := h.glob.chain.nodup
      rw [hs.split, List.nodup_append, List.nodup_append] at hnd
      have hcr := (List.nodup_cons.mp (List.nodup_cons.mp hnd.2.1.2.1).2).1
      exact ne_of_mem_of_not_mem hm hcr
    · simp only [relinkStep, if_neg hcur, hn, ne_eq, hc, not_false_eq_true, hz, and_false,
        ↓reduceIte]
      apply hstop
      have hfull : (cur :: c :: rest).IsChain (Back s.prev) := by
        rcases hpart with ⟨hp, -⟩ | hp
        · exact absurd hp hz
        · exact hp
      have hover : (done ++ [cur] ++ (c :: rest)).IsChain (Back s.prev) :=
        hb.append_overlap hfull (by simp)
      simpa using hover

theorem total_cons (o : Ptr → Opcode) (a : Ptr) (l : List Ptr) :
    total o (a :: l) = (o a).acquiredCount + total o l := by
  simp [total]

theorem greedy_le {max held : ℕ} {o : Ptr → Opcode} {l : List Ptr} (h : Greedy max o held l)
    (hmax : max ≤ DATA_MASK) (hheld : held ≤ DATA_MASK)
    (hop : ∀ a ∈ l, (o a).acquiredCount ≤ DATA_MASK) : held + total o l ≤ DATA_MASK := by
  induction l with
  | nil => simpa [total] using hheld
  | cons a l ih =>
    have ih := ih h.1 fun b hb => hop b (by simp [hb])
    rw [total_cons]
    rcases h.2 with hz | hle
    · have := hop a (by simp)
      omega
    · have := acquired_le_desired (o a)
      omega

theorem max_le (h : kind ≠ .gate) : kind.maxSharedOwners ≤ DATA_MASK := by
  cases kind with
  | gate => exact absurd rfl h
  | _ => simp [Kind.maxSharedOwners, MAX_SHARED_OWNERS, MAX_PERMITS, MAX_TASKS]

theorem data_le_mask (w : ℕ) : data w ≤ DATA_MASK := by
  have := data_lt w
  change _ ≤ 63
  omega

theorem Inv.opcode_le (h : Inv kind s v) (hst : v.stat a ≠ .idle) :
    (s.opcode a).acquiredCount ≤ DATA_MASK := (h.glob.opcodes a hst).acquired_le

theorem Snap.cut {rest granted : List Ptr} (hs : Snap s v state newer (rest ++ cur :: granted))
    (next : Ptr → Ptr) (f : Tid → Pc) :
    Snap { s with next := next, pc := f } (v.detach t (newer ++ (rest ++ [cur])) granted) state
      newer (rest ++ [cur]) :=
  ⟨rfl, by have := hs.tail; cases rest <;> exact this, hs.locked, hs.word_locked, hs.data_le,
    hs.newer_prev, hs.tail_prev⟩

theorem Inv.cut (h : Inv kind s v) {resolved : Ptr} {rest granted : List Ptr}
    (hh : (s.pc t).Holds) (he : (s.pc t).entry = k.entry) (ha : (s.pc t).answering = none)
    (htp : (s.pc t).takePtr = 0) (hst : (s.pc t).stage = k.stage)
    (hs : Snap s v state newer (rest ++ cur :: granted)) (hres : resolved = granted.headD 0)
    (hpe : p.entry = k.entry) (hpa : p.answering = none) (hpt : p.takePtr = resolved)
    (hps : p.stage = k.stage) (hpb : p.built = false) (hpf : p.flagged = false)
    (hpq : p.reqs = none) (hpk : p.Fits kind) (hpo : p.Holds)
    (hold : Hold kind ({ s with next := Function.update s.next cur 0 }.goto t p)
      (v.detach t (newer ++ (rest ++ [cur])) granted) p)
    (hcnt : Counted kind ({ s with next := Function.update s.next cur 0 }.goto t p)
      (v.detach t (newer ++ (rest ++ [cur])) granted) t p) :
    Inv kind ({ s with next := Function.update s.next cur 0 }.goto t p)
      (v.observe (.cut t cur)) := by
  have hl := h.loc t
  have hq : v.queue = (newer ++ rest) ++ cur :: granted := by rw [hs.split]; simp
  have hchain := h.glob.chain
  rw [hq] at hchain
  have hn : cur ∉ newer ++ rest := by
    have hnd := hchain.nodup
    rw [List.nodup_append] at hnd
    exact fun hm => hnd.2.2 cur hm cur (by simp) rfl
  have hview : v.observe (.cut t cur) = v.detach t (newer ++ (rest ++ [cur])) granted := by
    simp only [View.observe]
    rw [hq, upTo_append hn, behind_append hn, List.append_assoc]
  rw [hview]
  have hnext : s.next cur = resolved := by
    cases granted with
    | nil => exact hres ▸ hchain.next_last
    | cons b granted => exact hres ▸ hchain.next_eq
  refine h.detach s.word _ _ granted (by rw [hs.split]; simp) (hl.taken_nil htp) ?_ ?_
    (fun u hu => h.only hh hu) (fun _ => hh) (fun _ => Or.inl hpo) ?_
  · have := hchain.cut
    simpa using this
  · intro b hb
    refine Function.update_of_ne ?_ _ _
    rintro rfl
    exact hb (by rw [hq]; simp)
  · refine hl.detached (fun b hb => (h.glob.queued b).mp (by rw [hq]; simp [hb]))
      (hpe.trans he.symm) (hpa.trans ha.symm) (fun st hs' => by rw [hps, ← hst]; exact hs') ?_
      (fun hb => by rw [hpb] at hb; cases hb) (fun hb => by rw [hpf] at hb; cases hb)
      (fun _ hr => by rw [hpq] at hr; cases hr) hpk ?_ hold hcnt
    · intro st hq' _
      rw [hst] at hq'
      cases k <;> simp [After.stage, Stage.Admits] at hq'
    · rw [hpt, ← hnext]
      exact hchain.cut_rest 0

theorem back_upto {rest granted : List Ptr} {prev : Ptr → Ptr}
    (h : (rest ++ cur :: granted).IsChain (Back prev)) : (rest ++ [cur]).IsChain (Back prev) := by
  rw [show rest ++ cur :: granted = (rest ++ [cur]) ++ granted by simp] at h
  exact h.left_of_append

theorem backStep_inv (h : Inv kind s v) {head resolved : Ptr} {tr : ℕ}
    (hpc : s.pc t = .back state head cur tr resolved k) :
    Inv kind (backStep kind s t state head cur tr resolved k).2
      (v.observe (backStep kind s t state head cur tr resolved k).1) := by
  have hl := h.loc t
  rw [hpc] at hl
  obtain ⟨newer, rest, granted, hs, hb, htr, hres, hg⟩ := hl.hold
  have hcur := h.snap_ne hs (a := cur) (by simp)
  unfold backStep
  rw [if_neg hcur]
  split
  · next hgr =>
    rw [htr] at hgr
    rcases List.eq_nil_or_concat rest with rfl | ⟨rest, c, rfl⟩
    · have hz : s.prev cur = 0 := by
        obtain ⟨l, hl'⟩ := hs.head
        cases hl'
        exact hs.tail_prev
      rw [if_neg (by simpa using hz)]
      exact h.goto (hl.along rfl rfl rfl rfl rfl rfl rfl rfl rfl hl.fits
        ⟨newer, granted, hs.goto t _, htr, hres, hg, hgr⟩ trivial) (by rw [hpc]; exact Iff.rfl)
    · have hsplit : rest.concat c ++ cur :: granted = rest ++ c :: cur :: granted := by simp
      rw [hsplit] at hs hb
      have hc := h.snap_ne hs (a := c) (by simp)
      have hz : s.prev cur = c := by
        have := hb.right_of_append
        rw [List.isChain_cons_cons] at this
        exact this.1
      rw [if_pos (by rw [hz]; exact hc), hz]
      refine h.goto (hl.along rfl rfl rfl rfl rfl rfl rfl rfl rfl hl.fits
        ⟨newer, rest, cur :: granted, hs.goto t _, hb, ?_, rfl, hg, hgr⟩ trivial)
        (by rw [hpc]; exact Iff.rfl)
      rw [goto_opcode, total_cons, htr, Nat.add_comm]
  · next hgr =>
    refine h.cut (by rw [hpc]; trivial) (by rw [hpc]; rfl) (by rw [hpc]; rfl) (by rw [hpc]; rfl)
      (by rw [hpc]; rfl) hs hres rfl rfl rfl rfl rfl rfl rfl hl.fits trivial ?_ ?_
    · exact ⟨newer, rest ++ [cur], hs.cut _ _, back_upto hb, by simp, hgr⟩
    · refine ⟨?_, ?_⟩ <;> rw [show (v.detach t _ granted).taken t = granted by simp [View.detach]]
      · exact htr
      · exact hg

theorem tailResetStep_inv (h : Inv kind s v) {resolved : Ptr} {tr : ℕ}
    (hpc : s.pc t = .tailReset state cur tr resolved k) :
    Inv kind (tailResetStep s t state cur tr resolved k).2
      (v.observe (tailResetStep s t state cur tr resolved k).1) := by
  have hl := h.loc t
  rw [hpc] at hl
  obtain ⟨newer, granted, hs, htr, hres, hg⟩ := hl.hold
  have hh : (s.pc t).Holds := by rw [hpc]; trivial
  unfold tailResetStep
  split
  · next hw =>
    subst hw
    have hq : v.queue = cur :: granted := by
      have hnd := h.glob.chain.nodup
      obtain ⟨l, hl'⟩ := h.glob.chain.mem_head (h.anchor_ne hh)
      obtain ⟨l₂, hl₂⟩ := hs.head
      cases hl₂
      cases newer with
      | nil => exact hs.split
      | cons b newer =>
        rw [hs.split] at hl' hnd
        cases hl'
        simp at hnd
    have hstat : ∀ a ∈ v.queue, v.stat a = .queued := fun a ha => (h.glob.queued a).mp ha
    have hle := greedy_le hg (max_le hl.fits) (data_le_mask _) fun a ha =>
      h.opcode_le (a := a) (by rw [hstat a (by rw [hq]; exact ha)]; simp)
    have hlt : data s.word + tr + (s.opcode cur).acquiredCount < 64 := by
      rw [total_cons] at hle
      change _ ≤ 63 at hle
      omega
    obtain ⟨ha, hn⟩ := anchor_of_lt hlt
    refine h.detach _ s.next [] v.queue rfl (hl.taken_nil rfl) ha (fun _ _ => rfl)
      (fun u hu => h.only hh hu) (fun _ => hh) (fun hk => absurd hk hn) ?_
    refine hl.detached hstat rfl rfl (fun _ hs => hs) ?_ (fun hb => by cases hb)
      (fun hb => by cases hb) (fun _ hr => by cases hr) hl.fits ?_ trivial trivial
    · intro st hq' _
      cases k <;> simp [Pc.stage, After.stage, Stage.Admits] at hq'
    · have hc := h.glob.chain
      rw [hq] at hc ⊢
      exact ⟨rfl, hc.2.1, hc.2.2⟩
  · have hs : Snap s v state newer ([] ++ cur :: granted) := hs
    refine h.cut hh (by rw [hpc]; rfl) (by rw [hpc]; rfl) (by rw [hpc]; rfl)
      (by rw [hpc]; rfl) hs hres rfl rfl rfl rfl rfl rfl rfl hl.fits trivial ?_ ?_
    · exact ⟨newer, [cur], hs.cut _ _, .singleton _, rfl⟩
    · refine ⟨?_, ?_⟩ <;> rw [show (v.detach t _ granted).taken t = granted by simp [View.detach]]
      · exact htr
      · exact hg.1

theorem Inv.transfer_le (h : Inv kind s v) {tr : ℕ} (hgate : kind ≠ .gate)
    (htr : tr = total s.opcode (v.taken t))
    (hg : Greedy kind.maxSharedOwners s.opcode (data state) (v.taken t)) :
    data state + tr < 64 := by
  have hle := greedy_le hg (max_le hgate) (data_le_mask _) fun a ha =>
    h.opcode_le (a := a) (by rw [(h.glob.taken t a).mp ha]; simp)
  change _ ≤ 63 at hle
  omega

theorem updateStep_inv (h : Inv kind s v) {head resolved : Ptr} {tr : ℕ}
    (hpc : s.pc t = .update state head tr resolved k) :
    Inv kind (updateStep s t state head tr resolved k).2
      (v.observe (updateStep s t state head tr resolved k).1) := by
  have hl := h.loc t
  rw [hpc] at hl
  have hh : (s.pc t).Holds := by rw [hpc]; trivial
  unfold updateStep
  split
  · next hd =>
    have hlt := h.transfer_le hl.fits hl.counted.1 hl.counted.2
    rw [← hd] at hlt
    obtain ⟨ha, -, hn⟩ := join_data s.word hlt
    exact h.setWord _ ha (fun u hu hp => absurd hp (h.only hh hu))
      (hl.along rfl rfl rfl rfl rfl rfl rfl rfl rfl hl.fits trivial trivial)
      (fun hp => absurd hp id) (fun hk => absurd hk hn)
  · obtain ⟨newer, seg, hs, hb, hlast, -⟩ := hl.hold
    exact h.goto (hl.along rfl rfl rfl rfl rfl rfl rfl rfl rfl hl.fits
      ⟨newer, seg, hs.goto t _, hb, hlast⟩ hl.counted) (by rw [hpc]; exact Iff.rfl)

theorem add_fields {w c : ℕ} (hc : data w + c < 64) :
    anchor (w + c) = anchor w ∧ data (w + c) = data w + c ∧ (Locked (w + c) ↔ Locked w) := by
  simp only [anchor_eq, data_eq, locked_iff] at hc ⊢
  omega

theorem addStep_inv (h : Inv kind s v) {head resolved : Ptr} {tr : ℕ}
    (hpc : s.pc t = .add state head tr resolved k) :
    Inv kind (addStep s t head tr resolved k).2 (v.observe (addStep s t head tr resolved k).1) := by
  have hl := h.loc t
  rw [hpc] at hl
  have hh : (s.pc t).Holds := by rw [hpc]; trivial
  obtain ⟨newer, seg, hs, hb, hlast⟩ := hl.hold
  have hlt := h.transfer_le hl.fits hl.counted.1 hl.counted.2
  have hdle := hs.data_le
  obtain ⟨ha, hd, hlk⟩ := add_fields (w := s.word) (c := tr) (by omega)
  have hlock : Locked (s.word + tr) := hlk.mpr hs.word_locked
  refine h.setWord _ ha (fun u hu hp => absurd hp (h.only hh hu)) ?_ (fun _ => Or.inl hh)
    (fun _ => Or.inl trivial)
  refine hl.along rfl rfl rfl rfl rfl rfl rfl rfl rfl hl.fits ?_ trivial
  obtain ⟨rest, hq⟩ := h.glob.chain.mem_head (h.anchor_ne hh)
  refine ⟨[], v.queue, ⟨rfl, by rw [hq, ha]; rfl, hlock, hlock, le_rfl, by simp, ?_⟩, ?_, ?_⟩
  · rw [ha]
    exact h.glob.tail_prev _ (by rw [hq]; rfl)
  · rw [hs.split]
    refine partial_append (partial_of_back hb) hs.newer_prev fun a hm => ?_
    rw [hs.tail] at hm
    cases hm
    exact hs.tail_prev
  · rw [hs.split, List.getLast?_append, hlast]
    rfl

theorem resolving_spec (kind : Kind) (cur nx : Ptr) (r n : ℕ) (k : Then) :
    (Pc.finalize cur nx r n k).reqs = (Pc.resolve cur r n k).reqs ∧
    (Pc.finalize cur nx r n k).Fits kind = (Pc.resolve cur r n k).Fits kind ∧
    (Pc.finalize cur nx r n k).Holds = (Pc.resolve cur r n k).Holds ∧
    k.stage ≠ .answered := by
  cases k with
  | pass _ _ k => cases k <;> exact ⟨rfl, rfl, rfl, by simp [Then.stage, After.stage]⟩
  | leave k => cases k <;> exact ⟨rfl, rfl, rfl, by simp [Then.stage, After.stage]⟩
  | _ => exact ⟨rfl, rfl, rfl, by simp [Then.stage]⟩

theorem Hold.resolving {s' : Cfg} {v' : View} {c : Ptr} {r n r' n' : ℕ} {k : Then}
    (h : Hold kind s v (.resolve cur r n k)) (nx : Ptr) (hw : s'.word = s.word)
    (hp : s'.prev = s.prev)
    (hq : v'.queue = v.queue) :
    Hold kind s' v' (.resolve c r' n' k) ∧ Hold kind s' v' (.finalize c nx r' n' k) := by
  cases k with
  | pass state head k =>
    obtain ⟨newer, seg, hs, hpart, hlast⟩ := h
    have hs' : Snap s' v' state newer seg := ⟨hq.trans hs.split, hs.tail, hs.locked,
      by rw [hw]; exact hs.word_locked, by rw [hw]; exact hs.data_le,
      by rw [hp]; exact hs.newer_prev, by rw [hp]; exact hs.tail_prev⟩
    exact ⟨⟨newer, seg, hs', by rw [hp]; exact hpart, hlast⟩,
      ⟨newer, seg, hs', by rw [hp]; exact hpart, hlast⟩⟩
  | _ => exact ⟨trivial, trivial⟩

theorem Local.resolving {s' : Cfg} {v' : View} (h : Local kind s v t p)
    (hoff : SameOff s s' cur) (hsl : s'.slot = s.slot)
    (hstat : ∀ b, b ≠ cur → v'.stat b = v.stat b) (hreg : v.stat cur ≠ .idle)
    (hcur : p.stage.Admits t (v.stat cur) → p.stage.Admits t (v'.stat cur))
    (he : p'.entry = p.entry) (hs : p'.stage = p.stage) (hb : p'.built = p.built)
    (hf : p'.flagged = false) (hq : p'.reqs = p.reqs) (hk : p'.Fits kind)
    (ha : ∀ b, p'.answering = some b ↔ v'.stat b = .answered t)
    (ht : Chain 0 s'.next p'.takePtr (v'.taken t)) (hh : Hold kind s' v' p')
    (hc : Counted kind s' v' t p') : Local kind s' v' t p' where
  slot b := by rw [he, hsl]; exact h.slot b
  stat b hm := by
    have hst := h.stat b (by rw [← he]; exact hm)
    rw [hs]
    by_cases hbc : b = cur
    · subst b; exact hcur hst
    · rw [hstat b hbc]; exact hst
  anchors b hm := h.anchors b (by rw [← he]; exact hm)
  built b hm hbu := by
    rw [he] at hm
    rw [hb] at hbu
    have hbc : b ≠ cur := by
      rintro rfl
      have hi := h.stat b hm
      rw [built_prep hbu] at hi
      exact hreg hi
    rw [hoff.state b hbc, hoff.prev b hbc, hoff.opcode b hbc]
    exact h.built b hm hbu
  flagged _ _ hfl := by rw [hf] at hfl; cases hfl
  reqs q hm := h.reqs q (by rw [← hq]; exact hm)
  fits := hk
  answering := ha
  taken := ht
  hold := hh
  counted := hc

theorem setResult_inv (h : Inv kind s v) {r n : ℕ} {k : Then}
    (hpc : s.pc t = .resolve cur r n k) (hcur : cur ≠ 0) :
    Inv kind ((s.setResult cur r).goto t (.finalize cur (s.next cur) r n k))
      (v.observe (.setResult t cur r)) := by
  have hl := h.loc t
  rw [hpc] at hl
  have hchain : Chain 0 s.next cur (v.taken t) := hl.taken
  obtain ⟨l, htk⟩ := hchain.mem_head hcur
  rw [htk] at hchain
  have hst : v.stat cur = .taken t := (h.glob.taken t cur).mp (by rw [htk]; simp)
  have hclear := h.glob.clear cur (Or.inr (Or.inl ⟨t, hst⟩))
  have hok := h.glob.entry cur
  have hse := h.glob.sets cur
  rw [hst] at hse
  have herase : ((cur :: l).erase cur) = l := by simp
  have hnl : cur ∉ l := (List.nodup_cons.mp hchain.nodup).1
  have hoff : SameOff s ((s.setResult cur r).goto t (.finalize cur (s.next cur) r n k)) cur :=
    ⟨rfl, fun _ _ => rfl, fun _ _ => rfl, fun _ _ => rfl,
      fun b hb => by simp [Cfg.setResult, hb], fun b hb => by simp [Cfg.setResult, hb],
      fun _ _ => rfl⟩
  have hstat : ∀ b, b ≠ cur → (v.observe (.setResult t cur r)).stat b = v.stat b :=
    fun b hb => by simp [View.observe, hb]
  have hnow : (v.observe (.setResult t cur r)).stat cur = .answered t := by simp [View.observe]
  obtain ⟨hreqs, hfits, hholds, -⟩ := resolving_spec kind cur (s.next cur) r n k
  refine h.onEntry cur hoff (fun u hu => goto_pc_of_ne _ _ _ hu) rfl hstat
    (fun b hb => by simp [View.observe, hb])
    (by simp [hnow, hst]) (fun u hu => by simpa [hnow, hst] using hu.symm) ?_
    (fun u hu => by simp [View.observe, hu]) (fun _ => ⟨rfl, rfl, rfl⟩) ?_ (fun _ _ => Iff.rfl)
    (fun u hu => by simpa [hnow, hst] using hu.symm) ?_
    (by rw [goto_pc_self, hpc, hholds]) ?_
  · intro b
    simp only [View.observe, Function.update_self, htk, herase]
    by_cases hb : b = cur
    · subst b; simpa using hnl
    · rw [Function.update_of_ne hb, ← h.glob.taken, htk]
      simp [hb]
  · have hsl := hok.alive (by simp [hst])
    constructor <;> simp [View.observe, Cfg.setResult, EntryState.set, hclear, EntryState.clear,
      hok.anchors (by simp [hst]), hsl, hok.opcodes (by simp [hst]), hse, Stat.setCount]
  · intro u hu hs
    exact ⟨Or.inr (Or.inr (Or.inl ⟨t, hst, hnow⟩)), by simp [hst],
      fun _ => by simp [Cfg.setResult]⟩
  · rw [goto_pc_self]
    refine hl.resolving hoff rfl hstat (by simp [hst]) ?_ rfl rfl rfl rfl hreqs
      (by rw [hfits]; exact hl.fits) ?_ ?_ (And.right (hl.hold.resolving (c := cur) _ rfl rfl rfl))
        trivial
    · rw [hst, hnow]
      cases (Pc.resolve cur r n k).stage <;> simp [Stage.Admits]
    · intro b
      by_cases hb : b = cur
      · subst b; simp [Pc.answering, hnow]
      · rw [hstat b hb]
        exact iff_of_false (by simpa [Pc.answering] using Ne.symm hb) (hl.not_answered rfl b)
    · simp only [View.observe, Function.update_self, htk, herase]
      exact hchain.2.2

theorem finalizeStep_inv (h : Inv kind s v) {nx : Ptr} {r n : ℕ} {k : Then}
    (hpc : s.pc t = .finalize cur nx r n k) :
    Inv kind (finalizeStep s t cur nx r n k).2 (v.observe (finalizeStep s t cur nx r n k).1) := by
  have hl := h.loc t
  rw [hpc] at hl
  have hst : v.stat cur = .answered t := (hl.answering cur).mp rfl
  have hok := h.glob.entry cur
  have hse := h.glob.sets cur
  rw [hst] at hse
  have hset := (h.glob.set cur t hst).1
  have hsl := hok.alive (by simp [hst])
  have hoff : SameOff s ((s.setFinalized cur).goto t (.resolve nx r (n + 1) k)) cur :=
    ⟨rfl, fun _ _ => rfl, fun _ _ => rfl, fun _ _ => rfl,
      fun b hb => by simp [Cfg.setFinalized, hb], fun _ _ => rfl, fun _ _ => rfl⟩
  have hstat : ∀ b, b ≠ cur → (v.observe (.finalize t cur)).stat b = v.stat b :=
    fun b hb => by simp [View.observe, hb]
  have hnow : (v.observe (.finalize t cur)).stat cur = .final := by simp [View.observe]
  obtain ⟨hreqs, hfits, hholds, hstage⟩ := resolving_spec kind cur nx r n k
  have hhold : Hold kind s v (.resolve cur r n k) := by
    have hho := hl.hold
    cases k <;> exact hho
  change Inv kind ((s.setFinalized cur).goto t (.resolve nx r (n + 1) k))
    (v.observe (.finalize t cur))
  refine h.onEntry cur hoff (fun u hu => goto_pc_of_ne _ _ _ hu) rfl hstat
    (fun _ _ => rfl) (by simp [hnow, hst]) (by simp [hnow, hst]) ?_
    (fun _ _ => rfl) (fun _ => ⟨rfl, rfl, rfl⟩) ?_ (fun _ _ => Iff.rfl)
    (fun u hu => by simpa [hnow, hst] using hu.symm) ?_ ?_ ?_
  · intro b
    change b ∈ v.taken t ↔ _
    rw [h.glob.taken]
    by_cases hb : b = cur
    · subst b; simp [hst, hnow]
    · rw [hstat b hb]
  · constructor <;> simp [View.observe, Cfg.setFinalized, hset, hok.anchors (by simp [hst]), hsl,
      hok.opcodes (by simp [hst]), hse, Stat.setCount]
    intro hp
    exact (hok.pagers hp).2.2.1.mpr (by simp [hst])
  · intro u hu hs
    exact ⟨Or.inr (Or.inr (Or.inr ⟨t, hst, hnow⟩)), by simp [hst], fun h => h⟩
  · rw [goto_pc_self, hpc, hholds]
    cases k <;> exact Iff.rfl
  · rw [goto_pc_self]
    refine hl.resolving hoff rfl hstat (by simp [hst]) ?_ rfl rfl rfl rfl ?_ ?_ ?_ hl.taken
      (And.left (hhold.resolving nx rfl rfl rfl)) trivial
    · rw [hst, hnow]
      change k.stage.Admits t _ → k.stage.Admits t _
      revert hstage
      cases k.stage <;> simp [Stage.Admits]
    · rw [hreqs]
      cases k <;> rfl
    · have hf := hl.fits
      rw [hfits] at hf
      cases k <;> exact hf
    · intro b
      refine iff_of_false (by simp [Pc.answering]) ?_
      by_cases hb : b = cur
      · subst b; simp [hnow]
      · rw [hstat b hb, ← ne_eq]
        exact (hl.answering b).not.mp (by simpa [Pc.answering] using Ne.symm hb)

theorem thenStep_inv (h : Inv kind s v) {r n : ℕ} {k : Then} (hpc : s.pc t = .resolve 0 r n k) :
    Inv kind (k.step s t n).2 (v.observe (k.step s t n).1) := by
  have hl := h.loc t
  rw [hpc] at hl
  have hbare : k.entry = none → ¬(Pc.resolve 0 r n k).Holds → Inv kind (s.goto t .idle) v := by
    intro he hh
    exact h.goto (hl.bare he rfl rfl rfl rfl trivial trivial trivial)
      (by rw [hpc]; exact iff_of_false id hh)
  cases k with
  | pass state head k =>
    obtain ⟨newer, seg, hs, hpart, hlast⟩ := hl.hold
    obtain ⟨rest, rfl⟩ := hs.head
    have hne : head ≠ 0 := h.snap_ne hs (List.mem_of_getLast? hlast)
    have hpass : passStart state head k = .relink state head (anchor state) k := if_neg hne
    simp only [Then.step, hpass]
    exact h.goto (hl.along rfl rfl rfl rfl rfl rfl rfl rfl rfl hl.fits
      ⟨newer, [], rest, hs.goto t _, .singleton _, hpart, hlast⟩ trivial)
      (by rw [hpc]; exact Iff.rfl)
  | leave k =>
    exact h.goto (hl.after rfl rfl rfl (fun _ _ _ hs => hs) hl.fits)
      (by rw [hpc]; exact iff_of_false (after_pc_spec kind k).2.2.2.2.2.2.1 id)
  | poisoned => exact hbare rfl id
  | woken => exact hbare rfl id
  | acknowledge a =>
    exact h.goto (hl.move rfl rfl rfl (fun _ hs => hs) (fun hb => by cases hb)
      (fun hb => by cases hb) (fun _ hr => by cases hr) hl.fits trivial trivial)
      (by rw [hpc]; exact Iff.rfl)
  | writeBack q =>
    obtain ⟨m, rfl⟩ := hl.fits
    have hqe : q.held = some q.entry := if_neg (barrier_via (hl.reqs q rfl).1)
    exact h.goto (hl.move hqe rfl rfl (fun _ hs => hs) (fun _ => rfl) (fun hb => by cases hb)
      (fun _ hr => hr) ⟨m, rfl⟩ trivial trivial) (by rw [hpc]; exact Iff.rfl)
  | last q =>
    obtain ⟨m, rfl⟩ := hl.fits
    have htry := barrier_via (hl.reqs q rfl).1
    have hqe : q.held = some q.entry := if_neg htry
    exact h.goto (hl.move hqe rfl rfl (fun _ hs => hs) (fun _ => rfl) (fun hb => by cases hb)
      (fun _ hr => hr) htry trivial trivial) (by rw [hpc]; exact Iff.rfl)

theorem resolveStep_inv (h : Inv kind s v) {r n : ℕ} {k : Then}
    (hpc : s.pc t = .resolve cur r n k) :
    Inv kind (resolveStep s t cur r n k).2 (v.observe (resolveStep s t cur r n k).1) := by
  unfold resolveStep
  split
  · next hz =>
    subst hz
    exact thenStep_inv h hpc
  · next hz => exact setResult_inv h hpc hz

theorem Local.leaving {s' : Cfg} {v' : View} (h : Local kind s v t p) (he : p.entry = some a)
    (ha : p.answering = none) (ht : p.takePtr = 0) (hsl : s'.slot = s.slot)
    (hstat : ∀ b, b ≠ a → v'.stat b = v.stat b) (htn : v'.taken = v.taken)
    (hpe : p'.entry = some a) (hst : p'.stage.Admits t (v'.stat a))
    (hna : v'.stat a ≠ .answered t) (hpa : p'.answering = none) (hpt : p'.takePtr = 0)
    (hpb : p'.built = false) (hpf : p'.flagged = false) (hpq : p'.reqs = none)
    (hpk : p'.Fits kind) (hh : Hold kind s' v' p') (hc : Counted kind s' v' t p') :
    Local kind s' v' t p' where
  slot b := by rw [hpe, ← he, hsl]; exact h.slot b
  stat b hb := by rw [hpe] at hb; cases hb; exact hst
  anchors b hb := h.anchors b (by rw [he, ← hpe]; exact hb)
  built _ _ hb := by rw [hpb] at hb; cases hb
  flagged _ _ hb := by rw [hpf] at hb; cases hb
  reqs _ hb := by rw [hpq] at hb; cases hb
  fits := hpk
  answering b := by
    rw [hpa]
    refine iff_of_false (by simp) ?_
    by_cases hb : b = a
    · subst b; exact hna
    · rw [hstat b hb]; exact h.not_answered ha b
  taken := by rw [hpt, htn, h.taken_nil ht]; rfl
  hold := hh
  counted := hc

theorem removeStep_middle (h : Inv kind s v) {b : Ptr} {found : ℕ} {again : Bool}
    {done rest : List Ptr} (hpc : s.pc t = .remove a found state a again)
    (hl : Local kind s v t (s.pc t))
    (hs : Snap s v state newer (done ++ b :: a :: rest)) (prev : Ptr → Ptr)
    (hprev : ∀ c, c ∉ rest → prev c = s.prev c) :
    Inv kind ({ s with next := Function.update s.next b (s.next a), prev := prev }.goto t
      (removed a found state true)) (v.observe (.unlink t a)) := by
  have hq : v.queue = (newer ++ (done ++ [b])) ++ a :: rest := by rw [hs.split]; simp
  have hnd := h.glob.chain.nodup
  have hchain := h.snap_chain hs
  rw [← List.append_assoc] at hchain
  have hrm : removed a found state true = .walk state (anchor state) (.finish a) := by
    simp [removed, hs.locked, passStart]
  have hgate : kind ≠ .gate := by rw [hpc] at hl; exact hl.fits
  have hnew : ∀ c, c ∈ newer ++ (done ++ [b]) → c ∉ rest := by
    rw [hq, List.nodup_append] at hnd
    exact fun c hc hr => hnd.2.2 c hc c (List.mem_cons_of_mem _ hr) rfl
  rw [hrm]
  obtain ⟨l, hseg⟩ : ∃ l, done ++ [b] = anchor state :: l := by
    obtain ⟨l, hl'⟩ := hs.head
    cases done with
    | nil => cases hl'; exact ⟨[], rfl⟩
    | cons d done => cases hl'; exact ⟨done ++ [b], rfl⟩
  have htail : anchor state ∈ newer ++ (done ++ [b]) := by rw [hseg]; simp
  refine h.unlink s.word _ prev (newer ++ (done ++ [b])) rest hq (by rw [hpc]; trivial)
    (by rw [hpc]; rfl) ?_ ?_ (fun c hc => hprev c ?_) ?_ (fun _ => trivial) ?_
  · have := hchain.unlink
    simpa using this
  · intro c hc
    refine Function.update_of_ne ?_ _ _
    rintro rfl
    exact hc (by rw [hq]; simp)
  · exact fun hr => hc (by rw [hq]; simp [hr])
  · intro c hc
    have hmem : c ∈ v.queue.head? := by
      rw [hq]
      cases newer with
      | nil => rw [hseg] at hc ⊢; exact hc
      | cons d newer => exact hc
    rw [hprev c (hnew c ?_)]
    · exact h.glob.tail_prev c hmem
    · cases newer with
      | nil => rw [hseg] at hc ⊢; cases hc; simp
      | cons d newer => cases hc; simp
  · refine hl.leaving (a := a) (by rw [hpc]; rfl) (by rw [hpc]; rfl) (by rw [hpc]; rfl) rfl
      (fun c hc => by simp [hc]) rfl rfl
      (by simp [Pc.stage, After.stage, Stage.Admits]) (by simp) rfl rfl rfl rfl rfl hgate ?_ trivial
    have her : v.queue.erase a = newer ++ (anchor state :: (l ++ rest)) := by
      have hl₁ : a ∉ newer ++ (done ++ [b]) := by
        rw [hq, List.nodup_append] at hnd
        exact fun hm => hnd.2.2 a hm a (by simp) rfl
      rw [hq, List.erase_append_right _ hl₁, List.erase_cons_head, hseg]
      simp
    refine ⟨newer, [], l ++ rest, ⟨her, rfl, hs.locked, hs.word_locked, hs.data_le, ?_, ?_⟩,
      .singleton _⟩
    · intro c hc
      rw [goto_prev]
      change prev c = 0
      rw [hprev c (hnew c (by simp [hc]))]
      exact hs.newer_prev c hc
    · rw [goto_prev]
      change prev (anchor state) = 0
      rw [hprev _ (hnew _ htail)]
      exact hs.tail_prev

theorem removeStep_tail (h : Inv kind s v) {found : ℕ} {again : Bool} {rest : List Ptr}
    (hpc : s.pc t = .remove a found s.word a again) (hl : Local kind s v t (s.pc t))
    (hq : v.queue = a :: rest) (hlock : Locked s.word) (prev : Ptr → Ptr)
    (hprev : ∀ c, c ∉ rest → prev c = s.prev c) (hhead : ∀ c ∈ rest.head?, prev c = 0) :
    Inv kind ({ s with
      word := if s.next a = 0 then data s.word else join (s.next a) (tag s.word)
      prev := prev }.goto t
        (removed a found (if s.next a = 0 then data s.word else join (s.next a) (tag s.word)) true))
      (v.observe (.unlink t a)) := by
  have hgate : kind ≠ .gate := by rw [hpc] at hl; exact hl.fits
  have hchain := h.glob.chain
  rw [hq] at hchain
  have hleave : ∀ w p', p'.entry = some a → p'.stage = .over → p'.answering = none →
      p'.takePtr = 0 → p'.built = false → p'.flagged = false → p'.reqs = none →
      p'.Fits kind → Hold kind ({ s with word := w, prev := prev }.goto t p')
        { v with queue := v.queue.erase a, stat := Function.update v.stat a .unlinked } p' →
      Counted kind ({ s with word := w, prev := prev }.goto t p')
        { v with queue := v.queue.erase a, stat := Function.update v.stat a .unlinked } t p' →
      Local kind ({ s with word := w, prev := prev }.goto t p')
        { v with queue := v.queue.erase a, stat := Function.update v.stat a .unlinked } t p' := by
    intro w p' h₁ h₂ h₃ h₄ h₅ h₆ h₇ h₈ h₉ h₁₀
    exact hl.leaving (a := a) (by rw [hpc]; rfl) (by rw [hpc]; rfl) (by rw [hpc]; rfl) rfl
      (fun c hc => by simp [hc]) rfl h₁ (by simp [h₂, Stage.Admits]) (by simp) h₃ h₄ h₅ h₆ h₇ h₈
      h₉ h₁₀
  have hout : ∀ c, c ∉ v.queue → prev c = s.prev c := fun c hc =>
    hprev c fun hr => hc (by rw [hq]; simp [hr])
  cases rest with
  | nil =>
    have hn : s.next a = 0 := hchain.2.2
    have hlt := data_lt s.word
    obtain ⟨ha, hnl⟩ := anchor_of_lt hlt
    have hrm : removed a found (data s.word) true = .finish a := by simp [removed, hnl, After.pc]
    rw [if_pos hn, hrm]
    exact h.unlink _ s.next prev [] [] hq (by rw [hpc]; trivial) (by rw [hpc]; rfl) ha
      (fun _ _ => rfl) hout (fun _ hc => by cases hc) (fun hk => absurd hk hnl)
      (hleave _ _ rfl rfl rfl rfl rfl rfl rfl trivial trivial trivial)
  | cons c rest =>
    have hn : s.next a = c := hchain.2.2.1
    have hcst : v.stat c = .queued := (h.glob.queued c).mp (by rw [hq]; simp)
    have hanch := h.glob.anchors c (by simp [hcst])
    obtain ⟨ha, hd, hlk⟩ := join_tag s.word hanch.1
    have hc0 : c ≠ 0 := hchain.2.2.2.1
    have hlk' := hlk.mpr hlock
    have hrm : removed a found (join c (tag s.word)) true =
        .walk (join c (tag s.word)) c (.finish a) := by
      simp [removed, hlk', passStart, ha]
    rw [hn, if_neg hc0, hrm]
    have her : v.queue.erase a = c :: rest := by rw [hq, List.erase_cons_head]
    refine h.unlink _ s.next prev [] (c :: rest) hq (by rw [hpc]; trivial) (by rw [hpc]; rfl)
      (by rw [ha]; exact ⟨rfl, hchain.2.2.2⟩) (fun _ _ => rfl) hout hhead (fun _ => trivial)
      (hleave _ _ rfl rfl rfl rfl rfl rfl rfl hgate ?_ trivial)
    exact ⟨[], [], rest, ⟨her, by rw [ha]; rfl, hlk', hlk', le_rfl, by simp,
      by rw [ha]; exact hhead c rfl⟩, .singleton _⟩

theorem removeStep_again (h : Inv kind s v) {found : ℕ} {again : Bool} {rest : List Ptr}
    (hpc : s.pc t = .remove a found state a again)
    (hs : Snap s v state newer (a :: rest)) (prev : Ptr → Ptr)
    (hprev : prev = s.prev ∨ ∃ c, c ∈ rest ∧ prev = Function.update s.prev c 0) :
    Inv kind ({ s with prev := prev }.goto t (.remove a found s.word (anchor s.word) true)) v := by
  have hl := h.loc t
  rw [hpc] at hl
  have hh : (s.pc t).Holds := by rw [hpc]; trivial
  have hnd := h.glob.chain.nodup
  obtain ⟨l, hq⟩ := h.glob.chain.mem_head (h.anchor_ne hh)
  have haq : a ∈ v.queue := hs.mem (by simp)
  have htp := h.glob.tail_prev (anchor s.word) (by rw [hq]; rfl)
  have hnot : ∀ c, c ∈ rest → v.queue.head? ≠ some c := fun c hc => hs.not_head hnd hc
  have hloc : prev (anchor s.word) = 0 → Local kind
      ({ s with prev := prev }.goto t (.remove a found s.word (anchor s.word) true)) v t
      (.remove a found s.word (anchor s.word) true) := fun hz =>
    hl.along rfl rfl rfl rfl rfl rfl rfl rfl rfl hl.fits
      ⟨[], v.queue, ⟨rfl, by rw [hq]; rfl, hs.word_locked, hs.word_locked, le_rfl, by simp, hz⟩,
        by simp, Or.inl ⟨[], l, hq, .singleton _, by simp, fun _ => hq ▸ haq⟩⟩ trivial
  rcases hprev with rfl | ⟨c, hc, rfl⟩
  · exact h.goto (hloc htp) (by rw [hpc]; exact Iff.rfl)
  · refine h.setPrev c 0 hh (hs.mem (List.mem_cons_of_mem _ hc)) (hnot c hc) trivial (hloc ?_)
    have hne : anchor s.word ≠ c := by
      rintro rfl
      exact hnot _ hc (by rw [hq]; rfl)
    rw [Function.update_of_ne hne]
    exact htp

theorem removeStep_missing (h : Inv kind s v) {found : ℕ}
    (hpc : s.pc t = .remove a found state 0 false) (hs : Snap s v state newer seg)
    (hna : a ∉ newer) (hseg : a ∉ seg) :
    Inv kind (removeStep s t a found state 0 false).2
      (v.observe (removeStep s t a found state 0 false).1) := by
  have hl := h.loc t
  rw [hpc] at hl
  have hnq : v.stat a ≠ .queued := by
    rw [ne_eq, ← h.glob.queued, hs.split, List.mem_append]
    exact fun hm => hm.elim hna hseg
  have hrm : removed a found state false = .walk state (anchor state) (.complete a found) := by
    simp [removed, hs.locked, passStart]
  simp only [removeStep, ↓reduceIte, Bool.false_eq_true, hrm]
  obtain ⟨rest, rfl⟩ := hs.head
  have hst := hl.stat a rfl
  refine h.goto (hl.leaving (a := a) rfl rfl rfl rfl (fun _ _ => rfl) rfl rfl
    ⟨hst.1, hst.2, hnq⟩ (hl.not_answered rfl a) rfl rfl rfl rfl rfl hl.fits ?_ trivial)
    (by rw [hpc]; exact Iff.rfl)
  exact ⟨newer, [], rest, hs.goto t _, .singleton _⟩

theorem removeStep_seek (h : Inv kind s v) {found : ℕ} {again : Bool} {done rest : List Ptr}
    (hpc : s.pc t = .remove a found state cur again)
    (hs : Snap s v state newer (done ++ cur :: rest)) (hna : a ∉ newer)
    (hb : (done ++ [cur]).IsChain (Back s.prev)) (hdone : a ∉ done)
    (hagain : again = true → a ∈ cur :: rest) (hca : cur ≠ a) :
    Inv kind (removeStep s t a found state cur again).2
      (v.observe (removeStep s t a found state cur again).1) := by
  have hl := h.loc t
  rw [hpc] at hl
  have hh : (s.pc t).Holds := by rw [hpc]; trivial
  have hchain := h.snap_chain hs
  rw [show newer ++ (done ++ cur :: rest) = (newer ++ done) ++ cur :: rest by simp] at hchain
  unfold removeStep
  rw [if_neg (h.snap_ne hs (a := cur) (by simp)), if_pos hca]
  cases rest with
  | nil =>
    rw [if_pos hchain.next_last]
    refine h.goto (hl.along rfl rfl rfl rfl rfl rfl rfl rfl rfl hl.fits ?_ trivial)
      (by rw [hpc]; exact Iff.rfl)
    refine ⟨newer, _, hs.goto t _, hna, Or.inr ⟨rfl, ?_, ?_⟩⟩
    · by_contra hag
      have := hagain (by simpa using hag)
      exact hca (List.mem_singleton.mp this).symm
    · simpa [hdone] using Ne.symm hca
  | cons c rest =>
    have hn : s.next cur = c := hchain.next_eq
    have hc := h.snap_ne hs (a := c) (by simp)
    rw [hn, if_neg hc]
    obtain ⟨hs', hb'⟩ := h.back_step hs hb
      (Function.update s.pc t (.remove a found state c again))
    refine h.stepBack hh hs (hl.along rfl rfl rfl rfl rfl rfl rfl rfl rfl hl.fits
      ⟨newer, _, hs', hna, Or.inl ⟨done ++ [cur], rest, rfl, hb', ?_, ?_⟩⟩ trivial) trivial
    · simpa [hdone] using Ne.symm hca
    · intro hag
      simpa [Ne.symm hca] using hagain hag

theorem removeStep_last (h : Inv kind s v) {found : ℕ} {again : Bool} {rest : List Ptr}
    (hpc : s.pc t = .remove cur found state cur again) (hs : Snap s v state newer (cur :: rest))
    (hna : cur ∉ newer) (hnextmem : s.next cur ≠ 0 → s.next cur ∈ rest) :
    Inv kind (removeStep s t cur found state cur again).2
      (v.observe (removeStep s t cur found state cur again).1) := by
  have hloc : Local kind s v t (s.pc t) := h.loc t
  have hh : (s.pc t).Holds := by rw [hpc]; trivial
  have hchain := h.snap_chain hs
  have hanc : anchor state = cur := by
    obtain ⟨l, hl'⟩ := hs.head
    cases hl'
    rfl
  have hz : s.prev cur = 0 := hanc ▸ hs.tail_prev
  unfold removeStep
  rw [if_neg (h.snap_ne hs (a := cur) (by simp)), if_neg (by simp)]
  simp only [hz, ne_eq, not_true_eq_false, ↓reduceIte]
  by_cases hw : s.word = state
  swap
  · simp only [hw, ↓reduceIte, h.anchor_ne hh]
    by_cases hn : s.next cur = 0
    · simp only [hn, ↓reduceIte]
      exact removeStep_again h hpc hs s.prev (Or.inl rfl)
    · simp only [hn, ↓reduceIte]
      exact removeStep_again h hpc hs _ (Or.inr ⟨_, hnextmem hn, rfl⟩)
  subst hw
  have hq : v.queue = cur :: rest := by
    obtain ⟨l, hl'⟩ := h.glob.chain.mem_head (h.anchor_ne hh)
    cases newer with
    | nil => exact hs.split
    | cons b newer =>
      rw [hs.split, hanc] at hl'
      cases hl'
      exact absurd (by simp) hna
  simp only [↓reduceIte]
  have hhead : ∀ c ∈ rest.head?, s.next cur = c := by
    intro c hc
    cases rest with
    | nil => cases hc
    | cons d rest =>
      cases hc
      exact hchain.next_eq
  by_cases hn : s.next cur = 0
  · have := removeStep_tail h hpc hloc hq hs.word_locked s.prev (fun _ _ => rfl) (by
      intro c hc
      have hm := List.mem_of_mem_head? hc
      exact absurd ((hhead c hc).symm.trans hn) (h.snap_ne hs (List.mem_cons_of_mem _ hm)))
    simpa [hn] using this
  · have := removeStep_tail h hpc hloc hq hs.word_locked
      (Function.update s.prev (s.next cur) 0)
      (fun c hc => Function.update_of_ne (by rintro rfl; exact hc (hnextmem hn)) _ _) (by
      intro c hc
      rw [hhead c hc, Function.update_self])
    simpa [hn] using this

theorem removeStep_inner (h : Inv kind s v) {b : Ptr} {found : ℕ} {again : Bool}
    {done rest : List Ptr} (hpc : s.pc t = .remove cur found state cur again)
    (hs : Snap s v state newer (done ++ b :: cur :: rest))
    (hb : (done ++ b :: [cur]).IsChain (Back s.prev))
    (hnextmem : s.next cur ≠ 0 → s.next cur ∈ rest) :
    Inv kind (removeStep s t cur found state cur again).2
      (v.observe (removeStep s t cur found state cur again).1) := by
  have hloc : Local kind s v t (s.pc t) := h.loc t
  have hz : s.prev cur = b := by
    have := hb.right_of_append
    rw [List.isChain_cons_cons] at this
    exact this.1
  have hb0 := h.snap_ne hs (a := b) (by simp)
  unfold removeStep
  rw [if_neg (h.snap_ne hs (a := cur) (by simp)), if_neg (by simp)]
  simp only [hz, ne_eq, hb0, not_false_eq_true, ↓reduceIte]
  by_cases hn : s.next cur = 0
  · have := removeStep_middle h hpc hloc hs s.prev (fun _ _ => rfl)
    simpa [hn] using this
  · have := removeStep_middle h hpc hloc hs (Function.update s.prev (s.next cur) b)
      (fun c hc => Function.update_of_ne (by rintro rfl; exact hc (hnextmem hn)) _ _)
    simpa [hn] using this

theorem removeStep_inv (h : Inv kind s v) {found : ℕ} {again : Bool}
    (hpc : s.pc t = .remove a found state cur again) :
    Inv kind (removeStep s t a found state cur again).2
      (v.observe (removeStep s t a found state cur again).1) := by
  have hl := h.loc t
  rw [hpc] at hl
  obtain ⟨newer, seg, hs, hna, ⟨done, rest, rfl, hb, hdone, hagain⟩ | ⟨rfl, rfl, hseg⟩⟩ := hl.hold
  swap
  · exact removeStep_missing h hpc hs hna hseg
  by_cases hca : cur = a
  swap
  · exact removeStep_seek h hpc hs hna hb hdone hagain hca
  subst hca
  have hchain := h.snap_chain hs
  rw [show newer ++ (done ++ cur :: rest) = (newer ++ done) ++ cur :: rest by simp] at hchain
  have hnextmem : s.next cur ≠ 0 → s.next cur ∈ rest := by
    intro hz
    cases rest with
    | nil => exact absurd hchain.next_last hz
    | cons c rest => rw [hchain.next_eq]; simp
  rcases List.eq_nil_or_concat done with rfl | ⟨done, b, rfl⟩
  · exact removeStep_last h hpc hs hna hnextmem
  · have hsplit : done.concat b ++ cur :: rest = done ++ b :: cur :: rest := by simp
    exact removeStep_inner h hpc (hsplit ▸ hs) (by simpa using hb) hnextmem

end
end Saa
