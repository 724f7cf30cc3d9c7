import Saa.Fifo

/-! # Processing the queue

What `process_wait_queue` does for an arbitrary word and queue. Alone, it grants the
longest prefix of the waiters that the word admits. -/
namespace Saa

open Word Lib.Linked Lib.Trace

/-- The waiters, oldest first, that inherit one after the other starting from `held`. -/
def inherit (max : ℕ) (opcode : Ptr → Opcode) (held : ℕ) : List Ptr → List Ptr
  | [] => []
  | a :: l =>
    if Grantable max held (opcode a) then
      a :: inherit max opcode (held + (opcode a).acquiredCount) l
    else []

theorem inherit_isPrefix (max : ℕ) (opcode : Ptr → Opcode) (held : ℕ) (l : List Ptr) :
    inherit max opcode held l <+: l := by
  induction l generalizing held with
  | nil => exact List.prefix_rfl
  | cons a l ih =>
    rw [inherit]
    split
    · exact List.cons_prefix_cons.mpr ⟨rfl, ih _⟩
    · exact List.nil_prefix

structure Ready (s : Cfg) (q : List Ptr) : Prop where
  chain : Chain 0 s.next (anchor s.word) q
  locked : Locked s.word
  tail_prev : ∀ a ∈ q.head?, s.prev a = 0
  clear : ∀ a ∈ q, s.state a = .clear
  count : ∀ a ∈ q, (s.opcode a).acquiredCount ≤ DATA_MASK

section
variable {kind : Kind} {s : Cfg} {h : List Event} {t : Tid} {k : After} {state n : ℕ}
  {cur p : Ptr} {q done rest granted l : List Ptr}

theorem walk_alone (kind : Kind) (h : List Event) (hpc : s.pc t = .walk state cur k)
    (hq : Chain 0 s.next p (done ++ cur :: rest)) (hb : (done ++ [cur]).IsChain (Back s.prev)) :
    ∃ prev last h', Solo kind t s h
        ({ s with prev := prev }.goto t (.back state last last 0 0 k)) h' ∧
      (done ++ cur :: rest).getLast? = some last ∧
      (done ++ cur :: rest).IsChain (Back prev) ∧
      ∀ a ∈ (done ++ cur :: rest).head?, prev a = s.prev a := by
  induction rest generalizing s done cur h with
  | nil =>
    have hn : s.next cur = 0 := hq.next_last
    have hc : cur ≠ 0 := hq.ne_null cur (by simp)
    refine ⟨s.prev, cur, _, .step (e := .tau) ?_ .done, by simp, hb, fun _ _ => rfl⟩
    simp [system, step, runStep, hpc, walkStep, hc, hn]
  | cons c rest ih =>
    have hn : s.next cur = c := hq.next_eq
    have hc : cur ≠ 0 := hq.ne_null cur (by simp)
    have hc' : c ≠ 0 := hq.ne_null c (by simp)
    have hnd := hq.nodup
    have hnot : c ∉ done ++ [cur] := by
      rw [show done ++ cur :: c :: rest = (done ++ [cur]) ++ c :: rest by simp] at hnd
      intro hm
      exact (List.nodup_append.mp hnd).2.2 c hm c (by simp) rfl
    set s₁ := { s with prev := Function.update s.prev c cur }.goto t (.walk state c k) with hs₁
    have hstep : (system kind).step s (.run t) = some (.tau, s₁) := by
      simp [system, step, runStep, hpc, walkStep, hc, hn, hc', hs₁]
    have hsplit : done ++ cur :: c :: rest = (done ++ [cur]) ++ c :: rest := by simp
    obtain ⟨prev, last, h', hrun, hlast, hback, hhead⟩ := ih (.tau :: h)
      (show s₁.pc t = _ by simp [hs₁]) (hsplit ▸ hq) (back_extend hb hnot)
    rw [← hsplit] at hlast hback hhead
    refine ⟨prev, last, h', .step hstep ?_, hlast, hback, ?_⟩
    · simpa [hs₁, Cfg.goto] using hrun
    · intro a ha
      rw [hhead a ha]
      refine Function.update_of_ne ?_ _ _
      rintro rfl
      apply hnot
      cases done with
      | nil => simp_all
      | cons b done => simp_all

/-- What the backward walk has found when it stands at `cur`: `granted` inherits. -/
structure Walking (kind : Kind) (s : Cfg) (t : Tid) (k : After) (cur : Ptr)
    (rest granted : List Ptr) : Prop where
  pc : ∃ head, s.pc t =
    .back s.word head cur (total s.opcode granted) (granted.headD 0) k
  chain : Chain 0 s.next (anchor s.word) (rest.reverse ++ cur :: granted)
  back : (rest.reverse ++ cur :: granted).IsChain (Back s.prev)
  tail_prev : ∀ a ∈ (rest.reverse ++ cur :: granted).head?, s.prev a = 0
  count : ∀ a ∈ cur :: rest, (s.opcode a).acquiredCount ≤ DATA_MASK
  max : kind.maxSharedOwners ≤ DATA_MASK
  room : data s.word + total s.opcode granted ≤ DATA_MASK

def Unlocked (kind : Kind) (s : Cfg) (h : List Event) (t : Tid) (k : After)
    (keep gone : List Ptr) : Prop :=
  ∃ w next p h', Solo kind t s h
      ({ s with word := w, next := next }.goto t (.resolve p 0 0 (.leave k))) h' ∧
    ¬Locked w ∧ data w = data s.word + total s.opcode gone ∧ Chain 0 next p gone ∧
    Chain 0 next (anchor w) keep

theorem Walking.cut (hw : Walking kind s t k cur rest granted)
    (hg : ¬Grantable kind.maxSharedOwners (data s.word + total s.opcode granted) (s.opcode cur)) :
    Unlocked kind s h t k (rest.reverse ++ [cur]) granted := by
  obtain ⟨head, hpc⟩ := hw.pc
  have hcur : cur ≠ 0 := hw.chain.ne_null cur (by simp)
  have hm : DATA_MASK = 63 := by decide
  have hd := hw.room
  obtain ⟨ha, hdata, hl⟩ := join_data s.word (d := data s.word + total s.opcode granted) (by omega)
  have hnext : s.next cur = granted.headD 0 := by
    cases granted with
    | nil => exact hw.chain.next_last
    | cons b granted => exact hw.chain.next_eq
  refine ⟨join (anchor s.word) (data s.word + total s.opcode granted),
    Function.update s.next cur 0, granted.headD 0, _,
    .step (e := .cut t cur) (by simp [system, step, runStep, hpc, backStep, hcur, hg]; rfl)
      (.step (e := .grant t (total s.opcode granted)) ?_ .done), hl, hdata, ?_, ?_⟩
  · simp [system, step, runStep, updateStep, Cfg.goto]
  · rw [← hnext]
    exact hw.chain.cut_rest 0
  · rw [ha]
    exact hw.chain.cut

theorem Walking.reset (hw : Walking kind s t k cur [] granted)
    (hg : Grantable kind.maxSharedOwners (data s.word + total s.opcode granted) (s.opcode cur)) :
    Unlocked kind s h t k [] (cur :: granted) := by
  obtain ⟨head, hpc⟩ := hw.pc
  have hcur : cur ≠ 0 := hw.chain.ne_null cur (by simp)
  have hz : s.prev cur = 0 := hw.tail_prev cur (by simp)
  have hm : DATA_MASK = 63 := by decide
  have hlt : data s.word + total s.opcode granted + (s.opcode cur).acquiredCount < 64 := by
    have hc := hw.count cur (by simp)
    have hx := hw.max
    have hac := acquired_le_desired (s.opcode cur)
    rcases hg with hg | hg <;> omega
  obtain ⟨ha, hl⟩ := anchor_of_lt hlt
  refine ⟨_, s.next, cur, _,
    .step (e := .tau) (by simp [system, step, runStep, hpc, backStep, hcur, hg, hz]; rfl)
      (.step (e := .tailReset t) ?_ .done), hl, ?_, ?_, ha⟩
  · simp [system, step, runStep, tailResetStep, Cfg.goto]
  · rw [total_cons, data_eq, Nat.mod_eq_of_lt hlt]
    omega
  · exact hw.chain.suffix

theorem Walking.advance {c : Ptr} (hw : Walking kind s t k cur (c :: rest) granted)
    (hg : Grantable kind.maxSharedOwners (data s.word + total s.opcode granted) (s.opcode cur)) :
    ∃ s₁, (∃ p, s₁ = s.goto t p) ∧ (system kind).step s (.run t) = some (.tau, s₁) ∧
      Walking kind s₁ t k c rest (cur :: granted) := by
  obtain ⟨head, hpc⟩ := hw.pc
  have hcur : cur ≠ 0 := hw.chain.ne_null cur (by simp)
  have hsplit : (c :: rest).reverse ++ cur :: granted = rest.reverse ++ c :: cur :: granted := by
    simp
  obtain ⟨-, hchain, hback, hprev, hcount, hmax, hroom⟩ := hw
  rw [hsplit] at hchain hback hprev
  have hc : c ≠ 0 := hchain.ne_null c (by simp)
  have hz : s.prev cur = c := by
    have hlast := hback.right_of_append
    rw [List.isChain_cons_cons] at hlast
    exact hlast.1
  refine ⟨s.goto t (.back s.word head c (total s.opcode (cur :: granted)) cur k), ⟨_, rfl⟩, ?_, ?_⟩
  · have hsum : total s.opcode (cur :: granted) =
        total s.opcode granted + (s.opcode cur).acquiredCount := by
      rw [total_cons, Nat.add_comm]
    simp [system, step, runStep, hpc, backStep, hcur, hg, hz, hc, hsum]
  · have hm : DATA_MASK = 63 := by decide
    have ha := hcount cur (by simp)
    have hac := acquired_le_desired (s.opcode cur)
    refine ⟨⟨head, by simp⟩, hchain, hback, hprev, fun a ha => hcount a (by simp [ha]), hmax, ?_⟩
    rw [goto_word, goto_opcode, total_cons]
    rcases hg with hg | hg <;> omega

theorem Unlocked.after {keep gone : List Ptr} {p : Pc} {e : Event}
    (hu : Unlocked kind (s.goto t p) (e :: h) t k keep gone)
    (hs : (system kind).step s (.run t) = some (e, s.goto t p)) :
    Unlocked kind s h t k keep gone := by
  obtain ⟨w, next, x, h', hrun, hrest⟩ := hu
  refine ⟨w, next, x, h', .step hs ?_, hrest⟩
  simpa [Cfg.goto] using hrun

/-- The backward walk stops at the first waiter that cannot inherit, and the queue is
unlocked there. -/
theorem Walking.unlocked (hw : Walking kind s t k cur rest granted) :
    ∃ g, g = inherit kind.maxSharedOwners s.opcode (data s.word + total s.opcode granted)
        (cur :: rest) ∧
      Unlocked kind s h t k ((cur :: rest).drop g.length).reverse (g.reverse ++ granted) := by
  refine ⟨_, rfl, ?_⟩
  induction rest generalizing s cur granted h with
  | nil =>
    by_cases hg : Grantable kind.maxSharedOwners (data s.word + total s.opcode granted)
      (s.opcode cur)
    · simpa [inherit, hg] using hw.reset hg
    · simpa [inherit, hg] using hw.cut hg
  | cons c rest ih =>
    by_cases hg : Grantable kind.maxSharedOwners (data s.word + total s.opcode granted)
      (s.opcode cur)
    · obtain ⟨s₁, ⟨p, hs₁⟩, hstep, hw₁⟩ := hw.advance hg
      have hsum : data s₁.word + total s₁.opcode (cur :: granted) =
          data s.word + total s.opcode granted + (s.opcode cur).acquiredCount := by
        rw [hs₁, goto_word, goto_opcode, total_cons]
        omega
      have hrest := ih hw₁ (h := .tau :: h)
      rw [hsum] at hrest
      rw [hs₁] at hrest hstep
      rw [inherit, if_pos hg, List.length_cons, List.drop_succ_cons, List.reverse_cons,
        List.append_assoc]
      exact hrest.after hstep
    · simpa [inherit, hg] using hw.cut hg

theorem results_alone {r : ℕ} {k : Then} (hpc : s.pc t = .resolve p r n k)
    (hq : Chain 0 s.next p l) (hc : ∀ a ∈ l, s.state a = .clear) :
    ∃ state pollable h', Solo kind t s h
        ({ s with state := state, pollable := pollable }.goto t
          (.resolve 0 r (n + l.length) k)) h' ∧
      (∀ a ∈ l, state a = ⟨r, true, true⟩) ∧ ∀ a ∉ l, state a = s.state a := by
  induction l generalizing s p n h with
  | nil =>
    obtain rfl : p = 0 := hq
    refine ⟨s.state, s.pollable, h, ?_, by simp, fun _ _ => rfl⟩
    have hself : s.goto t (.resolve 0 r n k) = s := by
      rw [← hpc]
      simp [Cfg.goto]
    simpa [hself] using Alone.done
  | cons a l ih =>
    obtain ⟨rfl, hne, hrest⟩ := hq
    have hnd := (List.nodup_cons.mp (Chain.nodup (p := p) ⟨rfl, hne, hrest⟩)).1
    set s₁ := ((s.setResult p r).goto t (.finalize p (s.next p) r n k)) with hs₁
    set s₂ := (s₁.setFinalized p).goto t (.resolve (s.next p) r (n + 1) k) with hs₂
    have hset : (system kind).step s (.run t) = some (.setResult t p r, s₁) := by
      simp [system, step, runStep, hpc, resolveStep, hne, hs₁]
    have hfin : (system kind).step s₁ (.run t) = some (.finalize t p, s₂) := by
      simp [system, step, runStep, finalizeStep, hs₁, hs₂]
    obtain ⟨st, po, h', hrun, hin, hout⟩ := ih (s := s₂) (n := n + 1)
      (h := .finalize t p :: .setResult t p r :: h) (by simp [hs₂]) hrest (fun b hb => by
        have hne : b ≠ p := by rintro rfl; exact hnd hb
        simpa [hs₂, hs₁, Cfg.setFinalized, Cfg.setResult, hne] using hc b (by simp [hb]))
    refine ⟨st, po, h', .step hset (.step hfin ?_), ?_, ?_⟩
    · have hlen : n + (p :: l).length = n + 1 + l.length := by simp; omega
      rw [hlen]
      simpa [hs₂, hs₁, Cfg.goto, Cfg.setFinalized, Cfg.setResult] using hrun
    · intro b hb
      by_cases hbl : b ∈ l
      · exact hin b hbl
      · obtain rfl : b = p := by simpa [hbl] using hb
        rw [hout b hbl]
        simp [hs₂, hs₁, Cfg.setFinalized, Cfg.setResult, EntryState.set, hc b (by simp),
          EntryState.clear]
    · intro b hb
      rw [List.mem_cons, not_or] at hb
      rw [hout b hb.2]
      simp [hs₂, hs₁, Cfg.setFinalized, Cfg.setResult, hb.1]

/-- Without interference `process_wait_queue` grants the longest prefix that the word
admits, and nothing else. -/
theorem process_alone (hmax : kind.maxSharedOwners ≤ DATA_MASK) (hr : Ready s q) (hne : q ≠ [])
    (hpc : s.pc t = .walk s.word (anchor s.word) k) :
    ∃ g s' h', g = inherit kind.maxSharedOwners s.opcode (data s.word) q.reverse ∧
      Solo kind t s h s' h' ∧ s'.pc t = k.pc ∧
      data s'.word = data s.word + total s.opcode g ∧ ¬Locked s'.word ∧
      Chain 0 s'.next (anchor s'.word) (q.reverse.drop g.length).reverse ∧
      (∀ a ∈ g, s'.state a = ⟨0, true, true⟩) ∧ (∀ a ∉ g, s'.state a = s.state a) ∧
      s'.opcode = s.opcode ∧ s'.slot = s.slot := by
  obtain ⟨tail, older, rfl⟩ := List.exists_cons_of_ne_nil hne
  have hhead : anchor s.word = tail := hr.chain.head
  rw [hhead] at hpc
  obtain ⟨prev, last, h₁, hwalk, hlast, hback, hprev⟩ :=
    walk_alone kind h hpc (show Chain 0 s.next _ ([] ++ tail :: older) from hr.chain)
      (.singleton tail)
  rw [List.nil_append] at hlast hback hprev
  obtain ⟨init, hq⟩ := List.getLast?_eq_some_iff.mp hlast
  have hrev : (tail :: older).reverse = last :: init.reverse := by rw [hq]; simp
  set s₁ := { s with prev := prev }.goto t (.back s.word last last 0 0 k) with hs₁
  have hw : Walking kind s₁ t k last init.reverse [] := by
    have hsplit : init.reverse.reverse ++ [last] = tail :: older := by rw [hq]; simp
    refine ⟨⟨last, by simp [hs₁, total]⟩, ?_, ?_, ?_, ?_, hmax, ?_⟩
    · rw [hsplit]; exact hr.chain
    · rw [hsplit]; exact hback
    · rw [hsplit]
      intro a ha
      exact (hprev a ha).trans (hr.tail_prev a ha)
    · intro a ha
      exact hr.count a (by rw [← List.mem_reverse, hrev]; exact ha)
    · exact (Nat.add_zero _).trans_le (data_le_mask _)
  obtain ⟨g, hg, w, next, p, h₂, hunlock, hl, hd, hgone, hkeep⟩ := hw.unlocked (h := h₁)
  rw [← hrev] at hkeep
  replace hg : g = inherit kind.maxSharedOwners s.opcode (data s.word) (tail :: older).reverse := by
    rw [hrev]
    exact hg
  rw [List.append_nil] at hd hgone
  set s₂ := { s₁ with word := w, next := next }.goto t (.resolve p 0 0 (.leave k)) with hs₂
  have htotal : total s.opcode g.reverse = total s.opcode g := by
    simp [total, List.sum_reverse]
  have hpc₂ : s₂.pc t = .resolve p 0 0 (.leave k) := by simp [hs₂]
  have hclear : ∀ a ∈ g.reverse, s₂.state a = .clear := by
    intro a ha
    refine hr.clear a (List.mem_reverse.mp ?_)
    rw [List.mem_reverse, hg] at ha
    exact (inherit_isPrefix ..).subset ha
  obtain ⟨st, po, h₃, hgive, hin, hout⟩ := results_alone (h := h₂) hpc₂ hgone hclear
  set s₃ := { s₂ with state := st, pollable := po }.goto t
    (.resolve 0 0 (0 + g.reverse.length) (.leave k)) with hs₃
  have hleave : (system kind).step s₃ (.run t) = some (.tau, s₃.goto t k.pc) := by
    simp [system, step, runStep, resolveStep, Then.step, hs₃]
  refine ⟨g, s₃.goto t k.pc, _, hg, hwalk.trans (hunlock.trans (hgive.trans (.step hleave .done))),
    by simp, ?_, hl, hkeep, ?_, ?_, rfl, rfl⟩
  · rw [← htotal]
    exact hd
  · intro a ha
    exact hin a (List.mem_reverse.mpr ha)
  · intro a ha
    exact hout a (by rwa [List.mem_reverse])

end

def Pc.Passing : Pc → Prop
  | .walk _ _ _ | .relink _ _ _ _ | .back _ _ _ _ _ _ | .tailReset _ _ _ _ _
  | .update _ _ _ _ _ | .add _ _ _ _ _ => True
  | .resolve _ _ _ (.pass _ _ _) | .finalize _ _ _ _ (.pass _ _ _) => True
  | _ => False

def Pc.Processing : Pc → Prop
  | .resolve _ _ _ (.leave _) | .finalize _ _ _ _ (.leave _) => True
  | p => p.Passing

def Pc.result : Pc → ℕ
  | .resolve _ r _ _ | .finalize _ _ r _ _ => r
  | _ => 0

theorem Pc.Passing.holds {p : Pc} (h : p.Passing) : p.Holds := by
  cases p with
  | resolve _ _ _ k => cases k <;> trivial
  | finalize _ _ _ _ k => cases k <;> trivial
  | _ => trivial

/-- What happened to the queue while thread `u` was processing it, newest first. -/
structure Trail where
  view : View
  /-- The entries pushed since. -/
  pushed : List Ptr
  /-- The entries `u` has detached since. -/
  granted : List Ptr

def Trail.observe (u : Tid) (m : Trail) (e : Event) : Trail where
  view := m.view.observe e
  pushed := match e with
    | .push _ a _ => a :: m.pushed
    | _ => m.pushed
  granted := match e with
    | .cut t a => if t = u then behind a m.view.queue ++ m.granted else m.granted
    | .tailReset t => if t = u then m.view.queue ++ m.granted else m.granted
    | _ => m.granted

/-- The trail of a run that starts with the view `v`. -/
def trail (u : Tid) (v : View) : List Event → Trail := fold (Trail.observe u) ⟨v, [], []⟩

/-- What `u` has detached is the oldest part of all that waited since it began. -/
structure Trailed (kind : Kind) (u : Tid) (q : List Ptr) (s : Cfg) (m : Trail) : Prop where
  inv : Inv kind s m.view
  oldest : m.granted <:+ m.pushed ++ q
  passing : (s.pc u).Passing → m.view.queue ++ m.granted = m.pushed ++ q
  taken : ∀ a ∈ m.view.taken u, a ∈ m.granted
  result : (s.pc u).result = 0

section
variable {kind : Kind} {s s' : Cfg} {m : Trail} {t u : Tid} {act : Action} {e : Event}
  {q : List Ptr}

theorem pushed_grows (m : Trail) (u : Tid) (e : Event) :
    m.pushed ++ q <:+ (m.observe u e).pushed ++ q := by
  cases e with
  | push => exact List.suffix_cons _ _
  | _ => exact List.suffix_rfl

theorem Took.queue_grows (ht : Took kind s m.view t act e s') (hk : kind.Grants) (hu : u ≠ t)
    (hh : (s.pc u).Holds) : ∃ new, (m.observe u e).pushed = new ++ m.pushed ∧
      (m.observe u e).view.queue = new ++ m.view.queue := by
  have hlk := ht.inv.word_locked hh
  have hno : ¬(s.pc t).Holds := fun hx => hu (ht.inv.unique u t hh hx)
  have hmv := ht.move
  have hef := ht.effect
  generalize s.pc t = p at hmv hno
  generalize s'.pc t = p' at hmv
  cases hmv with
  | gate hg => exact absurd hg hk.not_gate
  | cut | tailCut | tailReset | unlink | unlinkOnly => exact absurd trivial hno
  | poisonFast | poison => exact absurd hlk hef.2.1
  | writeBack hn | last hn | countDown hn => exact absurd hn hk.no_barrier
  | push => exact ⟨[_], rfl, rfl⟩
  | _ => exact ⟨[], rfl, rfl⟩

theorem Trailed.other (hm : Trailed kind u q s m) (hk : kind.Grants)
    (ht : Took kind s m.view t act e s') (hu : u ≠ t) : Trailed kind u q s' (m.observe u e) := by
  have hpc : s'.pc u = s.pc u := ht.frame.pc u hu
  have htaken : (m.observe u e).view.taken u = m.view.taken u := ht.taken_other hu
  have hgr : (m.observe u e).granted = m.granted := by
    have hmv := ht.move
    generalize s.pc t = p at hmv
    generalize s'.pc t = p' at hmv
    cases hmv with
    | gate hg => exact absurd hg hk.not_gate
    | cut | tailCut | tailReset => exact if_neg hu.symm
    | _ => rfl
  refine ⟨ht.inv', ?_, ?_, ?_, by rw [hpc]; exact hm.result⟩
  · rw [hgr]
    exact hm.oldest.trans (pushed_grows m u e)
  · rw [hpc, hgr]
    intro hp
    obtain ⟨new, h₁, h₂⟩ := ht.queue_grows hk hu hp.holds
    rw [h₁, h₂, List.append_assoc, List.append_assoc, hm.passing hp]
  · rw [hgr, htaken]
    exact hm.taken

theorem Trailed.own (hm : Trailed kind u q s m) (hk : kind.Grants)
    (ht : Took kind s m.view u act e s')
    (hp : (s.pc u).Processing) : Trailed kind u q s' (m.observe u e) := by
  have hpass := hm.passing
  have hres := hm.result
  have hmv := ht.move
  generalize hpc : s.pc u = p at hmv hp hpass hres
  generalize hpc' : s'.pc u = p' at hmv
  have hstay : (m.observe u e).view.queue = m.view.queue →
      (∀ a ∈ (m.observe u e).view.taken u, a ∈ m.view.taken u) →
      (m.observe u e).granted = m.granted → (m.observe u e).pushed = m.pushed →
      (p'.Passing → p.Passing) → p'.result = 0 → Trailed kind u q s' (m.observe u e) := by
    intro hq hta hg hpu hpp hr
    refine ⟨ht.inv', ?_, ?_, ?_, by rw [hpc']; exact hr⟩
    · rw [hg, hpu]; exact hm.oldest
    · rw [hpc', hq, hg, hpu]
      exact fun h => hpass (hpp h)
    · rw [hg]
      exact fun a ha => hm.taken a (hta a ha)
  have hcut : ∀ b ∈ m.view.queue, e = .cut u b → p.Passing → p'.result = 0 →
      Trailed kind u q s' (m.observe u e) := by
    rintro b hb rfl hp hr
    have hsplit : upTo b m.view.queue ++ (behind b m.view.queue ++ m.granted) = m.pushed ++ q := by
      rw [← List.append_assoc, upTo_behind hb]
      exact hpass hp
    have hg : (m.observe u (.cut u b)).granted = behind b m.view.queue ++ m.granted := if_pos rfl
    refine ⟨ht.inv', ?_, ?_, ?_, by rw [hpc']; exact hr⟩
    · rw [hg]
      exact ⟨_, hsplit⟩
    · rw [hg]
      exact fun _ => hsplit
    · rw [hg]
      intro a ha
      simp only [Trail.observe, View.observe, View.detach, Function.update_self] at ha
      exact List.mem_append_left _ ha
  cases hmv with
  | gate hg => exact absurd hg hk.not_gate
  | walk | walked | relink | relinked | back | backTail | missed | update | add | pass =>
    exact hstay rfl (fun _ h => h) rfl rfl (fun _ => trivial) rfl
  | cut | tailCut => exact hcut _ ht.cut_mem rfl trivial rfl
  | tailReset =>
    have hg : (m.observe u (.tailReset u)).granted = m.view.queue ++ m.granted := if_pos rfl
    refine ⟨ht.inv', ?_, ?_, ?_, by rw [hpc']; rfl⟩
    · rw [hg, hpass trivial]
      exact List.suffix_rfl
    · rw [hpc']
      exact fun h => h.elim
    · rw [hg]
      intro a ha
      simp only [Trail.observe, View.observe, View.detach, Function.update_self] at ha
      exact List.mem_append_left _ ha
  | @set cur r n k =>
    refine hstay rfl ?_ rfl rfl ?_ hres
    · intro a ha
      simp only [Trail.observe, View.observe, Function.update_self] at ha
      exact List.mem_of_mem_erase ha
    · cases k <;> exact id
  | @finalize cur nx r n k =>
    refine hstay rfl (fun _ h => h) rfl rfl ?_ hres
    cases k <;> exact id
  | @leave r n k =>
    refine hstay rfl (fun _ h => h) rfl rfl ?_ ?_
    · cases k <;> exact fun h => h.elim
    · cases k <;> rfl
  | own htry | take htry => rcases htry with rfl | ⟨_, _, rfl⟩ <;> exact hp.elim
  | _ => exact hp.elim

/-- Every step of every thread keeps the trail. -/
theorem step_trailed (hm : Trailed kind u q s m) (hk : kind.Grants)
    (hp : (s.pc u).Processing) (hs : step kind s act = some (e, s')) :
    Trailed kind u q s' (m.observe u e) := by
  have hi' := step_inv hm.inv (hm.inv.not_intrudes hk.not_barrier)
    (fun t q c hpc => absurd hpc (hm.inv.no_writeBack hk.not_barrier)) hs
  have ht := took hm.inv hi' hs
  by_cases hu : u = act.actor
  · rw [← hu] at ht
    exact hm.own hk ht hp
  · exact hm.other hk ht hu

end

/-- Entries that inherit a lock one after the other share it, unless one of them takes it
exclusively. -/
theorem greedy_lock {o : Ptr → Opcode} {held : ℕ} {l : List Ptr}
    (hg : Greedy MAX_SHARED_OWNERS o held l) (hf : ∀ a ∈ l, (o a).Fits .lock) :
    total o l = 0 ∨ held + total o l ≤ MAX_SHARED_OWNERS ∨
      held = 0 ∧ total o l = DATA_MASK ∧ ∃ a ∈ l, o a = .exclusive := by
  have hm : MAX_SHARED_OWNERS = 62 := by decide
  cases l with
  | nil => exact .inl rfl
  | cons a l =>
    have hfit := hf a (by simp)
    have hac := acquired_le_desired (o a)
    rw [total_cons]
    rcases hg.2 with hz | hle
    · have hl : total o l = 0 := by omega
      cases ho : o a with
      | exclusive =>
        refine .inr (.inr ⟨by omega, ?_, a, by simp, ho⟩)
        rw [hl]
        rfl
      | shared => exact .inr (.inl (by simp only [Opcode.acquiredCount]; omega))
      | wait n => exact .inl (by simp only [Opcode.acquiredCount]; omega)
      | semaphore n =>
        rw [ho] at hfit
        obtain ⟨-, m, hk⟩ := hfit
        cases hk
      | barrier b =>
        rw [ho] at hfit
        obtain ⟨m, hk⟩ := hfit
        cases hk
    · exact .inr (.inl (by omega))

/-- The counts of `g` are added to the data field and stay in it. A lock is shared below
`DATA_MASK`, unless one exclusive owner takes it. -/
def Adds (kind : Kind) (s s' : Cfg) (g : List Ptr) : Prop :=
  data s'.word = data s.word + total s.opcode g ∧ data s.word + total s.opcode g ≤ DATA_MASK ∧
  (kind = .lock → total s.opcode g = 0 ∨ data s'.word ≤ MAX_SHARED_OWNERS ∨
    data s.word = 0 ∧ total s.opcode g = DATA_MASK ∧ ∃ a ∈ g, s.opcode a = .exclusive)

/-- What a step of `process_wait_queue` may do. -/
structure Prudent (kind : Kind) (u : Tid) (m : Trail) (s : Cfg) (e : Event) (s' : Cfg) : Prop where
  grant : ∀ n, e = .grant u n → Adds kind s s' (m.view.taken u)
  reset : e = .tailReset u → Adds kind s s' m.view.queue
  others : (∀ n, e ≠ .grant u n) → e ≠ .tailReset u → s'.word = s.word
  result : ∀ a r, e = .setResult u a r → r = 0 ∧ a ∈ m.view.taken u ∧ a ∈ m.granted
  unlocks : (s.pc u).Passing → ¬Locked s'.word → ∀ a ∈ (m.view.observe e).queue.getLast?,
    ¬Grantable kind.maxSharedOwners (data s'.word) (s.opcode a)

section
variable {kind : Kind} {s s' : Cfg} {m : Trail} {t u : Tid} {act : Action} {e : Event}
  {q g : List Ptr} {held : ℕ}

theorem adds_of_greedy (hi : Inv kind s m.view)
    (hst : ∀ a ∈ g, m.view.stat a ≠ .idle) (hle : data s.word ≤ held)
    (hg : Greedy kind.maxSharedOwners s.opcode held g)
    (hd : data s'.word = data s.word + total s.opcode g) : Adds kind s s' g := by
  refine ⟨hd, ?_, ?_⟩
  · rw [← hd]
    exact data_le_mask _
  · rintro rfl
    rcases greedy_lock hg fun a ha => hi.glob.opcodes a (hst a ha) with h | h | ⟨h, hrest⟩
    · exact .inl h
    · exact .inr (.inl (by rw [hd]; exact (Nat.add_le_add_right hle _).trans h))
    · exact .inr (.inr ⟨by omega, hrest⟩)

theorem Trailed.prudent (hm : Trailed kind u q s m) (hk : kind.Grants)
    (hp : (s.pc u).Processing) (hs : step kind s (.run u) = some (e, s')) :
    Prudent kind u m s e s' := by
  have hi' := step_inv hm.inv (hm.inv.not_intrudes hk.not_barrier)
    (fun t q c hpc => absurd hpc (hm.inv.no_writeBack hk.not_barrier)) hs
  have ht : Took kind s m.view u (.run u) e s' := took hm.inv hi' hs
  have hef := ht.effect
  have hlocked : (s.pc u).Passing → Locked s.word := fun h => hm.inv.word_locked h.holds
  have hkeep : s'.word = s.word → (∀ a r, e ≠ .setResult u a r) → (∀ n, e ≠ .grant u n) →
      e ≠ .tailReset u → Prudent kind u m s e s' := by
    intro hw hset hgr htr
    refine ⟨fun n h => absurd h (hgr n), fun h => absurd h htr, fun _ _ => hw,
      fun a r h => absurd h (hset a r), fun hpass hn => absurd (hlocked hpass) ?_⟩
    rwa [← hw]
  have hgrant : ∀ n, e = .grant u n → Prudent kind u m s e s' := by
    rintro n rfl
    obtain ⟨-, rfl, ⟨held, hle, hg⟩, hd, hblocked⟩ := hef
    refine ⟨fun _ _ => ?_, by simp, fun h => absurd rfl (h _), by simp, fun _ hn => hblocked hn⟩
    exact adds_of_greedy hm.inv (fun a ha => by rw [(hm.inv.glob.taken u a).mp ha]; simp) hle hg hd
  have hmv := ht.move
  have hres := hm.result
  generalize hpc : s.pc u = p at hmv hp hres
  generalize s'.pc u = p' at hmv
  cases hmv with
  | gate hg => exact absurd hg hk.not_gate
  | walk | walked | relink | relinked | back | backTail | missed | pass | leave =>
    exact hkeep hef (by simp) (by simp) (by simp)
  | cut | tailCut => exact hkeep hef.2 (by simp) (by simp) (by simp)
  | finalize => exact hkeep hef (by simp) (by simp) (by simp)
  | update => exact hgrant _ rfl
  | add => exact hgrant _ rfl
  | tailReset =>
    obtain ⟨-, hw, hlt, hg⟩ := hef
    refine ⟨by simp, fun _ => ?_, fun _ h => absurd rfl h, by simp, ?_⟩
    swap
    · intro _ _ a ha
      cases ha
    refine adds_of_greedy hm.inv (fun a ha => by rw [(hm.inv.glob.queued a).mp ha]; simp) le_rfl hg
      ?_
    rw [hw, data_eq, Nat.mod_eq_of_lt (hw ▸ hlt)]
  | @set cur r n k hcur =>
    refine ⟨by simp, by simp, fun _ _ => hef, ?_, ?_⟩
    · rintro a r ⟨⟩
      exact ⟨hres, hcur, hm.taken _ hcur⟩
    · intro hpass hn
      rw [show s'.word = s.word from hef] at hn
      exact absurd (hlocked hpass) hn
  | own htry | take htry => rcases htry with rfl | ⟨_, _, rfl⟩ <;> exact hp.elim
  | _ => exact hp.elim

end

/-- An arbitrary queue, newest first, that thread 0 owns at `p`; `own` is the entry its
call borrows. -/
def loaded (opcode : Ptr → Opcode) (q : List Ptr) (own : Option Ptr) (d : ℕ) (p : Pc) : Cfg where
  word := q.headD 0 + LOCKED_FLAG + d
  next := fun a => (behind a q).headD 0
  prev := fun _ => 0
  opcode := opcode
  state := fun a => if a ∉ q ∧ own = some a then ⟨0, true, true⟩ else .clear
  pollable := fun _ => true
  slot := fun a => if own = some a then .used 0 else if a ∈ q then .pager else .none
  pc := Function.update (fun _ => .idle) 0 p

def loadedView (q : List Ptr) (own : Option Ptr) : View where
  queue := q
  taken := fun _ => []
  stat := fun a => if a ∈ q then .queued else if own = some a then .final else .idle
  sets := fun a => if a ∉ q ∧ own = some a then 1 else 0

section
variable {kind : Kind} {opcode : Ptr → Opcode} {q l pre newer seg : List Ptr} {own : Option Ptr}
  {d d' : ℕ} {p : Pc}

theorem chain_behind (hnd : q.Nodup) (hz : ∀ a ∈ q, a ≠ 0) (hq : q = pre ++ l) :
    Chain 0 (fun a => (behind a q).headD 0) (l.headD 0) l := by
  induction l generalizing pre with
  | nil => rfl
  | cons a l ih =>
    have hn : a ∉ pre := by
      rw [hq] at hnd
      exact fun hm => (List.nodup_append.mp hnd).2.2 a hm a (by simp) rfl
    refine ⟨rfl, hz a (by rw [hq]; simp), ?_⟩
    have hb : behind a q = l := by rw [hq, behind_append hn]
    change Chain 0 _ ((behind a q).headD 0) l
    rw [hb]
    exact ih (show q = (pre ++ [a]) ++ l by rw [hq]; simp)

theorem word_fields {a : Ptr} (ha : IsAnchor a) (hd : d ≤ DATA_MASK) :
    anchor (a + LOCKED_FLAG + d) = a ∧ data (a + LOCKED_FLAG + d) = d ∧
    Locked (a + LOCKED_FLAG + d) := by
  have hm : DATA_MASK = 63 := by decide
  have hf : LOCKED_FLAG = 64 := by decide
  obtain ⟨c, rfl⟩ : 128 ∣ a := Nat.dvd_of_mod_eq_zero ha.1
  rw [hm] at hd
  rw [anchor_eq, data_eq, locked_iff, hf]
  omega

theorem loaded_entry (a : Ptr) (ha : a ∈ q ∨ own = some a → IsAnchor a)
    (ho : a ∈ q ∨ own = some a → (opcode a).Fits kind) :
    EntryOk kind (loaded opcode q own d p) (loadedView q own) a := by
  by_cases hm : a ∈ q
  · have hst : (loadedView q own).stat a = .queued := if_pos hm
    have hstate : (loaded opcode q own d p).state a = .clear := if_neg fun h => h.1 hm
    have hsets : (loadedView q own).sets a = 0 := if_neg fun h => h.1 hm
    have hslot : (loaded opcode q own d p).slot a ≠ .none := by
      simp only [loaded, if_pos hm]
      split <;> simp
    have hpoll : (loaded opcode q own d p).pollable a = true := rfl
    have hop : (loaded opcode q own d p).opcode a = opcode a := rfl
    constructor <;> simp [hst, hstate, hsets, hslot, hpoll, hop, Stat.setCount, ha (.inl hm)]
    exact ho (.inl hm)
  by_cases hw : own = some a
  · constructor <;> simp [Stat.setCount, ha (.inr hw), loaded, loadedView, hm, hw]
    exact ho (.inr hw)
  · constructor <;> simp [Stat.setCount, loaded, loadedView, hm, hw]

theorem loaded_inv (hne : q ≠ []) (hnd : q.Nodup) (ha : ∀ a, a ∈ q ∨ own = some a → IsAnchor a)
    (ho : ∀ a, a ∈ q ∨ own = some a → (opcode a).Fits kind) (hd : d ≤ DATA_MASK)
    (hh : p.Holds) (hl : Local kind (loaded opcode q own d p) (loadedView q own) 0 p) :
    Inv kind (loaded opcode q own d p) (loadedView q own) := by
  have hword : anchor (q.headD 0 + LOCKED_FLAG + d) = q.headD 0 := by
    obtain ⟨tail, older, rfl⟩ := List.exists_cons_of_ne_nil hne
    exact (word_fields (ha tail (by simp)) hd).1
  have hz : ∀ a ∈ q, a ≠ 0 := by
    rintro a hm rfl
    exact absurd (ha 0 (.inl hm)).2 (by decide)
  have hpc : ∀ t, t ≠ 0 → (loaded opcode q own d p).pc t = .idle := by
    intro t ht
    simp [loaded, ht]
  have hpc₀ : (loaded opcode q own d p).pc 0 = p := by simp [loaded]
  have hstat : ∀ a, a ∈ q ∧ (loadedView q own).stat a = .queued ∨
      a ∉ q ∧ ((loadedView q own).stat a = .final ∨ (loadedView q own).stat a = .idle) := by
    intro a
    by_cases hm : a ∈ q <;> by_cases hw : own = some a <;> simp [loadedView, hm, hw]
  have hqueue : (loadedView q own).queue = q := rfl
  have htaken : ∀ t, (loadedView q own).taken t = [] := fun _ => rfl
  refine ⟨.of ?_ ?_ ?_ ?_ fun a => loaded_entry a (ha a) (ho a), ?_, ?_, ?_⟩
  · change Chain 0 _ (anchor (q.headD 0 + LOCKED_FLAG + d)) q
    rw [hword]
    exact chain_behind hnd hz (show q = [] ++ q from rfl)
  · intro a
    rcases hstat a with ⟨hm, h⟩ | ⟨hm, h | h⟩ <;> simp [h, hm, hqueue]
  · intro t a
    rcases hstat a with ⟨hm, h⟩ | ⟨hm, h | h⟩ <;> simp [h, htaken]
  · exact fun _ _ => rfl
  · intro t
    by_cases ht : t = 0
    · subst ht
      rw [hpc₀]
      exact hl
    · rw [hpc t ht]
      refine .ofIdle (fun a => ?_) (fun a => ?_) rfl
      · simp only [loaded]
        split
        · simp [Ne.symm ht]
        · split <;> simp
      · rcases hstat a with ⟨hm, h⟩ | ⟨hm, h | h⟩ <;> simp [h]
  · exact fun _ => .inl ⟨0, by rw [hpc₀]; exact hh⟩
  · intro t u ht hu
    have hz : ∀ x, ((loaded opcode q own d p).pc x).Holds → x = 0 := by
      intro x hx
      by_contra hne
      rw [hpc x hne] at hx
      exact hx
    rw [hz t ht, hz u hu]

/-- A snapshot of an arbitrary queue, taken when `newer` was not pushed and the data field
was `d'`. -/
theorem loaded_snap {v : View} {s : Cfg} (hv : v.queue = newer ++ seg) (hne : seg ≠ [])
    (ha : ∀ a ∈ seg, IsAnchor a) (hw : Locked s.word) (hdata : data s.word ≤ d')
    (hd : d' ≤ DATA_MASK) (hp : s.prev = fun _ => 0) :
    Snap s v (seg.headD 0 + LOCKED_FLAG + d') newer seg := by
  obtain ⟨tail, older, rfl⟩ := List.exists_cons_of_ne_nil hne
  obtain ⟨h₁, h₂, h₃⟩ := word_fields (ha tail (by simp)) hd
  refine ⟨hv, ?_, h₃, hw, ?_, ?_, ?_⟩
  · exact congrArg some h₁.symm
  · exact h₂.symm ▸ hdata
  · simp [hp]
  · simp [hp]

theorem loaded_walk (hk : kind.Grants) (hne : seg ≠ []) (hnd : (newer ++ seg).Nodup)
    (ha : ∀ a ∈ newer ++ seg, IsAnchor a) (ho : ∀ a ∈ newer ++ seg, (opcode a).Fits kind)
    (hd : d ≤ d') (hd' : d' ≤ DATA_MASK) :
    Inv kind (loaded opcode (newer ++ seg) none d
        (.walk (seg.headD 0 + LOCKED_FLAG + d') (seg.headD 0) .returned))
      (loadedView (newer ++ seg) none) := by
  have hq : newer ++ seg ≠ [] := by simp [hne]
  obtain ⟨first, rest, hfirst⟩ := List.exists_cons_of_ne_nil hq
  obtain ⟨h₁, h₂, h₃⟩ := word_fields (ha first (by simp [hfirst])) (hd.trans hd')
  have hsnap := fun p => loaded_snap (v := loadedView (newer ++ seg) none)
    (s := loaded opcode (newer ++ seg) none d p) rfl hne (fun a h => ha a (by simp [h]))
    (by simpa [loaded, hfirst] using h₃) (by simpa [loaded, hfirst, h₂] using hd) hd' rfl
  obtain ⟨tail, older, rfl⟩ := List.exists_cons_of_ne_nil hne
  refine loaded_inv hq hnd (by simpa using ha) (by simpa using ho) (hd.trans hd') trivial ?_
  exact {
    slot := fun a => by
      simp only [Pc.entry, After.entry, loaded, reduceCtorEq, if_false, false_iff]
      split <;> simp
    stat := fun _ h => by cases h
    anchors := fun _ h => by cases h
    built := fun _ h => by cases h
    flagged := fun _ h => by cases h
    reqs := fun _ h => by cases h
    fits := hk.not_gate
    answering := fun a => by
      simp only [Pc.answering, loadedView]
      split <;> simp
    taken := rfl
    hold := ⟨newer, [], older, hsnap _, .singleton _⟩
    counted := trivial }

end

section
variable {kind : Kind}

theorem Inv.ready {s : Cfg} {v : View} {t : Tid} (hi : Inv kind s v) (hh : (s.pc t).Holds) :
    Ready s v.queue where
  chain := hi.glob.chain
  locked := hi.word_locked hh
  tail_prev := hi.glob.tail_prev
  clear := fun a ha => hi.glob.clear a (.inl ((hi.glob.queued a).mp ha))
  count := fun a ha => hi.opcode_le (by rw [(hi.glob.queued a).mp ha]; simp)

/-- `process_wait_queue` on a lock or a semaphore, for every word and every queue. Alone and
with an accurate snapshot it grants the longest prefix of the waiters that the word admits.
With any interference, and from any snapshot of a part of the queue with at least the data
of the word, it still grants the oldest waiters, adds no more than the data field holds, and
leaves an oldest waiter that the word does not admit. -/
theorem process_wait_queue_greedy (hk : kind.Grants) :
    (∀ s q t k h, Ready s q → q ≠ [] → s.pc t = .walk s.word (anchor s.word) k →
      ∃ g s' h', g = inherit kind.maxSharedOwners s.opcode (data s.word) q.reverse ∧
        Solo kind t s h s' h' ∧ s'.pc t = k.pc ∧
        data s'.word = data s.word + total s.opcode g ∧ ¬Locked s'.word ∧
        Chain 0 s'.next (anchor s'.word) (q.reverse.drop g.length).reverse ∧
        (∀ a ∈ g, s'.state a = ⟨0, true, true⟩) ∧ ∀ a ∉ g, s'.state a = s.state a) ∧
    ∀ s₀ v₀ u state k, Inv kind s₀ v₀ → s₀.pc u = .walk state (anchor state) k →
      ∀ s h, Run ⟨s₀, step kind⟩ (fun s _ _ => (s.pc u).Processing) s h →
        (trail u v₀ h).granted <:+ (trail u v₀ h).pushed ++ v₀.queue ∧
        ((s.pc u).Processing → ∀ e s', step kind s (.run u) = some (e, s') →
          Prudent kind u (trail u v₀ h) s e s') := by
  constructor
  · intro s q t k h hr hne hpc
    obtain ⟨g, s', h', hg, hsolo, hend, hd, hl, hq, hin, hout, -⟩ :=
      process_alone (h := h) (max_le hk.not_gate) hr hne hpc
    exact ⟨g, s', h', hg, hsolo, hend, hd, hl, hq, hin, hout⟩
  · intro s₀ v₀ u state k hi hpc s h hrun
    have hm : Trailed kind u v₀.queue s (trail u v₀ h) := by
      refine Run.invariant (P := fun s h => Trailed kind u v₀.queue s (trail u v₀ h)) ?_ ?_ hrun
      · have htaken : v₀.taken u = [] := by
          have hchain := (hi.loc u).taken
          rw [hpc] at hchain
          exact chain_null.mp hchain
        refine ⟨hi, List.nil_suffix, fun _ => List.append_nil _, ?_, ?_⟩
        · simp [trail, htaken]
        · simp [hpc, Pc.result]
      · intro s h a e s' _ hm hp hs
        exact step_trailed hm hk hp hs
    exact ⟨hm.oldest, fun hp e s' hs => hm.prudent hk hp hs⟩

end

def shared : Cfg :=
  loaded (fun a => if a = 512 then .exclusive else .shared) [512, 384, 256] none 0
    (.walk (512 + LOCKED_FLAG + 0) 512 .returned)

theorem process_wait_queue_greedy_shared :
    ∃ s' h', Solo .lock 0 shared [] s' h' ∧ data s'.word = 2 ∧ ¬Locked s'.word ∧
      s'.state 256 = ⟨0, true, true⟩ ∧ s'.state 384 = ⟨0, true, true⟩ ∧ s'.state 512 = .clear ∧
      (trail 0 (loadedView [512, 384, 256] none) []).granted <:+ [512, 384, 256] := by
  have hk : Kind.lock.Grants := .inl rfl
  have hi : Inv .lock shared (loadedView [512, 384, 256] none) :=
    @loaded_walk .lock _ [] [512, 384, 256] 0 0 hk (by simp) (by decide) (by decide)
      (fun a _ => by split <;> rfl) le_rfl (by decide)
  have hpc : shared.pc 0 = .walk shared.word (anchor shared.word) .returned := rfl
  obtain ⟨halone, hany⟩ := process_wait_queue_greedy hk
  obtain ⟨g, s', h', hg, hrun, -, hd, hl, -, hin, hout⟩ :=
    halone shared _ 0 .returned [] (hi.ready (t := 0) trivial) (by simp [loadedView]) hpc
  obtain rfl : g = [256, 384] := hg
  obtain ⟨hold, -⟩ := hany shared _ 0 _ _ hi hpc shared [] .init
  exact ⟨s', h', hrun, hd, hl, hin 256 (by simp), hin 384 (by simp), hout 512 (by simp), hold⟩

end Saa
