import YwStorage.Queue.Linked
import YwStorage.Lib.Run

/-! The queue neither loses nor duplicates nodes and returns them in the order of their pushes. -/
namespace YwStorage.Queue
open Chain Lts

variable {τ ν : Type*} {m m' : Shared ν} {rest rest' : List (Ptr ν)}
  {own own' : Option (τ × Ptr ν × Ptr ν)} {i j : τ} {pc pc' : Pc ν} {p v w ret old : Ptr ν} {x : ν}

/-- What a thread knows of the cells that it has read. -/
def Knows (m : Shared ν) (rest : List (Ptr ν)) (own : Option (τ × Ptr ν × Ptr ν)) (i : τ) :
    Pc ν → Prop
  | .idle | .readTail _ | .resetTail _ | .recheckTail _ | .readHead => True
  | .assertTail _ p | .readNext _ p | .casTail _ _ p | .recheckNext _ p => Cell m.log p
  | .assertNext _ p q | .writeNext _ p q => Cell m.log p ∧ Cell m.log q
  | .testNext x p | .testSelf x p | .loadNext x p => Cell m.log p ∧ Cell m.log (m.next (.node x))
  | .attachTail x => m.next (.node x) = .head
  | .attach x p => m.next (.node x) = .head ∧ Cell m.log p
  | .readOld ret | .testTail ret _ => Front m rest own ret
  | .selfLink ret old => Front m rest own ret ∧ old ≠ ret
  | .retestTail ret old | .swingHead ret old => own = some (i, ret, old)
  | .swing back _ t u =>
    (∀ e ∈ back, own = some (i, e)) ∧ (∀ p ∈ t, Cell m.log p) ∧ ∀ p ∈ u, Cell m.log p
  | .failed => False

/-- What the other threads know is not touched when a thread goes on from `pc`. -/
structure Later (m : Shared ν) (rest : List (Ptr ν)) (own : Option (τ × Ptr ν × Ptr ν))
    (i : τ) (pc : Pc ν) (m' : Shared ν) (rest' : List (Ptr ν))
    (own' : Option (τ × Ptr ν × Ptr ν)) : Prop where
  pushes : ∀ p ∈ pushes m.log, p ∈ Queue.pushes m'.log
  front : ∀ p, Front m rest own p → Front m' rest' own' p
  next : ∀ x, .node x ∉ Queue.pushes m.log → pc.pushing ≠ some x →
    m'.next (.node x) = m.next (.node x)
  own : ∀ j e, j ≠ i → (own = some (j, e) ↔ own' = some (j, e))

theorem Later.refl : Later m rest own i pc m rest own :=
  ⟨fun _ => id, fun _ => id, fun _ _ _ => rfl, fun _ _ _ => Iff.rfl⟩

theorem Later.cell (h : Later m rest own i pc m' rest' own') (hp : Cell m.log p) :
    Cell m'.log p :=
  hp.imp_right (h.pushes p)

/-- What another thread knows stays true. -/
theorem Knows.later {pc₁ : Pc ν} (h : Knows m rest own j pc₁)
    (hl : Later m rest own i pc m' rest' own') (hj : j ≠ i)
    (hnew : ∀ x, pc₁.pushing = some x → .node x ∉ pushes m.log ∧ pc.pushing ≠ some x) :
    Knows m' rest' own' j pc₁ := by
  have hnext : ∀ x, pc₁.pushing = some x → m'.next (.node x) = m.next (.node x) :=
    fun x hx => hl.next x (hnew x hx).1 (hnew x hx).2
  cases pc₁ with
  | idle => trivial
  | readTail x => trivial
  | resetTail x => trivial
  | recheckTail x => trivial
  | readHead => trivial
  | assertTail x p => exact hl.cell h
  | readNext x p => exact hl.cell h
  | casTail x p q => exact hl.cell h
  | recheckNext x p => exact hl.cell h
  | assertNext x p q => exact ⟨hl.cell h.1, hl.cell h.2⟩
  | writeNext x p q => exact ⟨hl.cell h.1, hl.cell h.2⟩
  | testNext x p => exact ⟨hl.cell h.1, by rw [hnext x rfl]; exact hl.cell h.2⟩
  | testSelf x p => exact ⟨hl.cell h.1, by rw [hnext x rfl]; exact hl.cell h.2⟩
  | loadNext x p => exact ⟨hl.cell h.1, by rw [hnext x rfl]; exact hl.cell h.2⟩
  | attachTail x => exact (hnext x rfl).trans h
  | attach x p => exact ⟨(hnext x rfl).trans h.1, hl.cell h.2⟩
  | readOld ret => exact hl.front _ h
  | testTail ret old => exact hl.front _ h
  | selfLink ret old => exact ⟨hl.front _ h.1, h.2⟩
  | retestTail ret old => exact (hl.own j _ hj).mp h
  | swingHead ret old => exact (hl.own j _ hj).mp h
  | swing back prev p q =>
    exact ⟨fun e he => (hl.own j e hj).mp (h.1 e he), fun p hp => hl.cell (h.2.1 p hp),
      fun q hq => hl.cell (h.2.2 q hq)⟩
  | failed => exact h

variable [DecidableEq ν]

/-- One step of a thread. -/
structure Moved (m : Shared ν) (rest : List (Ptr ν)) (own : Option (τ × Ptr ν × Ptr ν)) (i : τ)
    (pc : Pc ν) (r : Shared ν × Pc ν) (rest' : List (Ptr ν)) (own' : Option (τ × Ptr ν × Ptr ν)) :
    Prop where
  linked : Linked r.1 rest' own'
  knows : Knows r.1 rest' own' i r.2
  later : Later m rest own i pc r.1 rest' own'
  taken : ∀ e, own' = some (i, e) → r.2.taken = some e
  logged : Logged m.log pc r.1.log r.2

section Step
variable (h : Linked m rest own) (htaken : ∀ e, own = some (i, e) → pc.taken = some e)
include h

section Quiet
include htaken

/-- A step that changes no link. -/
theorem Moved.quiet (hknows : Knows m rest own i pc') (hpushing : pc'.pushing = pc.pushing)
    (hkeep : pc'.taken = pc.taken) : Moved m rest own i pc (m, pc') rest own :=
  ⟨h, hknows, .refl, fun e he => hkeep.trans (htaken e he), .same hpushing⟩

/-- A read of `p->next`. -/
theorem Moved.deref {k : Ptr ν → Pc ν} (hp : Cell m.log p)
    (hknows : Knows m rest own i (k (m.next p))) (hpushing : (k (m.next p)).pushing = pc.pushing)
    (hkeep : (k (m.next p)).taken = pc.taken) :
    Moved m rest own i pc (m, m.deref p k) rest own := by
  rw [Shared.deref, if_neg (h.cell_ne_null hp)]
  exact .quiet h htaken hknows hpushing hkeep

theorem Moved.setTail (hv : Cell m.log v) (hknows : Knows m rest own i pc')
    (hpushing : pc'.pushing = pc.pushing) (hkeep : pc'.taken = pc.taken) :
    Moved m rest own i pc (m.setTail v, pc') rest own := by
  refine ⟨h.setTail hv, ?_, ⟨fun _ => id, fun _ => id, fun _ _ _ => rfl, fun _ _ _ => Iff.rfl⟩,
    fun e he => hkeep.trans (htaken e he), .same hpushing⟩
  cases pc' <;> exact hknows

/-- The call of `push`. -/
theorem Moved.push (hidle : pc = .idle) (hnew : .push (.node x) ∉ m.log) :
    Moved m rest own i pc (m.record (.push (.node x)), .readTail x) rest own := by
  subst hidle
  refine ⟨h.call, trivial, ⟨fun p hp => ?_, fun p hp => ⟨?_, hp.2⟩, fun _ _ _ => rfl,
    fun _ _ _ => Iff.rfl⟩, htaken, .push hnew rfl rfl⟩
  · rwa [Shared.record, pushes_push]
  · rw [Shared.record, pushes_push]
    exact hp.1

end Quiet

/-- `node->next = cur_tail->next`. -/
theorem Moved.write {cur : Ptr ν} (hx : .node x ∉ pushes m.log) (hcur : Cell m.log cur)
    (hv : Cell m.log v) (hown : ∀ e, own ≠ some (i, e)) :
    Moved m rest own i (.writeNext x cur v) (m.setNext (.node x) v, .testNext x cur) rest own := by
  refine ⟨h.setOwn hx, ⟨hcur, ?_⟩, ⟨fun _ => id, fun p hp => ?_, fun y hy hne => ?_,
    fun _ _ _ => Iff.rfl⟩, fun e he => absurd he (hown e), .same rfl⟩
  · show Cell m.log (Function.update m.next (.node x) v (.node x))
    rwa [Function.update_self]
  · refine ⟨hp.1, hp.2.imp_left fun hself => ?_⟩
    refine (Function.update_of_ne ?_ ..).trans hself
    rintro rfl
    exact hx hp.1
  · refine Function.update_of_ne ?_ ..
    rintro heq
    exact hne (by rw [Pc.pushing, Ptr.node.inj heq])

theorem Moved.attach (hx : .node x ∉ pushes m.log) (hp : Cell m.log p)
    (hlast : m.next p = .head) (hnext : m.next (.node x) = .head) (hown : ∀ e, own ≠ some (i, e)) :
    Moved m rest own i (.attach x p)
      ((m.setNext p (.node x)).record (.pushed (.node x)), .idle) (rest ++ [.node x]) own := by
  refine ⟨h.attach hp hlast hx hnext, trivial, ⟨fun q hq => ?_, fun q hq => ?_, fun y hy hne => ?_,
    fun _ _ _ => Iff.rfl⟩, fun e he => absurd he (hown e), .pushed rfl rfl⟩
  · rw [Shared.record, pushes_pushed]
    exact List.mem_append_left _ hq
  · refine ⟨?_, hq.2.imp (fun hself => ?_) fun hfirst => ⟨hfirst.1, ?_⟩⟩
    · rw [Shared.record, pushes_pushed]
      exact List.mem_append_left _ hq.1
    · refine (Function.update_of_ne ?_ ..).trans hself
      rintro rfl
      exact h.ne_head hq.1 (hself.symm.trans hlast)
    · rw [List.head?_append, hfirst.2]
      rfl
  · refine Function.update_of_ne ?_ ..
    rintro rfl
    rcases hp with hp | hp
    · cases hp
    · exact hy hp

theorem Moved.selfLink (hfront : Front m rest own ret) (hnext : m.next ret = old)
    (hne : old ≠ ret) : Moved m rest own i (.selfLink ret old)
      (m.setNext ret ret, .retestTail ret old) rest (some (i, ret, old)) := by
  obtain ⟨rfl, hlinked⟩ := h.selfLink hfront hnext hne i
  obtain ⟨-, hret⟩ := hfront.2.resolve_left (hnext ▸ hne)
  refine ⟨hlinked, rfl, ⟨fun _ => id, fun q hq => ⟨hq.1, .inl ?_⟩, fun y hy _ => ?_,
    fun j e hj => ?_⟩, fun e he => ?_, .same rfl⟩
  · show Function.update m.next ret ret q = q
    rw [Function.update_apply]
    split_ifs with heq
    · exact heq.symm
    · refine hq.2.resolve_right fun hfirst => heq ?_
      exact Option.some.inj (hfirst.2.symm.trans hret)
  · refine Function.update_of_ne ?_ ..
    rintro rfl
    exact hy hfront.1
  · simp [hj.symm]
  · cases he
    rfl

end Step

theorem Moved.swingHead (h : Linked m rest (some (i, ret, w))) :
    Moved m rest (some (i, ret, w)) i (.swingHead ret w)
      (m.step false (.swingHead ret w)) rest.tail none := by
  obtain ⟨hhead, hlinked⟩ := h.swingHead
  rw [Shared.step, if_pos hhead]
  refine ⟨hlinked, trivial, ⟨fun q hq => ?_, fun q hq => ⟨?_, .inl ?_⟩, fun y hy _ => ?_,
    fun j e hj => ?_⟩, by simp, .popped rfl⟩
  · rwa [Shared.record, pushes_popped]
  · rw [Shared.record, pushes_popped]
    exact hq.1
  · refine (Function.update_of_ne (h.ne_head hq.1) ..).trans ?_
    exact hq.2.resolve_right (by simp)
  · show Function.update m.next .head w (.node y) = _
    exact Function.update_of_ne (by simp) ..
  · simp [hj.symm]

/-- The cases of a step. -/
theorem moved_step (h : Linked m rest own) (htaken : ∀ e, own = some (i, e) → pc.taken = some e)
    (hknows : Knows m rest own i pc) (hnew : ∀ x, pc.pushing = some x → .node x ∉ pushes m.log)
    (b : Bool) : ∃ rest' own', Moved m rest own i pc (m.step b pc) rest' own' := by
  have hfree : pc.taken = none → ∀ e, own ≠ some (i, e) := by
    intro hnone e he
    rw [htaken e he] at hnone
    cases hnone
  cases pc with
  | idle => exact ⟨_, _, .quiet h htaken trivial rfl rfl⟩
  | failed => exact hknows.elim
  | readTail x => exact ⟨_, _, .quiet h htaken h.tail rfl rfl⟩
  | assertTail x cur => exact ⟨_, _, .quiet h htaken ⟨hknows, h.tail⟩ rfl rfl⟩
  | assertNext x cur t =>
    refine ⟨_, _, .deref h htaken hknows.2 ?_ ?_ ?_⟩
    all_goals rw [if_neg (h.cell_ne_null (h.next_cell hknows.2))]
    · exact hknows.1
    · rfl
    · rfl
  | readNext x cur => exact ⟨_, _, .deref h htaken hknows ⟨hknows, h.next_cell hknows⟩ rfl rfl⟩
  | writeNext x cur v => exact ⟨_, _, .write h (hnew x rfl) hknows.1 hknows.2 (hfree rfl)⟩
  | testNext x cur =>
    rw [Shared.step]
    split_ifs with hhead
    · exact ⟨_, _, .quiet h htaken hhead rfl rfl⟩
    · exact ⟨_, _, .quiet h htaken hknows rfl rfl⟩
  | testSelf x cur =>
    refine ⟨_, _, .deref h htaken hknows.1 ?_ ?_ ?_⟩
    all_goals split_ifs
    · trivial
    · exact hknows
    all_goals rfl
  | resetTail x => exact ⟨_, _, .setTail h htaken (.inl rfl) trivial rfl rfl⟩
  | loadNext x cur => exact ⟨_, _, .quiet h htaken hknows.2 rfl rfl⟩
  | casTail x cur v =>
    rw [Shared.step]
    split_ifs
    · exact ⟨_, _, .setTail h htaken hknows trivial rfl rfl⟩
    · exact ⟨_, _, .quiet h htaken trivial rfl rfl⟩
  | recheckTail x => exact ⟨_, _, .quiet h htaken h.tail rfl rfl⟩
  | recheckNext x t =>
    refine ⟨_, _, .deref h htaken hknows ?_ ?_ ?_⟩
    all_goals rw [if_neg (h.cell_ne_null (h.next_cell hknows))]
    · trivial
    · rfl
    · rfl
  | attachTail x => exact ⟨_, _, .quiet h htaken ⟨hknows, h.tail⟩ rfl rfl⟩
  | attach x t =>
    rw [Shared.step, if_neg (h.cell_ne_null hknows.2)]
    split_ifs with hlast
    · exact ⟨_, _, .attach h (hnew x rfl) hknows.2 hlast hknows.1 (hfree rfl)⟩
    · exact ⟨_, _, .quiet h htaken trivial rfl rfl⟩
  | readHead =>
    rw [Shared.step]
    split_ifs with hhead
    · exact ⟨_, _, .quiet h htaken trivial rfl rfl⟩
    · exact ⟨_, _, .quiet h htaken (h.front_head hhead) rfl rfl⟩
  | readOld ret => exact ⟨_, _, .deref h htaken (.inr hknows.1) hknows rfl rfl⟩
  | testTail ret old =>
    rw [Shared.step]
    split_ifs with htail hold
    · exact ⟨_, _, .quiet h htaken ⟨by simp, by simp, by simp⟩ rfl rfl⟩
    · exact ⟨_, _, .quiet h htaken ⟨hknows, hold⟩ rfl rfl⟩
    · exact ⟨_, _, .quiet h htaken trivial rfl rfl⟩
  | selfLink ret old =>
    rw [Shared.step]
    split_ifs with hnext
    · exact ⟨_, _, .selfLink h hknows.1 hnext hknows.2⟩
    · exact ⟨_, _, .quiet h htaken trivial rfl rfl⟩
  | retestTail ret old =>
    have hcell := h.cell_ne_null (h.held_cell hknows)
    rw [Shared.step, circled, if_neg hcell]
    split_ifs
    · exact ⟨_, _, .quiet h htaken ⟨fun e he => Option.some.inj he ▸ hknows, by simp, by simp⟩
        rfl rfl⟩
    · exact ⟨_, _, .quiet h htaken hknows rfl rfl⟩
  | swing back prev t u =>
    obtain ⟨hback, ht, hu⟩ := hknows
    by_cases hprev : prev = none ∧ (b = true ∨ u ≠ none)
    · have hstep : m.step b (.swing back prev t u) = (m, .swing back (some m.tail) t u) := by
        cases t <;> cases u <;> exact if_pos hprev
      rw [hstep]
      exact ⟨_, _, .quiet h htaken ⟨hback, ht, hu⟩ rfl rfl⟩
    cases t with
    | none =>
      rw [Shared.step, if_neg hprev]
      refine ⟨_, _, .quiet h htaken ⟨hback, fun p hp => ?_, hu⟩ rfl rfl⟩
      exact Option.some.inj hp ▸ h.tail
    | some t =>
      have hcell := ht t rfl
      cases u with
      | none =>
        rw [Shared.step, if_neg hprev]
        refine ⟨_, _, .deref h htaken hcell ⟨hback, ht, fun p hp => ?_⟩ rfl rfl⟩
        exact Option.some.inj hp ▸ h.next_cell hcell
      | some u =>
        -- `make_circle` returns what it has taken
        have hgo : ∀ {pc'}, Knows m rest own i pc' → pc'.pushing = none → pc'.taken = back →
            ∃ rest' own', Moved m rest own i (.swing back prev (some t) (some u))
              (if prev = some m.tail then m.setTail u else m, pc') rest' own' := by
          intro pc' hknows hpushing hkeep
          split_ifs
          · exact ⟨_, _, .setTail h htaken (hu u rfl) hknows hpushing hkeep⟩
          · exact ⟨_, _, .quiet h htaken hknows hpushing hkeep⟩
        cases back with
        | none =>
          rw [Shared.step, if_neg hprev]
          exact hgo trivial rfl rfl
        | some e =>
          obtain ⟨ret, old⟩ := e
          have hown := hback _ rfl
          rw [Shared.step, if_neg hprev, circled, if_neg (h.cell_ne_null (h.held_cell hown))]
          exact hgo hown rfl rfl
  | swingHead ret new =>
    obtain rfl : own = some (i, ret, new) := hknows
    exact ⟨_, _, .swingHead h⟩

/-- What holds in every state. -/
structure Inv (s : QueueHead τ ν) (rest : List (Ptr ν)) (own : Option (τ × Ptr ν × Ptr ν)) :
    Prop where
  linked : Linked s.mem rest own
  knows : ∀ i, Knows s.mem rest own i (s.pc i)
  taken : ∀ i e, own = some (i, e) → (s.pc i).taken = some e
  traced : Traced s.mem.log s.pc

variable {s t : QueueHead τ ν}

theorem inv_init : Inv (QueueHead.init : QueueHead τ ν) [] none := by
  refine ⟨⟨rfl, by simp [QueueHead.init, pushes], by simp [QueueHead.init, pushes],
    by simp [QueueHead.init, pops], rfl, by simp, .inl rfl⟩, fun _ => trivial, by simp, ?_⟩
  refine ⟨?_, ?_, ?_, ?_, ?_⟩ <;> simp [QueueHead.init, pushes, Pc.pushing]

variable [DecidableEq τ]

/-- One thread moves, the others know what they knew. -/
theorem Inv.moved {r : Shared ν × Pc ν} (h : Inv s rest own)
    (hm : Moved s.mem rest own i (s.pc i) r rest' own') :
    Inv ⟨r.1, Function.update s.pc i r.2⟩ rest' own' := by
  refine ⟨hm.linked, fun j => ?_, fun j e he => ?_, h.traced.logged hm.logged⟩
  · by_cases hj : j = i
    · subst hj
      show Knows r.1 rest' own' j (Function.update s.pc j r.2 j)
      rw [Function.update_self]
      exact hm.knows
    · show Knows r.1 rest' own' j (Function.update s.pc i r.2 j)
      rw [Function.update_of_ne hj]
      refine (h.knows j).later hm.later hj fun x hx => ⟨(h.traced.begun j x hx).2, fun hi => ?_⟩
      exact hj (h.traced.alone j i x hx hi)
  · by_cases hj : j = i
    · subst hj
      show (Function.update s.pc j r.2 j).taken = some e
      rw [Function.update_self]
      exact hm.taken e he
    · show (Function.update s.pc i r.2 j).taken = some e
      rw [Function.update_of_ne hj]
      exact h.taken j e ((hm.later.own j e hj).mpr he)

theorem inv_step {l : Label τ ν} (hstep : s.Step l t) (h : Inv s rest own) :
    ∃ rest' own', Inv t rest' own' := by
  cases l with
  | push i x =>
    simp only [QueueHead.Step, QueueHead.act, Option.ite_none_right_eq_some,
      Option.some.injEq] at hstep
    obtain ⟨⟨hi, hnew⟩, rfl⟩ := hstep
    exact ⟨rest, own, h.moved (.push h.linked (h.taken i) hi hnew)⟩
  | pop i =>
    simp only [QueueHead.Step, QueueHead.act, Option.ite_none_right_eq_some,
      Option.some.injEq] at hstep
    obtain ⟨hi, rfl⟩ := hstep
    have hmoved : Moved s.mem rest own i (s.pc i) (s.mem, .readHead) rest own :=
      .quiet h.linked (h.taken i) trivial (by rw [hi]; rfl) (by rw [hi]; rfl)
    exact ⟨rest, own, h.moved hmoved⟩
  | run i b =>
    obtain rfl := Option.some.inj hstep
    obtain ⟨rest', own', hmoved⟩ := moved_step h.linked (h.taken i) (h.knows i)
      (fun x hx => (h.traced.begun i x hx).2) b
    exact ⟨rest', own', h.moved hmoved⟩

theorem inv_run {ls : List (Label τ ν)} (h : Run QueueHead.Step QueueHead.init ls s) :
    ∃ rest own, Inv s rest own := by
  refine h.invariant (P := fun s => ∃ rest own, Inv s rest own) ?_ ⟨[], none, inv_init⟩
  rintro s l t hstep ⟨rest, own, hinv⟩
  exact inv_step hstep hinv

/-- No assertion fails and no node is returned twice. Between the calls, the ring has the pushed
nodes that have not been returned. Nodes come out in the order of their pushes if these were made
one after the other. -/
theorem queue_conserves {ls : List (Label τ ν)} (h : Run QueueHead.Step QueueHead.init ls s) :
    (∀ i, s.pc i ≠ .failed) ∧ (pops s.mem.log).Nodup ∧
      ((∀ i, s.pc i = .idle) → ∃ ring, Seg s.mem.next .head ring .head ∧ .head ∉ ring ∧
        (∀ p, p ∈ ring ↔ .push p ∈ s.mem.log ∧ .popped p ∉ s.mem.log) ∧
        (pops s.mem.log ++ ring).Nodup ∧
        ∀ p q, [.pushed p, .push q].Sublist s.mem.log →
          [p, q].Sublist (pops s.mem.log ++ ring)) := by
  obtain ⟨rest, own, hinv⟩ := inv_run h
  have hnodup := hinv.linked.nodup
  rw [hinv.linked.split] at hnodup
  refine ⟨fun i hi => ?_, (List.nodup_append.mp hnodup).1, fun hidle => ?_⟩
  · have hknows := hinv.knows i
    rw [hi] at hknows
    exact hknows
  obtain rfl : own = none := by
    cases hown : own with
    | none => rfl
    | some e =>
      have htaken := hinv.taken e.1 e.2 hown
      rw [hidle] at htaken
      cases htaken
  have hall : ∀ p, .push p ∈ s.mem.log ↔ p ∈ pushes s.mem.log := by
    refine fun p => ⟨fun hp => ?_, hinv.traced.called p⟩
    refine (hinv.traced.done p hp).resolve_right ?_
    rintro ⟨i, x, hi, -⟩
    rw [hidle] at hi
    cases hi
  refine ⟨rest, hinv.linked.seg, (List.nodup_cons.mp hinv.linked.ring_nodup).1, fun p => ?_, hnodup,
    fun p q hpq => ?_⟩
  · rw [hall, ← mem_pops, hinv.linked.split, List.mem_append]
    constructor
    · exact fun hp => ⟨.inr hp, fun hgone => (List.nodup_append.mp hnodup).2.2 p hgone p hp rfl⟩
    · exact fun hp => hp.1.resolve_left hp.2
  · rw [← hinv.linked.split]
    refine hinv.traced.order p q hpq ((hall q).mp (hpq.subset ?_))
    simp

section Example

/-- A step with its label. -/
def exec (s : QueueHead τ ν) (l : Label τ ν) : Option (Label τ ν × QueueHead τ ν) :=
  (s.act l).map fun t => (l, t)

theorem step_of_exec (s : QueueHead τ ν) (l a : Label τ ν) (t : QueueHead τ ν)
    (h : exec s l = some (a, t)) : s.Step a t := by
  obtain ⟨u, hu, heq⟩ := Option.map_eq_some_iff.mp h
  obtain ⟨rfl, rfl⟩ := Prod.mk.inj heq
  exact hu

/-- One thread pushes 1, another one pushes 2, and the first one pops. -/
def twoPushes : List (Label Bool ℕ) :=
  .push false 1 :: List.replicate 8 (.run false true) ++
    .push true 2 :: List.replicate 19 (.run true true) ++
    .pop false :: List.replicate 13 (.run false true)

theorem twoPushes_conserved :
    ∃ s ring, Run QueueHead.Step QueueHead.init twoPushes s ∧ Seg s.mem.next .head ring .head ∧
      .node 1 ∉ ring ∧ .node 2 ∈ ring := by
  obtain ⟨s, hrun, hend⟩ := exists_run_end step_of_exec QueueHead.init twoPushes
    (fun s => (s.mem.log, s.pc false, s.pc true))
    (show _ = some (twoPushes, [.push (.node 1), .pushed (.node 1), .push (.node 2),
      .pushed (.node 2), .popped (.node 1)], .idle, .idle) by decide +kernel)
  obtain ⟨hlog, hpc⟩ := Prod.mk.inj hend
  obtain ⟨hfirst, hsecond⟩ := Prod.mk.inj hpc
  obtain ⟨-, -, hquiet⟩ := queue_conserves hrun
  obtain ⟨ring, hseg, -, hmem, -⟩ := hquiet fun i => by cases i <;> assumption
  rw [hlog] at hmem
  exact ⟨s, ring, hrun, hseg, fun h => ((hmem _).mp h).2 (by simp), (hmem _).mpr (by simp)⟩

end Example

end YwStorage.Queue
