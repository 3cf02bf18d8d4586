import YwStorage.Queue.History
import YwStorage.Lib.Chain

/-!
What the links of the queue look like while calls are running. A `pop` that has linked its node to
itself is the only one that has; with that link restored, the nodes that are still to come form a
ring around the head.
-/
namespace YwStorage.Queue
open Chain

variable {τ ν : Type*}

/-- The node that a thread has linked to itself, and the one behind it. -/
def Pc.taken : Pc ν → Option (Ptr ν × Ptr ν)
  | .retestTail ret old | .swingHead ret old => some (ret, old)
  | .swing back _ _ _ => back
  | _ => none

/-- The head, or a node that has been pushed. -/
def Cell (log : List (Event ν)) (p : Ptr ν) : Prop := p = .head ∨ p ∈ pushes log

variable [DecidableEq ν]

/-- The links before the node was linked to itself. -/
def restored (next : Ptr ν → Ptr ν) : Option (τ × Ptr ν × Ptr ν) → Ptr ν → Ptr ν
  | none => next
  | some (_, v, w) => Function.update next v w

/-- `rest` are the nodes that have been pushed and not been returned. `own` is the thread that has
linked the first of them to itself. -/
structure Linked (m : Shared ν) (rest : List (Ptr ν)) (own : Option (τ × Ptr ν × Ptr ν)) :
    Prop where
  split : pushes m.log = pops m.log ++ rest
  nodup : (pushes m.log).Nodup
  nodes : ∀ p ∈ pushes m.log, ∃ x, p = .node x
  gone : ∀ p ∈ pops m.log, m.next p = p
  seg : Seg (restored m.next own) .head rest .head
  held : ∀ i v w, own = some (i, v, w) → m.next v = v ∧ rest.head? = some v
  tail : Cell m.log m.tail

/-- A node that was the first one when it was read. -/
def Front (m : Shared ν) (rest : List (Ptr ν)) (own : Option (τ × Ptr ν × Ptr ν)) (p : Ptr ν) :
    Prop :=
  p ∈ pushes m.log ∧ (m.next p = p ∨ own = none ∧ rest.head? = some p)

variable {m m' : Shared ν} {rest : List (Ptr ν)} {own : Option (τ × Ptr ν × Ptr ν)} {i : τ}
  {p v w ret old : Ptr ν} {x : ν}

namespace Linked

theorem mem_rest (h : Linked m rest own) (hp : p ∈ rest) : p ∈ pushes m.log := by
  rw [h.split]
  exact List.mem_append_right _ hp

theorem ne_head (h : Linked m rest own) (hp : p ∈ pushes m.log) : p ≠ .head := by
  obtain ⟨x, rfl⟩ := h.nodes p hp
  simp

theorem cell_ne_null (h : Linked m rest own) (hp : Cell m.log p) : p ≠ .null := by
  rcases hp with rfl | hp
  · simp
  · obtain ⟨x, rfl⟩ := h.nodes p hp
    simp

theorem ring_nodup (h : Linked m rest own) : (.head :: rest).Nodup := by
  have hnodup := h.nodup
  rw [h.split] at hnodup
  refine List.nodup_cons.mpr ⟨fun hhead => ?_, (List.nodup_append.mp hnodup).2.1⟩
  exact h.ne_head (h.mem_rest hhead) rfl

theorem cell_of_mem (h : Linked m rest own) (hp : p ∈ rest ++ [.head]) : Cell m.log p := by
  rcases List.mem_append.mp hp with hp | hp
  · exact .inr (h.mem_rest hp)
  · exact .inl (List.mem_singleton.mp hp)

/-- A cell that is not linked to itself is on the ring, with the link that it has. -/
theorem on_ring (h : Linked m rest own) (hp : Cell m.log p) (hne : m.next p ≠ p ∨ p = .head) :
    p ∈ .head :: rest ∧ restored m.next own p = m.next p := by
  constructor
  · rcases hp with rfl | hmem
    · exact List.mem_cons_self
    · rw [h.split] at hmem
      rcases List.mem_append.mp hmem with hgone | hrest
      · have hself := h.gone p hgone
        have hhead := h.ne_head (h.split ▸ hmem)
        exact absurd hself (hne.resolve_right hhead)
      · exact List.mem_cons_of_mem _ hrest
  · cases hown : own with
    | none => rfl
    | some e =>
      obtain ⟨i, v, w⟩ := e
      obtain ⟨hself, hfirst⟩ := h.held i v w hown
      refine Function.update_of_ne ?_ ..
      rintro rfl
      exact h.ne_head (h.mem_rest (List.mem_of_mem_head? hfirst)) (hne.resolve_left (by simpa))

/-- The links of cells lead to cells. -/
theorem next_cell (h : Linked m rest own) (hp : Cell m.log p) : Cell m.log (m.next p) := by
  by_cases hself : m.next p = p
  · rwa [hself]
  · obtain ⟨hmem, hlink⟩ := h.on_ring hp (.inl hself)
    rw [← hlink]
    exact h.cell_of_mem (h.seg.next_mem hmem)

theorem head_next (h : Linked m rest own) : m.next .head = rest.headD .head := by
  obtain ⟨-, hlink⟩ := h.on_ring (.inl rfl) (.inr rfl)
  rw [← hlink]
  exact h.seg.next_eq

/-- The first node is one that may be taken, or one that is being taken. -/
theorem front_head (h : Linked m rest own) (hne : m.next .head ≠ .head) :
    Front m rest own (m.next .head) := by
  have hnext := h.head_next
  cases hrest : rest with
  | nil =>
    rw [hrest] at hnext
    exact absurd hnext hne
  | cons y l =>
    rw [hrest, List.headD_cons] at hnext
    rw [hnext]
    refine ⟨h.mem_rest (hrest ▸ List.mem_cons_self), ?_⟩
    cases hown : own with
    | none => exact .inr ⟨rfl, rfl⟩
    | some e =>
      obtain ⟨i, v, w⟩ := e
      obtain ⟨hself, hfirst⟩ := h.held i v w hown
      rw [hrest] at hfirst
      obtain rfl := Option.some.inj hfirst
      exact .inl hself

theorem held_cell (h : Linked m rest own) (hown : own = some (i, v, w)) : Cell m.log w := by
  obtain ⟨-, hfirst⟩ := h.held i v w hown
  have hmem := h.seg.next_mem (List.mem_cons_of_mem _ (List.mem_of_mem_head? hfirst))
  rw [hown, restored, Function.update_self] at hmem
  exact h.cell_of_mem hmem

section Writes

/-- The call of `push`. -/
theorem call (h : Linked m rest own) : Linked (m.record (.push p)) rest own := by
  refine ⟨?_, ?_, ?_, ?_, h.seg, h.held, ?_⟩
  · simpa [Shared.record] using h.split
  · simpa [Shared.record] using h.nodup
  · simpa [Shared.record] using h.nodes
  · simpa [Shared.record] using h.gone
  · simpa [Shared.record, Cell] using h.tail

theorem setTail (h : Linked m rest own) (hv : Cell m.log v) : Linked (m.setTail v) rest own :=
  { h with tail := hv }

/-- `node->next` of a node that is not in the queue. -/
theorem setOwn (h : Linked m rest own) (hx : .node x ∉ pushes m.log) :
    Linked (m.setNext (.node x) v) rest own := by
  have hne : ∀ p ∈ pushes m.log, (m.setNext (.node x) v).next p = m.next p := by
    intro p hp
    refine Function.update_of_ne ?_ ..
    rintro rfl
    exact hx hp
  refine ⟨h.split, h.nodup, h.nodes, fun p hp => ?_, ?_, fun i v' w hown => ?_, h.tail⟩
  · rw [hne p (by rw [h.split]; exact List.mem_append_left _ hp)]
    exact h.gone p hp
  · refine h.seg.congr fun c hc => ?_
    have hc' : c ≠ .node x := by
      rintro rfl
      rcases List.mem_cons.mp hc with hc | hc
      · cases hc
      · exact hx (h.mem_rest hc)
    cases own with
    | none => exact Function.update_of_ne hc' ..
    | some e =>
      obtain ⟨i, v', w⟩ := e
      simp only [restored, Function.update_apply, Shared.setNext, hc', if_false]
  · obtain ⟨hself, hfirst⟩ := h.held i v' w hown
    exact ⟨(hne v' (h.mem_rest (List.mem_of_mem_head? hfirst))).trans hself, hfirst⟩

/-- `cas(&tail->next, head, node)`. -/
theorem attach (h : Linked m rest own) (hp : Cell m.log p) (hlast : m.next p = .head)
    (hx : .node x ∉ pushes m.log) (hnext : m.next (.node x) = .head) :
    Linked ((m.setNext p (.node x)).record (.pushed (.node x))) (rest ++ [.node x]) own := by
  have hself : m.next p ≠ p ∨ p = .head := by
    rw [hlast]
    exact (eq_or_ne p .head).symm.imp_left Ne.symm
  obtain ⟨hmem, hlink⟩ := h.on_ring hp hself
  have hsame : ∀ q ∈ pushes m.log, m.next q = q → Function.update m.next p (.node x) q = q := by
    intro q hq hqself
    refine (Function.update_of_ne ?_ ..).trans hqself
    rintro rfl
    exact h.ne_head hq (hqself.symm.trans hlast)
  have hring : .node x ∉ .head :: rest := by
    rw [List.mem_cons, not_or]
    exact ⟨by simp, fun hrest => hx (h.mem_rest hrest)⟩
  have hown : ∀ i v w, own = some (i, v, w) → v ≠ p ∧ v ≠ .node x := by
    intro i v w hown
    obtain ⟨hvself, hfirst⟩ := h.held i v w hown
    have hv := h.mem_rest (List.mem_of_mem_head? hfirst)
    refine ⟨?_, fun heq => hx (heq ▸ hv)⟩
    rintro rfl
    exact h.ne_head hv (hvself.symm.trans hlast)
  have hcomm : restored (Function.update m.next p (.node x)) own =
      Function.update (restored m.next own) p (.node x) := by
    cases own with
    | none => rfl
    | some e => exact Function.update_comm (hown _ _ _ rfl).1.symm ..
  have hnext' : restored m.next own (.node x) = .head := by
    cases own with
    | none => exact hnext
    | some e => exact (Function.update_of_ne (hown _ _ _ rfl).2.symm ..).trans hnext
  refine ⟨?_, ?_, ?_, fun q hq => ?_, ?_, fun i v w heq => ?_, ?_⟩
  · rw [Shared.record, pushes_pushed, pops_pushed, ← List.append_assoc]
    exact congrArg (· ++ _) h.split
  · rw [Shared.record, pushes_pushed]
    exact List.nodup_append.mpr ⟨h.nodup, by simp, by
      rintro q hq _ hmem rfl
      exact hx (List.mem_singleton.mp hmem ▸ hq)⟩
  · rw [Shared.record, pushes_pushed]
    intro q hq
    rcases List.mem_append.mp hq with hq | hq
    · exact h.nodes q hq
    · exact ⟨x, List.mem_singleton.mp hq⟩
  · rw [Shared.record, pops_pushed] at hq
    refine hsame q ?_ (h.gone q hq)
    rw [h.split]
    exact List.mem_append_left _ hq
  · show Seg (restored (Function.update m.next p (.node x)) own) .head (rest ++ [.node x]) .head
    rw [hcomm]
    have hhead : .head ∉ rest := (List.nodup_cons.mp h.ring_nodup).1
    exact h.seg.snoc h.ring_nodup hhead hmem (hlink.trans hlast) hring hnext'
  · obtain ⟨hvself, hfirst⟩ := h.held i v w heq
    refine ⟨hsame v (h.mem_rest (List.mem_of_mem_head? hfirst)) hvself, ?_⟩
    rw [List.head?_append, hfirst]
    rfl
  · rw [Shared.record, Cell, pushes_pushed]
    exact h.tail.imp_right (List.mem_append_left _)

/-- `cas(&ptr->next, old_next, ptr)`. -/
theorem selfLink (h : Linked m rest own) (hfront : Front m rest own ret) (hnext : m.next ret = old)
    (hne : old ≠ ret) (i : τ) :
    own = none ∧ Linked (m.setNext ret ret) rest (some (i, ret, old)) := by
  obtain ⟨rfl, hfirst⟩ := hfront.2.resolve_left (hnext ▸ hne)
  refine ⟨rfl, h.split, h.nodup, h.nodes, fun q hq => ?_, ?_, fun j v w heq => ?_, h.tail⟩
  · show Function.update m.next ret ret q = q
    rw [Function.update_apply]
    split_ifs with heq
    · exact heq.symm
    · exact h.gone q hq
  · have hback : restored (m.setNext ret ret).next (some (i, ret, old)) = m.next := by
      rw [restored, Shared.setNext, Function.update_idem, ← hnext, Function.update_eq_self]
    rw [hback]
    exact h.seg
  · cases heq
    exact ⟨Function.update_self .., hfirst⟩

/-- `cas(&head->next, ret, new_next)`. -/
theorem swingHead (h : Linked m rest (some (i, ret, w))) :
    m.next .head = ret ∧
      Linked ((m.setNext .head w).record (.popped ret)) rest.tail
        (none : Option (τ × Ptr ν × Ptr ν)) := by
  obtain ⟨hself, hfirst⟩ := h.held i ret w rfl
  cases rest with
  | nil => cases hfirst
  | cons y l =>
    obtain rfl := Option.some.inj hfirst
    obtain ⟨hhead, hnodup⟩ := List.nodup_cons.mp h.ring_nodup
    have hsame : ∀ q ∈ pushes m.log, Function.update m.next .head w q = m.next q :=
      fun q hq => Function.update_of_ne (h.ne_head hq) ..
    refine ⟨h.head_next, ?_, ?_, ?_, fun q hq => ?_, ?_, by simp, ?_⟩
    · rw [Shared.record, pushes_popped, pops_popped, List.append_assoc]
      exact h.split
    · rw [Shared.record, pushes_popped]
      exact h.nodup
    · rw [Shared.record, pushes_popped]
      exact h.nodes
    · rw [Shared.record, pops_popped] at hq
      have hgone : m.next q = q := by
        rcases List.mem_append.mp hq with hq | hq
        · exact h.gone q hq
        · rwa [List.mem_singleton.mp hq]
      refine (hsame q ?_).trans hgone
      rw [h.split]
      rcases List.mem_append.mp hq with hq | hq
      · exact List.mem_append_left _ hq
      · exact List.mem_append_right _ (List.mem_singleton.mp hq ▸ List.mem_cons_self)
    · have hseg := h.seg.tail h.ring_nodup
      rw [restored, Function.update_self] at hseg
      refine hseg.congr fun c hc => ?_
      have hc' : c ≠ y := by
        rintro rfl
        rcases List.mem_cons.mp hc with hc | hc
        · exact hhead (hc ▸ List.mem_cons_self)
        · exact (List.nodup_cons.mp hnodup).1 hc
      show Function.update m.next .head w c = _
      simp only [Function.update_apply, hc', if_false]
    · rw [Shared.record, Cell, pushes_popped]
      exact h.tail

end Writes
end Linked

end YwStorage.Queue
