import YwStorage.Queue.Basic
import YwStorage.Lib.Chain
import YwStorage.Lib.Fuel
import YwStorage.Lib.Run

/-!
The queue without synchronisation, `ywQueueHead<DATA, false>`: `cas` stores without looking at the
expected value. The queue is intrusive, so the links may lie in a memory that is used for other
things as well.
-/
namespace YwStorage.Queue.Unsync
open Chain

/-- The `next` fields in a memory. -/
structure Links (σ ν : Type*) [DecidableEq ν] where
  next : σ → Ptr ν → Ptr ν
  setNext : σ → Ptr ν → Ptr ν → σ
  next_setNext : ∀ m p q, p ≠ .null → next (setNext m p q) = Function.update (next m) p q

/-- The memory and the tail. The head is an instance inside of `ywQueueHead` and never moves. -/
structure QueueHead (σ ν : Type*) where
  mem : σ
  tail : Ptr ν

variable {σ ν : Type*} [DecidableEq ν] (L : Links σ ν)

/-- `head->next = head; tail = head`. -/
def init (mem : σ) : QueueHead σ ν := ⟨L.setNext mem .head .head, .head⟩

namespace QueueHead

/-- The next field of `p`. -/
def next (q : QueueHead σ ν) (p : Ptr ν) : Ptr ν := L.next q.mem p

def setNext (q : QueueHead σ ν) (p v : Ptr ν) : QueueHead σ ν :=
  { q with mem := L.setNext q.mem p v }

/-- What `make_circle` returns, and the queue after it. -/
def makeCircle (q : QueueHead σ ν) (ptr : Ptr ν) : Ptr ν × QueueHead σ ν :=
  let oldNext := q.next L ptr
  if ptr = q.tail then (.null, { q with tail := q.next L q.tail })
  else if oldNext ≠ ptr then
    let q := q.setNext L ptr ptr
    (oldNext, if ptr = q.tail then { q with tail := q.next L q.tail } else q)
  else (.null, q)

/-- `assert(tail->next)`. -/
def tailLinked (q : QueueHead σ ν) : Bool := q.tail ≠ .null && q.next L q.tail ≠ .null

/-- The loop of `push` and the store behind it. `none` stands for a failed assertion. -/
def push (x : ν) : ℕ → QueueHead σ ν → Option (QueueHead σ ν)
  | 0, _ => none
  | fuel + 1, q =>
    let curTail := q.tail
    if q.tailLinked L then
      let q := q.setNext L (.node x) (q.next L curTail)
      if q.next L (.node x) = .head then some (q.setNext L q.tail (.node x))
      else
        let q :=
          if q.next L curTail = curTail then { q with tail := .head }
          else { q with tail := q.next L (.node x) }
        if q.tailLinked L then push x fuel q else none
    else none

/-- What `pop` returns, and the queue after it. -/
def pop : ℕ → QueueHead σ ν → Option (Ptr ν × QueueHead σ ν)
  | 0, _ => none
  | fuel + 1, q =>
    let ret := q.next L .head
    if ret = .null then none
    else if ret = .head then some (.null, q)
    else
      let r := q.makeCircle L ret
      if r.1 = .null then pop fuel r.2 else some (ret, r.2.setNext L .head r.1)

/-- The loop of `calc_count`. -/
def countLoop (q : QueueHead σ ν) : ℕ → Ptr ν → ℕ → Option ℕ
  | 0, _, _ => none
  | fuel + 1, iter, k =>
    if iter = .head then some k
    else if iter = .null then none
    else countLoop q fuel (q.next L iter) (k + 1)

def calcCount (fuel : ℕ) (q : QueueHead σ ν) : Option ℕ := q.countLoop L fuel (q.next L .head) 0

end QueueHead

open QueueHead

/-- The ring of the queue holds `l`, and the tail is on it. -/
structure Ring (q : QueueHead σ ν) (l : List ν) : Prop where
  seg : Seg (q.next L) .head (l.map .node) .head
  nodup : l.Nodup
  tail : q.tail ∈ Ptr.head :: l.map .node

/-- A memory that has only been written at the links of `S`. -/
def Wrote (S : Ptr ν → Prop) : σ → σ → Prop :=
  Relation.ReflTransGen fun m m' => ∃ p q, S p ∧ m' = L.setNext m p q

variable {L} {q : QueueHead σ ν} {l : List ν} {x : ν} {p v : Ptr ν}

theorem next_setNext (hp : p ≠ .null) : (q.setNext L p v).next L = Function.update (q.next L) p v :=
  L.next_setNext q.mem p v hp

omit [DecidableEq ν] in
theorem ne_null_of_mem (hp : p ∈ Ptr.head :: l.map .node) : p ≠ .null := by
  rintro rfl
  simp at hp

omit [DecidableEq ν] in
theorem node_not_mem (hx : x ∉ l) : Ptr.node x ∉ Ptr.head :: l.map .node := by
  simpa using hx

omit [DecidableEq ν] in
theorem nodup_ring (h : l.Nodup) : (Ptr.head :: l.map .node).Nodup := by
  refine List.nodup_cons.mpr ⟨by simp, List.Nodup.map (fun x y hxy => ?_) h⟩
  exact Ptr.node.inj hxy

omit [DecidableEq ν] in
/-- What comes behind a place of the ring is a node. -/
theorem exists_node_of_split {us vs : List (Ptr ν)} {y : Ptr ν}
    (h : Ptr.head :: l.map .node = us ++ p :: y :: vs) : ∃ z, y = .node z := by
  have hy : y ∈ l.map .node := by
    cases us with
    | nil => simp_all
    | cons u us => simp_all
  obtain ⟨z, -, rfl⟩ := List.mem_map.mp hy
  exact ⟨z, rfl⟩

/-- A tail that has left for another ring is led around it for ever. -/
theorem push_lost {T : Ptr ν → Prop} (hnext : ∀ p, T p → T (q.next L p))
    (hself : ∀ p, T p → q.next L p ≠ p) (hhead : ¬ T .head) (hx : ¬ T (.node x))
    (htail : T q.tail) (fuel : ℕ) : q.push L x fuel = none := by
  induction fuel generalizing q with
  | zero => rfl
  | succ fuel ih =>
    have hne : q.tail ≠ .node x := fun heq => hx (heq ▸ htail)
    have hwrite : ∀ p, T p → (q.setNext L (.node x) (q.next L q.tail)).next L p = q.next L p := by
      intro p hp
      have hpx : p ≠ .node x := fun heq => hx (heq ▸ hp)
      rw [next_setNext (by simp), Function.update_of_ne hpx]
    have hlink : (q.setNext L (.node x) (q.next L q.tail)).next L (.node x) = q.next L q.tail := by
      rw [next_setNext (by simp)]
      exact Function.update_self ..
    have hloop : QueueHead.push L x fuel
        { q.setNext L (.node x) (q.next L q.tail) with tail := q.next L q.tail } = none := by
      refine ih (fun p hp => ?_) (fun p hp => ?_) (hnext _ htail)
      · exact (hwrite p hp).symm ▸ hnext p hp
      · exact (hwrite p hp).symm ▸ hself p hp
    have hnot : q.next L q.tail ≠ .head := fun heq => hhead (heq ▸ hnext _ htail)
    rw [QueueHead.push]
    simp only [hlink, hwrite _ htail, if_neg hnot, if_neg (hself _ htail), hloop, ite_self]

theorem wrote_single {S : Ptr ν → Prop} (m : σ) (hp : S p) : Wrote L S m (L.setNext m p v) :=
  .single ⟨p, v, hp, rfl⟩

theorem init_ring (mem : σ) : Ring L (init L mem) [] where
  seg := by
    show (init L mem).next L .head = .head
    have hnext := congrFun (L.next_setNext mem .head .head (by simp)) .head
    exact hnext.trans (Function.update_self ..)
  nodup := List.nodup_nil
  tail := List.mem_cons_self

namespace Ring

theorem next_mem (h : Ring L q l) (hp : p ∈ Ptr.head :: l.map .node) :
    q.next L p ∈ Ptr.head :: l.map .node := by
  have hmem := h.seg.next_mem hp
  rw [List.mem_append, List.mem_singleton] at hmem
  rcases hmem with hmem | heq
  · exact List.mem_cons_of_mem _ hmem
  · rw [heq]
    exact List.mem_cons_self

theorem tailLinked (h : Ring L q l) : q.tailLinked L = true := by
  have hnext := ne_null_of_mem (h.next_mem h.tail)
  simp [QueueHead.tailLinked, ne_null_of_mem h.tail, hnext]

/-- A link that is not on the ring is written. -/
theorem setNext (h : Ring L q l) (hx : x ∉ l) : Ring L (q.setNext L (.node x) v) l where
  seg := by
    rw [next_setNext (by simp)]
    exact h.seg.write (node_not_mem hx)
  nodup := h.nodup
  tail := h.tail

theorem attach (h : Ring L q l) (hx : x ∉ l) (hlast : q.next L q.tail = .head)
    (hnext : q.next L (.node x) = .head) : Ring L (q.setNext L q.tail (.node x)) (l ++ [x]) where
  seg := by
    rw [next_setNext (ne_null_of_mem h.tail), List.map_append]
    exact h.seg.snoc (nodup_ring h.nodup) (by simp) h.tail hlast (node_not_mem hx) hnext
  nodup := by
    refine List.nodup_append.mpr ⟨h.nodup, List.nodup_singleton x, fun y hy z hz hyz => hx ?_⟩
    rwa [← List.mem_singleton.mp hz, ← hyz]
  tail := by
    have htail := h.tail
    simp only [List.mem_cons, List.map_append, List.mem_append] at htail ⊢
    exact htail.imp_right Or.inl

/-- The queue in a turn of `push`, when the node has been linked to what follows the tail. -/
theorem next_linked (h : Ring L q l) (hx : x ∉ l) :
    (q.setNext L (.node x) (q.next L q.tail)).next L (.node x) = q.next L q.tail ∧
      (q.setNext L (.node x) (q.next L q.tail)).next L q.tail = q.next L q.tail := by
  have hne : q.tail ≠ .node x := by
    intro heq
    exact node_not_mem hx (heq ▸ h.tail)
  rw [next_setNext (by simp)]
  exact ⟨Function.update_self .., Function.update_of_ne hne ..⟩

theorem push_last (h : Ring L q l) (hx : x ∉ l) (hlast : q.next L q.tail = .head) (fuel : ℕ) :
    q.push L x (fuel + 1) =
      some ((q.setNext L (.node x) (q.next L q.tail)).setNext L q.tail (.node x)) := by
  rw [QueueHead.push, if_pos h.tailLinked, if_pos ((h.next_linked hx).1.trans hlast)]
  rfl

/-- The tail moves by one node, and the assertions hold on both sides of it. -/
theorem push_walk (h : Ring L q l) (hx : x ∉ l) (hnext : q.next L q.tail ≠ .head)
    (hself : q.next L q.tail ≠ q.tail) (fuel : ℕ) :
    q.push L x (fuel + 1) = QueueHead.push L x fuel
      { q.setNext L (.node x) (q.next L q.tail) with tail := q.next L q.tail } := by
  obtain ⟨hx', htail⟩ := h.next_linked hx
  have hring : Ring L { q.setNext L (.node x) (q.next L q.tail) with tail := q.next L q.tail } l :=
    { h.setNext hx with tail := h.next_mem h.tail }
  rw [QueueHead.push, if_pos h.tailLinked]
  simp only [hx', htail, if_neg hnext, if_neg hself, if_pos hring.tailLinked]

/-- The tail walks to the end of the ring, the node is hung on there, and the tail stays. -/
theorem push_split {us vs : List (Ptr ν)} (h : Ring L q l) (hx : x ∉ l)
    (hsplit : Ptr.head :: l.map .node = us ++ q.tail :: vs) :
    ∃ q', Ring L q' (l ++ [x]) ∧
      Wrote L (fun p => p = .node x ∨ p ∈ Ptr.head :: l.map .node) q.mem q'.mem ∧
      q'.tail = vs.getLastD q.tail ∧
      ∀ fuel, vs.length < fuel → q.push L x fuel = some q' := by
  induction vs generalizing q us with
  | nil =>
    have hlast : q.next L q.tail = .head := h.seg.next_split hsplit
    obtain ⟨hx', htail⟩ := h.next_linked hx
    have hring := (h.setNext hx).attach hx (htail.trans hlast) (hx'.trans hlast)
    refine ⟨_, hring, ?_, rfl, ?_⟩
    · exact (wrote_single _ (Or.inl rfl)).trans (wrote_single _ (Or.inr h.tail))
    · rintro (_ | fuel) hfuel
      · exact absurd hfuel (Nat.not_lt_zero _)
      · exact h.push_last hx hlast fuel
  | cons y vs ih =>
    have hy : q.next L q.tail = y := h.seg.next_split hsplit
    have hnodup : (us ++ q.tail :: y :: vs).Nodup := hsplit ▸ nodup_ring h.nodup
    have hself : q.next L q.tail ≠ q.tail := by
      rw [hy]
      rintro rfl
      simp [List.nodup_append] at hnodup
    have hhead : q.next L q.tail ≠ .head := by
      obtain ⟨z, rfl⟩ := exists_node_of_split hsplit
      simp [hy]
    have hring : Ring L
        { q.setNext L (.node x) (q.next L q.tail) with tail := q.next L q.tail } l :=
      { h.setNext hx with tail := h.next_mem h.tail }
    have hsplit' : Ptr.head :: l.map .node = (us ++ [q.tail]) ++ q.next L q.tail :: vs := by
      simpa [hy] using hsplit
    obtain ⟨q', hq', hwrote, htail, hpush⟩ := ih hring hsplit'
    refine ⟨q', hq', (wrote_single _ (Or.inl rfl)).trans hwrote, ?_, ?_⟩
    · rw [htail, List.getLastD_cons, hy]
    rintro (_ | fuel) hfuel
    · exact absurd hfuel (Nat.not_lt_zero _)
    · rw [h.push_walk hx hhead hself]
      exact hpush fuel (Nat.lt_of_succ_lt_succ hfuel)

theorem push_tail (h : Ring L q l) (hx : x ∉ l) :
    ∃ q', Ring L q' (l ++ [x]) ∧
      Wrote L (fun p => p = .node x ∨ p ∈ Ptr.head :: l.map .node) q.mem q'.mem ∧
      q'.tail = (l.map .node).getLastD .head ∧ Fuel.Returns (fun fuel => q.push L x fuel) q' := by
  obtain ⟨us, vs, hsplit⟩ := List.append_of_mem h.tail
  obtain ⟨q', hq', hwrote, htail, hpush⟩ := h.push_split hx hsplit
  have hlast : (l.map .node).getLastD .head = vs.getLastD q.tail := by
    have hends := congrArg List.getLast? hsplit
    simpa [List.getLast?_cons, List.getLast?_append, List.getLastD_eq_getLast?] using hends
  exact ⟨q', hq', hwrote, htail.trans hlast.symm, .of_lt hpush⟩

theorem push (h : Ring L q l) (hx : x ∉ l) :
    ∃ q', Ring L q' (l ++ [x]) ∧
      Wrote L (fun p => p = .node x ∨ p ∈ Ptr.head :: l.map .node) q.mem q'.mem ∧
      Fuel.Returns (fun fuel => q.push L x fuel) q' := by
  obtain ⟨q', hq', hwrote, -, hret⟩ := h.push_tail hx
  exact ⟨q', hq', hwrote, hret⟩

theorem pop_nil (h : Ring L q []) : Fuel.Returns (fun fuel => q.pop L fuel) (.null, q) := by
  refine .of_lt (n := 0) ?_
  rintro (_ | fuel) hfuel
  · exact absurd hfuel (Nat.not_lt_zero _)
  · have hhead : q.next L .head = .head := h.seg
    simp [QueueHead.pop, hhead]

/-- The first node is linked to itself and the head is swung over it. -/
theorem unlink (h : Ring L q (x :: l)) (htail : q.tail ≠ .node x) :
    Ring L ((q.setNext L (.node x) (.node x)).setNext L .head (q.next L (.node x))) l where
  seg := by
    rw [next_setNext (by simp), next_setNext (by simp), Function.update_comm (by simp)]
    exact (h.seg.tail (nodup_ring h.nodup)).write (node_not_mem (List.nodup_cons.mp h.nodup).1)
  nodup := (List.nodup_cons.mp h.nodup).2
  tail := by
    have hmem := h.tail
    simp only [List.map_cons, List.mem_cons] at hmem ⊢
    exact hmem.imp_right fun hmem => hmem.resolve_left htail

theorem next_first_ne (h : Ring L q (x :: l)) : q.next L (.node x) ≠ .node x := by
  have hx := node_not_mem (List.nodup_cons.mp h.nodup).1
  have hnext : q.next L (.node x) = (l.map .node).headD .head := h.seg.2.next_eq
  rw [hnext]
  cases l with
  | nil => simp
  | cons y l => exact fun heq => hx (heq ▸ by simp)

theorem pop_first (h : Ring L q (x :: l)) (htail : q.tail ≠ .node x) (fuel : ℕ) :
    q.pop L (fuel + 1) = some (.node x,
      (q.setNext L (.node x) (.node x)).setNext L .head (q.next L (.node x))) := by
  have hx : q.next L .head = .node x := h.seg.1
  have hold : q.next L (.node x) ≠ .null := ne_null_of_mem (h.next_mem (by simp))
  have hcircle : q.makeCircle L (.node x) =
      (q.next L (.node x), q.setNext L (.node x) (.node x)) := by
    have htail' : Ptr.node x ≠ (q.setNext L (.node x) (.node x)).tail := htail.symm
    simp only [makeCircle, if_neg htail.symm, if_pos h.next_first_ne, if_neg htail']
  simp [QueueHead.pop, hx, hcircle, hold]

/-- When the tail is on the first node, one turn only moves it on. -/
theorem pop_swing (h : Ring L q (x :: l)) (htail : q.tail = .node x) (fuel : ℕ) :
    q.pop L (fuel + 1) = QueueHead.pop L fuel { q with tail := q.next L q.tail } := by
  have hx : q.next L .head = .node x := h.seg.1
  simp [QueueHead.pop, hx, makeCircle, htail]

theorem pop_cons (h : Ring L q (x :: l)) :
    ∃ q', Ring L q' l ∧ Wrote L (fun p => p = .node x ∨ p = .head) q.mem q'.mem ∧
      Fuel.Returns (fun fuel => q.pop L fuel) (.node x, q') := by
  have hwrote : ∀ v, Wrote L (fun p => p = .node x ∨ p = .head) q.mem
      ((q.setNext L (.node x) (.node x)).setNext L .head v).mem := fun v =>
    (wrote_single _ (Or.inl rfl)).trans (wrote_single _ (Or.inr rfl))
  by_cases htail : q.tail = .node x
  · have hring : Ring L { q with tail := q.next L q.tail } (x :: l) :=
      { h with tail := h.next_mem h.tail }
    have hoff : q.next L q.tail ≠ .node x := htail ▸ h.next_first_ne
    refine ⟨_, hring.unlink hoff, hwrote _, 2, ?_⟩
    rintro (_ | _ | fuel) hfuel
    · omega
    · omega
    · exact (h.pop_swing htail (fuel + 1)).trans (hring.pop_first hoff fuel)
  · refine ⟨_, h.unlink htail, hwrote _, 1, ?_⟩
    rintro (_ | fuel) hfuel
    · omega
    · exact h.pop_first htail fuel

theorem countLoop {us vs : List (Ptr ν)} {k : ℕ} (h : Ring L q l)
    (hsplit : Ptr.head :: l.map .node = us ++ p :: vs) (fuel : ℕ) (hfuel : vs.length < fuel) :
    q.countLoop L fuel (q.next L p) k = some (k + vs.length) := by
  induction vs generalizing us p k fuel with
  | nil =>
    have hlast : q.next L p = .head := h.seg.next_split hsplit
    obtain ⟨fuel, rfl⟩ := Nat.exists_eq_add_of_lt hfuel
    simp [QueueHead.countLoop, hlast]
  | cons y vs ih =>
    have hy : q.next L p = y := h.seg.next_split hsplit
    obtain ⟨z, rfl⟩ := exists_node_of_split hsplit
    obtain ⟨fuel, rfl⟩ := Nat.exists_eq_add_of_lt hfuel
    have hsplit' : Ptr.head :: l.map .node = (us ++ [p]) ++ .node z :: vs := by
      simpa using hsplit
    have hrest := ih (k := k + 1) hsplit' ((Ptr.node z :: vs).length + fuel)
      (by simp only [List.length_cons]; omega)
    simp only [QueueHead.countLoop, hy]
    simpa [Nat.add_assoc, Nat.add_comm 1] using hrest

theorem calcCount (h : Ring L q l) : Fuel.Returns (fun fuel => q.calcCount L fuel) l.length := by
  refine .of_lt (n := l.length) fun fuel hfuel => ?_
  have hsplit : Ptr.head :: l.map .node = [] ++ Ptr.head :: l.map .node := rfl
  have hcount := h.countLoop (k := 0) hsplit fuel (by simpa using hfuel)
  simpa [QueueHead.calcCount] using hcount

end Ring

/-- A call on the queue with what it has returned. -/
inductive Call (ν : Type*)
  | push (x : ν)
  | pop (ret : Ptr ν)
  deriving DecidableEq

namespace Call

def pushed : Call ν → Option ν
  | .push x => some x
  | .pop _ => none

def popped : Call ν → Option ν
  | .pop (.node x) => some x
  | _ => none

end Call

/-- One call after the other. `inside` lists, in no order, the nodes that have been pushed and not
been popped; only a node outside may be pushed. -/
inductive Step (L : Links σ ν) :
    QueueHead σ ν × List ν → Call ν → QueueHead σ ν × List ν → Prop
  | push {q q' : QueueHead σ ν} {inside : List ν} {x : ν} (hx : x ∉ inside)
      (hret : Fuel.Returns (fun fuel => q.push L x fuel) q') :
      Step L (q, inside) (.push x) (q', x :: inside)
  | pop {q q' : QueueHead σ ν} {inside : List ν} {ret : Ptr ν}
      (hret : Fuel.Returns (fun fuel => q.pop L fuel) (ret, q')) :
      Step L (q, inside) (.pop ret) (q', inside.filter fun x => ret ≠ .node x)

/-- The ring holds, in the order of the pushes, what has been pushed and not been popped. -/
def Queued (L : Links σ ν) (xs : List (Call ν)) (s : QueueHead σ ν × List ν) : Prop :=
  ∃ l, Ring L s.1 l ∧ (∀ x, x ∈ l ↔ x ∈ s.2) ∧
    xs.filterMap Call.pushed = xs.filterMap Call.popped ++ l

theorem Queued.step {xs : List (Call ν)} {a : Call ν} {s t : QueueHead σ ν × List ν}
    (h : Queued L xs s) (hstep : Step L s a t) : Queued L (xs ++ [a]) t := by
  obtain ⟨l, hring, hmem, hlog⟩ := h
  cases hstep with
  | push hx hret =>
    obtain ⟨q', hq', -, hret'⟩ := hring.push (mt (hmem _).mp hx)
    obtain rfl := hret.unique hret'
    refine ⟨_, hq', fun y => ?_, ?_⟩
    · simp [hmem, or_comm]
    · simp [Call.pushed, Call.popped, hlog]
  | pop hret =>
    cases l with
    | nil =>
      obtain ⟨rfl, rfl⟩ := Prod.mk.inj (hret.unique hring.pop_nil)
      refine ⟨[], hring, fun y => ?_, ?_⟩
      · simpa using hmem y
      · simpa [List.filterMap_cons, Call.pushed, Call.popped] using hlog
    | cons x l =>
      obtain ⟨q', hq', -, hret'⟩ := hring.pop_cons
      obtain ⟨rfl, rfl⟩ := Prod.mk.inj (hret.unique hret')
      refine ⟨l, hq', fun y => ?_, ?_⟩
      · have hx := (List.nodup_cons.mp hring.nodup).1
        have hy := hmem y
        simp only [List.mem_cons] at hy
        simp only [List.mem_filter, ← hy, decide_eq_true_eq, ne_eq, Ptr.node.injEq]
        grind
      · simpa [List.filterMap_cons, Call.pushed, Call.popped] using hlog

/-- Both calls return in every state that is reached, the nodes come out in the order in which they
went in, and the count is right. -/
theorem unsync_fifo (L : Links σ ν) (mem : σ) {xs : List (Call ν)} {q : QueueHead σ ν}
    {inside : List ν} (hrun : Lts.Run (Step L) (init L mem, []) xs (q, inside)) :
    ∃ l, Seg (q.next L) .head (l.map .node) .head ∧ l.Nodup ∧ (∀ x, x ∈ l ↔ x ∈ inside) ∧
      xs.filterMap Call.pushed = xs.filterMap Call.popped ++ l ∧
      q.tail ∈ Ptr.head :: l.map .node ∧
      (∀ x ∉ inside, ∃ q', Fuel.Returns (fun fuel => q.push L x fuel) q') ∧
      (∃ ret q', Fuel.Returns (fun fuel => q.pop L fuel) (ret, q') ∧
        ret = (l.map .node).headD .null) ∧
      Fuel.Returns (fun fuel => q.calcCount L fuel) l.length := by
  have h : Queued L ([] ++ xs) (q, inside) := by
    refine hrun.history (P := Queued L) (fun ys s a t hst h => h.step hst) ?_
    exact ⟨[], init_ring mem, fun x => Iff.rfl, rfl⟩
  obtain ⟨l, hring, hmem, hlog⟩ := h
  refine ⟨l, hring.seg, hring.nodup, hmem, hlog, hring.tail, ?_, ?_, hring.calcCount⟩
  · intro x hx
    obtain ⟨q', -, -, hret⟩ := hring.push (mt (hmem x).mp hx)
    exact ⟨q', hret⟩
  · cases l with
    | nil => exact ⟨_, _, hring.pop_nil, rfl⟩
    | cons x l =>
      obtain ⟨q', -, -, hret⟩ := hring.pop_cons
      exact ⟨_, q', hret, rfl⟩

/-- Links that lie in nothing but themselves. -/
def ownLinks (ν : Type*) [DecidableEq ν] : Links (Ptr ν → Ptr ν) ν where
  next m := m
  setNext := Function.update
  next_setNext _ _ _ _ := rfl

/-- Two nodes go through the queue, and the first one is pushed again. -/
theorem unsync_repush : ∃ (q : QueueHead (Ptr Bool → Ptr Bool) Bool) (inside l : List Bool),
    Lts.Run (Step (ownLinks Bool)) (init (ownLinks Bool) fun _ => .null, [])
      [.push true, .push false, .pop (.node true), .push true] (q, inside) ∧
    l = [false, true] ∧ Seg (q.next (ownLinks Bool)) .head (l.map .node) .head ∧
    Fuel.Returns (fun fuel => q.calcCount (ownLinks Bool) fuel) 2 := by
  obtain ⟨q₁, h₁, -, hret₁⟩ := (init_ring (L := ownLinks Bool) fun _ => .null).push (x := true)
    (by simp)
  obtain ⟨q₂, h₂, -, hret₂⟩ := h₁.push (x := false) (by simp)
  obtain ⟨q₃, h₃, -, hret₃⟩ := h₂.pop_cons
  obtain ⟨q₄, h₄, -, hret₄⟩ := h₃.push (x := true) (by simp)
  have hrun : Lts.Run (Step (ownLinks Bool)) (init (ownLinks Bool) fun _ => .null, [])
      [.push true, .push false, .pop (.node true), .push true] (q₄, [true, false]) :=
    .stepL (.push (by simp) hret₁) <| .stepL (.push (by simp) hret₂) <|
      .stepL (.pop hret₃) <| .stepL (.push (by simp) hret₄) (.refl _)
  obtain ⟨l, hseg, -, -, hlog, -, -, -, hcount⟩ := unsync_fifo (ownLinks Bool) _ hrun
  have hl : l = [false, true] := by
    simpa [List.filterMap_cons, Call.pushed, Call.popped] using hlog.symm
  subst hl
  exact ⟨q₄, _, _, hrun, rfl, hseg, hcount⟩

end YwStorage.Queue.Unsync
