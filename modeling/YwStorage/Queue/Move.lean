import YwStorage.Queue.Unsync

/-!
Two queues without synchronisation whose nodes are moved from one to the other by `bring` and
`bring_all`. Both lie in one memory, and each of them sees the head of the other as a node.
-/
namespace YwStorage.Queue.Move
open Chain

/-- A `ywQueue<DATA> *`: one of the two head instances, or a node. -/
inductive Place (ν : Type*)
  | null
  | head (b : Bool)
  | node (x : ν)
  deriving DecidableEq

variable {ν : Type*}

/-- A place as the queue `b` sees it. -/
def ptr (b : Bool) : Place ν → Ptr (Option ν)
  | .null => .null
  | .head c => if c = b then .head else .node none
  | .node x => .node (some x)

def place (b : Bool) : Ptr (Option ν) → Place ν
  | .null => .null
  | .head => .head b
  | .node none => .head (!b)
  | .node (some x) => .node x

@[simp]
theorem place_ptr (b : Bool) (p : Place ν) : place b (ptr b p) = p := by
  cases p with
  | null => rfl
  | head c => cases b <;> cases c <;> rfl
  | node x => rfl

@[simp]
theorem ptr_place (b : Bool) (p : Ptr (Option ν)) : ptr b (place b p) = p := by
  cases p with
  | null => rfl
  | head => simp [place, ptr]
  | node x =>
    cases x with
    | none => cases b <;> rfl
    | some x => rfl

theorem place_injective (b : Bool) : Function.Injective (place (ν := ν) b) :=
  Function.LeftInverse.injective (ptr_place b)

/-- The two heads, in the memory of the `next` fields. -/
structure Pair (ν : Type*) where
  next : Place ν → Place ν
  tail : Bool → Place ν

variable [DecidableEq ν]

def links (b : Bool) : Unsync.Links (Place ν → Place ν) (Option ν) where
  next m p := ptr b (m (place b p))
  setNext m p q := Function.update m (place b p) (place b q)
  next_setNext m p q _ := by
    funext r
    by_cases hr : r = p
    · rw [hr, Function.update_self, Function.update_self, ptr_place]
    · rw [Function.update_of_ne hr, Function.update_of_ne fun h => hr (place_injective b h)]

namespace Pair

omit [DecidableEq ν] in
/-- The queue `b`. -/
def queue (s : Pair ν) (b : Bool) : Unsync.QueueHead (Place ν → Place ν) (Option ν) :=
  ⟨s.next, ptr b (s.tail b)⟩

/-- The two queues after a call on the queue `b`. -/
def after (s : Pair ν) (b : Bool) (q : Unsync.QueueHead (Place ν → Place ν) (Option ν)) : Pair ν :=
  ⟨q.mem, Function.update s.tail b (place b q.tail)⟩

def push (s : Pair ν) (b : Bool) (x : ν) (fuel : ℕ) : Option (Pair ν) :=
  ((s.queue b).push (links b) (some x) fuel).map (s.after b)

def pop (s : Pair ν) (b : Bool) (fuel : ℕ) : Option (Place ν × Pair ν) :=
  ((s.queue b).pop (links b) fuel).map fun r => (place b r.1, s.after b r.2)

/-- `bring` by the queue `dst`. -/
def bring (s : Pair ν) (dst : Bool) (beforeFirst last : Place ν) : Pair ν :=
  let first := s.next beforeFirst
  let next := Function.update s.next beforeFirst (s.next last)
  let next := Function.update next last (next (.head dst))
  { s with next := Function.update next (.head dst) first }

/-- The loop of `bring_all`. -/
def findLast (s : Pair ν) (src : Bool) : ℕ → Place ν → Option (Place ν)
  | 0, _ => none
  | fuel + 1, iter =>
    if iter = .null then none
    else if s.next iter ≠ .head src then findLast s src fuel (s.next iter)
    else some iter

def bringAll (s : Pair ν) (dst : Bool) (fuel : ℕ) : Option (Pair ν) :=
  (s.findLast (!dst) fuel (s.next (.head (!dst)))).map (s.bring dst (.head (!dst)))

end Pair

/-- A call on one of the queues, which for the last two is the one that gets the nodes. -/
inductive Call (ν : Type*)
  | push (b : Bool) (x : ν)
  | pop (b : Bool)
  | bring (dst : Bool) (beforeFirst last : Place ν)
  | bringAll (dst : Bool)

/-- What a call returns, where `push`, `bring` and `bring_all` return nothing, and the queues after
it. -/
def Pair.call (s : Pair ν) (fuel : ℕ) : Call ν → Option (Place ν × Pair ν)
  | .push b x => (s.push b x fuel).map (.null, ·)
  | .pop b => s.pop b fuel
  | .bring dst beforeFirst last => some (.null, s.bring dst beforeFirst last)
  | .bringAll dst => (s.bringAll dst fuel).map (.null, ·)

/-- The last place of a queue that begins with `us`. -/
def lastOf (b : Bool) (us : List ν) : Place ν := (us.map .node).getLastD (.head b)

/-- The queues after a move, which leaves `us` in the one and puts `ms` in front of the other. -/
def moved (l : Bool → List ν) (dst : Bool) (us ms : List ν) : Bool → List ν :=
  Function.update (Function.update l (!dst) us) dst (ms ++ l dst)

/-- What the calls are for, on the nodes of the two queues. A node that is pushed is in neither of
them, and the nodes that are moved lie behind `before_first` in the other queue. -/
inductive Spec : (Bool → List ν) → Call ν → Place ν → (Bool → List ν) → Prop
  | push {l : Bool → List ν} {b : Bool} {x : ν} (hx : ∀ c, x ∉ l c) :
      Spec l (.push b x) .null (Function.update l b (l b ++ [x]))
  | pop {l : Bool → List ν} {b : Bool} :
      Spec l (.pop b) (((l b).map .node).headD .null) (Function.update l b (l b).tail)
  | bring {l : Bool → List ν} {dst : Bool} {us ms vs : List ν} {m : ν}
      (hsrc : l (!dst) = us ++ m :: (ms ++ vs)) :
      Spec l (.bring dst (lastOf (!dst) us) (lastOf (!dst) (m :: ms))) .null
        (moved l dst (us ++ vs) (m :: ms))
  | bringAll {l : Bool → List ν} {dst : Bool} :
      Spec l (.bringAll dst) .null (moved l dst [] (l !dst))

/-- The rings of the two queues. -/
def Listed (s : Pair ν) (l : Bool → List ν) : Prop :=
  ∀ b, Seg s.next (.head b) ((l b).map .node) (.head b)

/-- The calls return what they should, one after the other, and the rings are right all the
time. -/
def Works : Pair ν → (Bool → List ν) → List (Call ν) → Prop
  | s, l, [] => Listed s l
  | s, l, c :: cs => Listed s l ∧ ∀ ret l', Spec l c ret l' →
      ∃ s', Fuel.Returns (fun fuel => s.call fuel c) (ret, s') ∧ Works s' l' cs

/-- The tail of the queue from which nodes are taken is not on one of them, and a queue of which
all nodes are taken has some. -/
def TailStays (s : Pair ν) (l : Bool → List ν) : Call ν → (Bool → List ν) → Prop
  | .push _ _, _ => True
  | .pop _, _ => True
  | .bring dst _ _, l' => s.tail (!dst) ∈ Place.head (!dst) :: (l' (!dst)).map .node
  | .bringAll dst, l' =>
    l (!dst) ≠ [] ∧ s.tail (!dst) ∈ Place.head (!dst) :: (l' (!dst)).map .node

/-- Both rings, which have no node in common, with their tails on them. -/
structure Rings (s : Pair ν) (l : Bool → List ν) : Prop where
  seg : Listed s l
  nodup : ∀ b, (l b).Nodup
  disjoint : ∀ b x, x ∈ l b → x ∉ l !b
  tail : ∀ b, s.tail b ∈ Place.head b :: (l b).map .node

variable {s : Pair ν} {l l' : Bool → List ν} {b : Bool}

omit [DecidableEq ν] in
theorem map_ptr (b : Bool) (xs : List ν) :
    (xs.map .node).map (ptr b) = (xs.map some).map Ptr.node := by
  simp [ptr]

omit [DecidableEq ν] in
theorem ptr_head (b : Bool) : ptr b (.head b : Place ν) = .head := by
  simp [ptr]

/-- The ring as its queue sees it. -/
theorem Rings.ring (h : Rings s l) (b : Bool) :
    Unsync.Ring (links b) (s.queue b) ((l b).map some) where
  seg := by
    rw [← map_ptr, ← ptr_head b]
    exact (seg_map (place_ptr b)).mpr (h.seg b)
  nodup := (h.nodup b).map (Option.some_injective ν)
  tail := by
    have hmem := List.mem_map_of_mem (f := ptr b) (h.tail b)
    rwa [List.map_cons, map_ptr, ptr_head] at hmem

/-- A memory is changed only where it is written. -/
theorem eq_of_wrote {S : Ptr (Option ν) → Prop} {m m' : Place ν → Place ν}
    (h : Unsync.Wrote (links b) S m m') {p : Place ν} (hp : ¬ S (ptr b p)) : m' p = m p := by
  induction h with
  | refl => rfl
  | tail _ hstep ih =>
    obtain ⟨r, v, hr, rfl⟩ := hstep
    rw [← ih]
    refine Function.update_of_ne ?_ ..
    rintro rfl
    exact hp ((ptr_place b r).symm ▸ hr)

omit [DecidableEq ν] in
/-- What holds of one queue and of the other holds of both. -/
theorem forall_queue {P : Bool → Prop} (hb : P b) (hnot : P !b) (c : Bool) : P c := by
  by_cases hc : c = b
  · exact hc ▸ hb
  · rwa [Bool.eq_not_of_ne hc]

/-- What a call on one queue leaves. -/
theorem Rings.after (h : Rings s l) {S : Ptr (Option ν) → Prop} {xs : List ν}
    {q : Unsync.QueueHead (Place ν → Place ν) (Option ν)}
    (hring : Unsync.Ring (links b) q (xs.map some)) (hwrote : Unsync.Wrote (links b) S s.next q.mem)
    (hother : ¬ S (.node none)) (hnodes : ∀ x ∈ l (!b), ¬ S (.node (some x)) ∧ x ∉ xs) :
    Rings (s.after b q) (Function.update l b xs) := by
  have hne : (!b) ≠ b := by simp
  have hseg : Seg q.mem (.head b) (xs.map .node) (.head b) := by
    have hseg := hring.seg
    rw [← map_ptr, ← ptr_head b] at hseg
    exact (seg_map (place_ptr b)).mp hseg
  have hkept : Seg q.mem (.head !b) ((l !b).map .node) (.head !b) := by
    refine (h.seg !b).congr fun p hp => eq_of_wrote hwrote ?_
    rcases List.mem_cons.mp hp with rfl | hp
    · simpa [ptr] using hother
    · obtain ⟨x, hx, rfl⟩ := List.mem_map.mp hp
      exact (hnodes x hx).1
  have htail : place b q.tail ∈ Place.head b :: xs.map .node := by
    have hmem := List.mem_map_of_mem (f := place b) hring.tail
    rw [List.map_cons, List.map_map, List.map_map] at hmem
    exact hmem
  refine ⟨forall_queue (b := b) ?_ ?_, forall_queue (b := b) ?_ ?_, forall_queue (b := b) ?_ ?_,
    forall_queue (b := b) ?_ ?_⟩
  · rw [Function.update_self]
    exact hseg
  · rw [Function.update_of_ne hne]
    exact hkept
  · rw [Function.update_self]
    exact List.Nodup.of_map _ hring.nodup
  · rw [Function.update_of_ne hne]
    exact h.nodup _
  · intro x hx hx'
    rw [Function.update_self] at hx
    rw [Function.update_of_ne hne] at hx'
    exact (hnodes x hx').2 hx
  · intro x hx hx'
    rw [Function.update_of_ne hne] at hx
    rw [Bool.not_not, Function.update_self] at hx'
    exact (hnodes x hx).2 hx'
  · rw [Function.update_self]
    show Function.update s.tail b _ b ∈ _
    rw [Function.update_self]
    exact htail
  · rw [Function.update_of_ne hne]
    show Function.update s.tail b _ (!b) ∈ _
    rw [Function.update_of_ne hne]
    exact h.tail _

/-- The tail is left on what was the last place. -/
theorem Rings.push (h : Rings s l) {x : ν} (hx : ∀ c, x ∉ l c) :
    ∃ s', Fuel.Returns (fun fuel => s.push b x fuel) s' ∧
      Rings s' (Function.update l b (l b ++ [x])) ∧ s'.tail b = lastOf b (l b) := by
  obtain ⟨q, hring, hwrote, htail, hret⟩ :=
    (h.ring b).push_tail (x := some x) (by simpa using hx b)
  have hmap : (l b).map some ++ [some x] = (l b ++ [x]).map some := by simp
  rw [hmap] at hring
  refine ⟨_, hret.map, h.after hring hwrote (by simp) fun y hy => ?_, ?_⟩
  · have hyx : y ≠ x := fun heq => hx (!b) (heq ▸ hy)
    have hyb : y ∉ l b := by
      have := h.disjoint (!b) y hy
      rwa [Bool.not_not] at this
    simp [hyx, hyb]
  · show Function.update s.tail b (place b q.tail) b = _
    rw [Function.update_self, htail, lastOf]
    simp only [List.getLastD_eq_getLast?, List.getLast?_map]
    cases (l b).getLast? <;> rfl

theorem Rings.pop (h : Rings s l) (b : Bool) :
    ∃ s', Fuel.Returns (fun fuel => s.pop b fuel) (((l b).map .node).headD .null, s') ∧
      Rings s' (Function.update l b (l b).tail) := by
  have hring := h.ring b
  cases hl : l b with
  | nil =>
    rw [hl] at hring
    refine ⟨_, hring.pop_nil.map, ?_⟩
    refine h.after (S := fun _ => False) hring .refl (by simp) (by simp)
  | cons x xs =>
    rw [hl] at hring
    obtain ⟨q, hring', hwrote, hret⟩ := hring.pop_cons
    refine ⟨_, hret.map, h.after hring' hwrote (by simp) fun y hy => ?_⟩
    have hyb : y ∉ l b := by
      have := h.disjoint (!b) y hy
      rwa [Bool.not_not] at this
    rw [hl, List.mem_cons, not_or] at hyb
    simp [hyb]

omit [DecidableEq ν] in
theorem lastOf_cons (b : Bool) (m : ν) (ms : List ν) :
    lastOf b (m :: ms) = (ms.map .node).getLastD (.node m) := by
  rw [lastOf, List.map_cons, List.getLastD_cons]

omit [DecidableEq ν] in
theorem nodup_places (b : Bool) {xs : List ν} (h : xs.Nodup) :
    (Place.head b :: xs.map .node).Nodup := by
  refine List.nodup_cons.mpr ⟨by simp, h.map fun x y hxy => ?_⟩
  exact Place.node.inj hxy

theorem Rings.places_disjoint (h : Rings s l) {p : Place ν}
    (hp : p ∈ Place.head b :: (l b).map .node) : p ∉ Place.head (!b) :: (l !b).map .node := by
  rcases List.mem_cons.mp hp with rfl | hp
  · simp
  · obtain ⟨x, hx, rfl⟩ := List.mem_map.mp hp
    simpa using h.disjoint b x hx

section Bring
variable {dst : Bool} {us ms vs : List ν} {m : ν}

omit [DecidableEq ν] in
@[simp]
theorem moved_dst : moved l dst us ms dst = ms ++ l dst := Function.update_self ..

omit [DecidableEq ν] in
@[simp]
theorem moved_src : moved l dst us ms (!dst) = us := by
  rw [moved, Function.update_of_ne (by simp), Function.update_self]

/-- The nodes are cut out of one ring and put into the other one. -/
theorem Rings.bring_listed (h : Rings s l) (hsrc : l (!dst) = us ++ m :: (ms ++ vs)) :
    Listed (s.bring dst (lastOf (!dst) us) (lastOf (!dst) (m :: ms)))
      (moved l dst (us ++ vs) (m :: ms)) := by
  have hnodup : (Place.head (!dst) :: (l !dst).map .node ++
      Place.head dst :: (l dst).map .node).Nodup := by
    refine List.nodup_append.mpr ⟨nodup_places _ (h.nodup _), nodup_places _ (h.nodup _), ?_⟩
    intro p hp r hr heq
    have := h.places_disjoint hp
    rw [Bool.not_not] at this
    exact this (heq ▸ hr)
  have hseg := h.seg !dst
  rw [hsrc] at hseg hnodup
  simp only [List.map_append, List.map_cons] at hseg hnodup
  obtain ⟨hkept, hmoved⟩ := hseg.splice (h.seg dst) hnodup rfl
  rw [← lastOf_cons (!dst)] at hkept hmoved
  refine forall_queue (b := dst) ?_ ?_
  · rw [moved_dst, List.map_append, List.map_cons]
    exact hmoved
  · rw [moved_src, List.map_append]
    exact hkept

omit [DecidableEq ν] in
theorem nodup_moved (hnodup : ∀ b, (l b).Nodup) (hdisj : ∀ b x, x ∈ l b → x ∉ l !b)
    (hsrc : l (!dst) = us ++ ms ++ vs) (b : Bool) :
    (moved l dst (us ++ vs) ms b).Nodup ∧
      ∀ x ∈ moved l dst (us ++ vs) ms b, x ∉ moved l dst (us ++ vs) ms !b := by
  have hs := hnodup !dst
  have hd := hdisj !dst
  have hl := hnodup dst
  rw [hsrc] at hs hd
  rw [Bool.not_not] at hd
  revert b
  refine forall_queue (b := dst) ?_ ?_
  · rw [moved_dst, moved_src]
    constructor
    · grind
    · grind
  · rw [Bool.not_not, moved_dst, moved_src]
    constructor
    · grind
    · grind

theorem Rings.bring (h : Rings s l) (hsrc : l (!dst) = us ++ m :: (ms ++ vs))
    (htail : s.tail (!dst) ∈ Place.head (!dst) :: (us ++ vs).map .node) :
    Rings (s.bring dst (lastOf (!dst) us) (lastOf (!dst) (m :: ms)))
      (moved l dst (us ++ vs) (m :: ms)) := by
  have hsrc' : l (!dst) = us ++ (m :: ms) ++ vs := hsrc.trans (by simp)
  have hlists := nodup_moved h.nodup h.disjoint hsrc'
  refine ⟨h.bring_listed hsrc, fun b => (hlists b).1, fun b => (hlists b).2, ?_⟩
  refine forall_queue (b := dst) ?_ ?_
  · have := h.tail dst
    rw [moved_dst]
    show s.tail dst ∈ _
    simp only [List.map_append, List.mem_cons, List.mem_append] at this ⊢
    exact this.imp_right Or.inr
  · rw [moved_src]
    exact htail

/-- Once the tail of a queue is on a node that has been moved, no node can be pushed. -/
theorem push_never {t : Pair ν} (h : Listed t l') (hnodup : (l' dst).Nodup) {x : ν}
    (hx : x ∉ l' dst) (htail : t.tail (!dst) ∈ (l' dst).map .node) (fuel : ℕ) :
    t.push (!dst) x fuel = none := by
  have hring := nodup_places dst hnodup
  have hne : (l' dst).map Place.node ≠ [] := List.ne_nil_of_mem htail
  have hlost : (t.queue !dst).push (links !dst) (some x) fuel = none := by
    refine Unsync.push_lost (T := fun p => place (!dst) p ∈ Place.head dst :: (l' dst).map .node)
      (fun p hp => ?_) (fun p hp heq => ?_) ?_ ?_ ?_ fuel
    · have hmem := (h dst).next_mem hp
      have hnext : place (!dst) ((t.queue !dst).next (links !dst) p) = t.next (place (!dst) p) :=
        place_ptr _ _
      rw [hnext]
      rw [List.mem_append, List.mem_singleton] at hmem
      exact List.mem_cons.mpr hmem.symm
    · have hnext : t.next (place (!dst) p) = place (!dst) p := by
        have := congrArg (place !dst) heq
        exact (place_ptr _ _).symm.trans this
      exact (h dst).next_ne_self hne hring hp hnext
    · simp [place]
    · simpa [place] using hx
    · show place (!dst) (ptr (!dst) (t.tail !dst)) ∈ _
      rw [place_ptr]
      exact List.mem_cons_of_mem _ htail
  rw [Pair.push, hlost]
  rfl

/-- The loop of `bring_all` stops at the last node. -/
theorem Rings.findLast {src : Bool} {c : Place ν} {us vs : List (Place ν)} (h : Rings s l)
    (hsplit : (l src).map .node = us ++ c :: vs) {fuel : ℕ} (hfuel : vs.length < fuel) :
    s.findLast src fuel c = some (vs.getLastD c) := by
  induction vs generalizing us c fuel with
  | nil =>
    have hring : Place.head src :: (l src).map .node = (.head src :: us) ++ [c] := by
      rw [hsplit]
      rfl
    have hnext : s.next c = .head src := (h.seg src).next_split hring
    obtain ⟨x, -, rfl⟩ := List.mem_map.mp (hsplit ▸ List.mem_append_right us List.mem_cons_self)
    obtain ⟨fuel, rfl⟩ := Nat.exists_eq_add_of_lt hfuel
    simp [Pair.findLast, hnext]
  | cons v vs ih =>
    have hring : Place.head src :: (l src).map .node = (.head src :: us) ++ c :: v :: vs := by
      rw [hsplit]
      rfl
    have hnext : s.next c = v := (h.seg src).next_split hring
    have hnode : ∀ p ∈ us ++ c :: v :: vs, ∃ x, Place.node x = p := by
      intro p hp
      rw [← hsplit] at hp
      obtain ⟨x, -, hx⟩ := List.mem_map.mp hp
      exact ⟨x, hx⟩
    obtain ⟨x, rfl⟩ := hnode c (by simp)
    obtain ⟨y, rfl⟩ := hnode v (by simp)
    obtain ⟨fuel, rfl⟩ := Nat.exists_eq_add_of_lt hfuel
    have hrest := ih (hsplit.trans (List.append_cons us _ _))
      (show vs.length < vs.length + 1 + fuel by omega)
    rw [List.getLastD_cons, ← hrest]
    simp [Pair.findLast, hnext]

theorem Rings.bringAll (h : Rings s l) (hsrc : l (!dst) = m :: ms) :
    Fuel.Returns (fun fuel => s.bringAll dst fuel)
      (s.bring dst (lastOf (!dst) ([] : List ν)) (lastOf (!dst) (m :: ms))) := by
  have hfirst : s.next (.head !dst) = .node m := by
    have hseg := h.seg !dst
    rw [hsrc] at hseg
    exact hseg.1
  refine .of_lt (n := ms.length) fun fuel hfuel => ?_
  have hsplit : (l !dst).map .node = [] ++ Place.node m :: ms.map .node := by
    rw [hsrc]
    rfl
  have hlast := h.findLast hsplit (show (ms.map Place.node).length < fuel by simpa using hfuel)
  rw [Pair.bringAll, hfirst, hlast, lastOf_cons]
  rfl

/-- The head of an empty queue is put into the other ring. -/
theorem Rings.bringAll_nil (h : Rings s l) (hsrc : l (!dst) = []) :
    Fuel.Returns (fun fuel => s.bringAll dst fuel) (s.bring dst (.head !dst) (.head !dst)) := by
  have hself : s.next (.head !dst) = .head !dst := by
    have hseg := h.seg !dst
    rw [hsrc] at hseg
    exact hseg
  refine .of_lt (n := 0) fun fuel hfuel => ?_
  obtain ⟨fuel, rfl⟩ := Nat.exists_eq_add_of_lt hfuel
  simp [Pair.bringAll, Pair.findLast, hself]

theorem not_listed_nil (h : Rings s l) (hsrc : l (!dst) = []) :
    ¬ Listed (s.bring dst (.head !dst) (.head !dst)) (moved l dst [] (l !dst)) := by
  intro hlisted
  have hself : s.next (.head !dst) = .head !dst := by
    have hseg := h.seg !dst
    rw [hsrc] at hseg
    exact hseg
  have hnext := (hlisted dst).next_eq
  have hbring : (s.bring dst (.head !dst) (.head !dst)).next (.head dst) = .head !dst := by
    simp [Pair.bring, hself]
  rw [hbring, moved_dst, hsrc, List.nil_append] at hnext
  cases hl : l dst with
  | nil => simp [hl] at hnext
  | cons x xs => simp [hl] at hnext

end Bring

/-- A call with its specification. -/
def Step (p : Pair ν × (Bool → List ν)) (c : Call ν) (p' : Pair ν × (Bool → List ν)) : Prop :=
  ∃ ret, Spec p.2 c ret p'.2 ∧ Fuel.Returns (fun fuel => p.1.call fuel c) (ret, p'.1)

/-- A call that leaves the tail where it belongs. -/
def GoodStep (p : Pair ν × (Bool → List ν)) (c : Call ν) (p' : Pair ν × (Bool → List ν)) : Prop :=
  Step p c p' ∧ TailStays p.1 p.2 c p'.2

theorem Rings.call {c : Call ν} {ret : Place ν} (h : Rings s l) (hspec : Spec l c ret l')
    (hgood : TailStays s l c l') :
    ∃ s', Fuel.Returns (fun fuel => s.call fuel c) (ret, s') ∧ Rings s' l' := by
  cases hspec with
  | push hx =>
    obtain ⟨s', hret, hrings, -⟩ := h.push hx
    exact ⟨s', hret.map, hrings⟩
  | pop =>
    obtain ⟨s', hret, hrings⟩ := h.pop _
    exact ⟨s', hret, hrings⟩
  | bring hsrc =>
    refine ⟨_, .const _, h.bring hsrc ?_⟩
    simpa only [TailStays, moved_src] using hgood
  | @bringAll dst =>
    obtain ⟨hne, htail⟩ := hgood
    obtain ⟨m, ms, hsrc⟩ := List.exists_cons_of_ne_nil hne
    have hsplit : l (!dst) = [] ++ m :: (ms ++ []) := by simpa using hsrc
    rw [moved_src] at htail
    refine ⟨_, (h.bringAll hsrc).map, ?_⟩
    rw [hsrc]
    exact h.bring hsplit htail

/-- Two new queues in any memory. -/
def init (mem : Place ν → Place ν) : Pair ν where
  next
    | .head b => .head b
    | p => mem p
  tail := .head

omit [DecidableEq ν] in
theorem rings_init (mem : Place ν → Place ν) : Rings (init mem) fun _ => [] :=
  ⟨fun _ => rfl, fun _ => List.nodup_nil, by simp, fun _ => List.mem_cons_self⟩

theorem rings_run {mem : Place ν → Place ν} {cs : List (Call ν)}
    (hrun : Lts.Run GoodStep (init mem, fun _ => []) cs (s, l)) : Rings s l := by
  refine hrun.invariant (P := fun p => Rings p.1 p.2) ?_ (rings_init mem)
  rintro p c p' ⟨⟨ret, hspec, hret⟩, hgood⟩ hp
  obtain ⟨s', hret', hrings⟩ := hp.call hspec hgood
  obtain ⟨-, rfl⟩ := Prod.mk.inj (hret.unique hret')
  exact hrings

def Call.isMove : Call ν → Bool
  | .push _ _ => false
  | .pop _ => false
  | .bring _ _ _ => true
  | .bringAll _ => true

theorem Rings.works (h : Rings s l) {cs : List (Call ν)} (hcs : ∀ c ∈ cs, c.isMove = false) :
    Works s l cs := by
  induction cs generalizing s l with
  | nil => exact h.seg
  | cons c cs ih =>
    rw [List.forall_mem_cons] at hcs
    refine ⟨h.seg, fun ret l' hspec => ?_⟩
    have hgood : TailStays s l c l' := by
      cases c with
      | push b x => trivial
      | pop b => trivial
      | bring dst p r => cases hcs.1
      | bringAll dst => cases hcs.1
    obtain ⟨s', hret, hrings⟩ := h.call hspec hgood
    exact ⟨s', hret, ih hrings hcs.2⟩

/-- The call moves what it should, and whatever is pushed and popped afterwards is served. -/
def Serves (s : Pair ν) (c : Call ν) (ret : Place ν) (l' : Bool → List ν) : Prop :=
  ∃ s', Fuel.Returns (fun fuel => s.call fuel c) (ret, s') ∧
    ∀ later, (∀ d ∈ later, d.isMove = false) → Works s' l' later

/-- A queue whose tail has been moved cannot be pushed to. -/
theorem not_works_of_tail [Infinite ν] {t : Pair ν} {dst : Bool} (hlisted : Listed t l')
    (hnodup : (l' dst).Nodup) (htail : t.tail (!dst) ∈ (l' dst).map .node) :
    ∃ x, ¬ Works t l' [.push (!dst) x] := by
  classical
  obtain ⟨x, hx⟩ := Infinite.exists_notMem_finset (l' true ++ l' false).toFinset
  rw [List.mem_toFinset, List.mem_append, not_or] at hx
  have hfresh : ∀ c, x ∉ l' c := fun c => by cases c <;> tauto
  refine ⟨x, fun hworks => ?_⟩
  obtain ⟨t', hret, -⟩ := hworks.2 _ _ (.push hfresh)
  obtain ⟨n, hn⟩ := hret
  have hnone := push_never hlisted hnodup (hfresh dst) htail n
  have := hn n le_rfl
  simp [Pair.call, hnone] at this

/-- If pushes are served after a move, the tail was not on one of the nodes. -/
theorem Rings.tail_stays [Infinite ν] {dst : Bool} {us ms vs : List ν} {m : ν} (h : Rings s l)
    (hsrc : l (!dst) = us ++ m :: (ms ++ vs))
    (hworks : ∀ later, (∀ d ∈ later, d.isMove = false) →
      Works (s.bring dst (lastOf (!dst) us) (lastOf (!dst) (m :: ms)))
        (moved l dst (us ++ vs) (m :: ms)) later) :
    s.tail (!dst) ∈ Place.head (!dst) :: (us ++ vs).map .node := by
  by_contra hnot
  have hsrc' : l (!dst) = us ++ (m :: ms) ++ vs := hsrc.trans (by simp)
  have htail := h.tail !dst
  rw [hsrc'] at htail
  have hmoved : s.tail (!dst) ∈ (m :: ms).map .node := by
    simp only [List.map_append, List.mem_cons, List.mem_append] at hnot htail ⊢
    tauto
  have hnodup := (nodup_moved h.nodup h.disjoint hsrc' dst).1
  obtain ⟨x, hx⟩ := not_works_of_tail (h.bring_listed hsrc) hnodup (by
    rw [moved_dst, List.map_append]
    exact List.mem_append_left _ hmoved)
  exact hx (hworks _ (by simp [Call.isMove]))

/-- After any calls that have left the tails where they belong: the next call and all later pushes
and pops are served exactly if it leaves the tail there too. -/
theorem move_serves_iff [Infinite ν] (mem : Place ν → Place ν) (cs : List (Call ν)) (s : Pair ν)
    (l l' : Bool → List ν) (c : Call ν) (ret : Place ν)
    (hrun : Lts.Run GoodStep (init mem, fun _ => []) cs (s, l)) (hspec : Spec l c ret l') :
    Serves s c ret l' ↔ TailStays s l c l' := by
  have h := rings_run hrun
  constructor
  · rintro ⟨s', hret, hworks⟩
    cases hspec with
    | push hx => trivial
    | pop => trivial
    | bring hsrc =>
      obtain ⟨-, rfl⟩ := Prod.mk.inj (hret.unique (.const _))
      rw [TailStays, moved_src]
      exact h.tail_stays hsrc hworks
    | @bringAll dst =>
      cases hsrc : l (!dst) with
      | nil =>
        obtain ⟨-, rfl⟩ := Prod.mk.inj (hret.unique (h.bringAll_nil hsrc).map)
        exact absurd (hworks [] (by simp)) (not_listed_nil h hsrc)
      | cons m ms =>
        obtain ⟨-, rfl⟩ := Prod.mk.inj (hret.unique (h.bringAll hsrc).map)
        have hsplit : l (!dst) = [] ++ m :: (ms ++ []) := by simpa using hsrc
        rw [hsrc] at hworks
        rw [TailStays, hsrc, moved_src]
        exact ⟨by simp, h.tail_stays hsplit hworks⟩
  · intro hgood
    obtain ⟨s', hret, hrings⟩ := h.call hspec hgood
    exact ⟨s', hret, fun later hlater => hrings.works hlater⟩

theorem Rings.push_step (h : Rings s l) {x : ν} (hx : ∀ c, x ∉ l c) :
    ∃ s', GoodStep (s, l) (.push b x) (s', Function.update l b (l b ++ [x])) ∧
      Rings s' (Function.update l b (l b ++ [x])) ∧ s'.tail b = lastOf b (l b) := by
  obtain ⟨s', hret, hrings, htail⟩ := h.push hx
  exact ⟨s', ⟨⟨.null, .push hx, hret.map⟩, trivial⟩, hrings, htail⟩

/-- The queue `true` after one push, whose tail is still on the head. -/
theorem one_node_moved : ∃ (s : Pair ℕ) (l l' : Bool → List ℕ),
    Lts.Run GoodStep (init fun _ => .null, fun _ => []) [.push true 1] (s, l) ∧
      Spec l (.bringAll false) .null l' ∧ l' false = [1] ∧ Serves s (.bringAll false) .null l' := by
  obtain ⟨s, hstep, -, htail⟩ := (rings_init fun _ => (.null : Place ℕ)).push_step (b := true)
    (x := 1) (by simp)
  have hrun := Lts.Run.single hstep
  refine ⟨s, _, _, hrun, .bringAll, by simp, ?_⟩
  refine (move_serves_iff _ _ s _ _ (.bringAll false) .null hrun .bringAll).mpr ⟨by simp, ?_⟩
  simp [htail, lastOf]

/-- After two pushes the tail is on the first node, and when this is moved the queue can be pushed
to no more. An empty queue puts its head into the other one. -/
theorem moved_tail_lost :
    (∃ (s t : Pair ℕ) (l l' : Bool → List ℕ),
      Lts.Run GoodStep (init fun _ => .null, fun _ => []) [.push true 1, .push true 2] (s, l) ∧
        Spec l (.bringAll false) .null l' ∧
        Fuel.Returns (fun fuel => s.call fuel (.bringAll false)) (.null, t) ∧
        ∀ fuel, t.push true 3 fuel = none) ∧
      ∃ t : Pair ℕ,
        Fuel.Returns (fun fuel => (init fun _ => .null).call fuel (.bringAll false)) (.null, t) ∧
          t.next (.head false) = .head true := by
  constructor
  · obtain ⟨s₁, hstep₁, hrings₁, -⟩ := (rings_init fun _ => (.null : Place ℕ)).push_step
      (b := true) (x := 1) (by simp)
    obtain ⟨s₂, hstep₂, hrings₂, htail⟩ := hrings₁.push_step (b := true) (x := 2) (by simp)
    have hrun := Lts.Run.stepL hstep₁ (.single hstep₂)
    have hsrc : Function.update (Function.update (fun _ => []) true ([] ++ [1])) true
        (Function.update (fun _ => []) true ([] ++ [1]) true ++ [2]) (!false) = 1 :: [2] := by
      simp
    have hsplit := hsrc.trans (show 1 :: [2] = [] ++ 1 :: ([2] ++ []) by simp)
    refine ⟨s₂, _, _, _, hrun, .bringAll, (hrings₂.bringAll hsrc).map, fun fuel => ?_⟩
    show Pair.push _ (!false) 3 fuel = none
    refine push_never (hrings₂.bring_listed hsplit) ?_ ?_ ?_ fuel
    · simp
    · simp
    · show s₂.tail true ∈ _
      simp [htail, lastOf]
  · have hrings := rings_init fun _ => (.null : Place ℕ)
    have hret : Fuel.Returns (fun fuel => Pair.bringAll _ false fuel) _ := hrings.bringAll_nil rfl
    exact ⟨_, hret.map, by simp [Pair.bring, init]⟩

end YwStorage.Queue.Move
