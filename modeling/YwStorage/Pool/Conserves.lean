import YwStorage.Pool.Lists
import YwStorage.Lib.Run

/-!
The pool loses and doubles no object. A thread id must not be that of the shared slot, and
`PRIVATE_COUNT`, which is passed on as an `int32_t`, must not change its value there.
-/
namespace YwStorage.Pool
open Circular Lts

variable {α : Type} {c : Config} {ls : ℕ → List α}

/-- The slots outside of the array hold nothing, the private ones not more than the threshold. -/
structure Bounded (c : Config) (ls : ℕ → List α) : Prop where
  outside : ∀ i, c.sharedIdx < i → ls i = []
  privateLen : ∀ i, i < c.sharedIdx → (ls i).length ≤ c.sharingThreshold

theorem Bounded.update (h : Bounded c ls) {i : ℕ} {l : List α} (hi : i ≤ c.sharedIdx)
    (hl : i < c.sharedIdx → l.length ≤ c.sharingThreshold) :
    Bounded c (Function.update ls i l) := by
  constructor
  · intro j hj
    rw [Function.update_of_ne (by omega)]
    exact h.outside j hj
  · intro j hj
    by_cases hji : j = i
    · subst hji
      rw [Function.update_self]
      exact hl hj
    · rw [Function.update_of_ne hji]
      exact h.privateLen j hj

/-- A full list is back at the threshold after the move. -/
theorem Bounded.push [DecidableEq α] (h : Bounded c ls) {tid : ℕ} (htid : tid < c.sharedIdx)
    (o : α) : Bounded c (pushed c ls tid o) := by
  have hlen := h.privateLen tid htid
  have hshared : ∀ l : List α, Bounded c (Function.update ls c.sharedIdx l) := fun l =>
    h.update (Nat.le_refl _) fun hlt => absurd hlt (Nat.lt_irrefl _)
  unfold pushed
  split
  · exact hshared _
  · rename_i hzero
    simp only [Function.update_self]
    split
    · rw [moved, Function.update_comm (Nat.ne_of_lt htid), Function.update_idem]
      refine (hshared _).update (Nat.le_of_lt htid) fun _ => ?_
      rw [Function.update_self, List.length_drop, List.length_cons]
      omega
    · rename_i hle
      exact h.update (Nat.le_of_lt htid) fun _ => Nat.le_of_not_lt hle

theorem Bounded.toShared (h : Bounded c ls) {tid : ℕ} (htid : tid < c.sharedIdx) (n : ℕ) :
    Bounded c (moved ls c.sharedIdx tid n) := by
  refine (h.update (Nat.le_refl _) fun hlt => absurd hlt (Nat.lt_irrefl _)).update
    (Nat.le_of_lt htid) fun _ => ?_
  rw [List.length_drop]
  exact Nat.le_trans (Nat.sub_le _ _) (h.privateLen tid htid)

theorem Bounded.poppedAt (h : Bounded c ls) {i : ℕ} (hi : i ≤ c.sharedIdx) :
    Bounded c (poppedAt ls i).2 := by
  unfold Pool.poppedAt
  split
  · exact h
  · rename_i o l hl
    refine h.update hi fun hlt => ?_
    have hlen := h.privateLen i hlt
    rw [hl, List.length_cons] at hlen
    omega

theorem Bounded.pop (h : Bounded c ls) {tid : ℕ} (htid : tid < c.sharedIdx) :
    Bounded c (popped c ls tid).2 := by
  unfold popped
  split
  · exact h.poppedAt (Nat.le_refl _)
  · split
    · rename_i hnil
      refine Bounded.poppedAt ?_ (Nat.le_of_lt htid)
      refine (h.update (Nat.le_of_lt htid) fun _ => ?_).update (Nat.le_refl _) fun hlt =>
        absurd hlt (Nat.lt_irrefl _)
      rw [hnil, List.append_nil]
      exact Nat.le_trans (List.length_take_le _ _) c.valid
    · rename_i o l hl
      refine h.update (Nat.le_of_lt htid) fun _ => ?_
      have hlen := h.privateLen tid htid
      rw [hl, List.length_cons] at hlen
      omega

/-- What holds along a run: the objects of the lists are those pooled. -/
structure Inv (c : Config) (s : Pool α) (S : List α) (ls : ℕ → List α) : Prop where
  holds : Holds s ls
  bounded : Bounded c ls
  unused : c.privateCount = 0 → ∀ i, i < c.sharedIdx → ls i = []
  nodup : S.Nodup
  mem : ∀ o, o ∈ S ↔ ∃ i, o ∈ ls i

section Runs
variable [DecidableEq α] {s : Pool α} {S : List α}

theorem inv_create (c : Config) : Inv c (create : Pool α) [] fun _ => [] := by
  refine ⟨holds_create, ⟨fun _ _ => rfl, fun _ _ => Nat.zero_le _⟩, fun _ _ _ => rfl,
    List.nodup_nil, ?_⟩
  intro o
  simp

namespace Inv

theorem push (h : Inv c s S ls) (hc : c.privateCount < 2 ^ 31) {tid : ℕ} (htid : tid < c.sharedIdx)
    {o : α} (ho : o ∉ S) : Inv c (s.push c tid o) (o :: S) (pushed c ls tid o) := by
  have hnew : ∀ j, o ∉ ls j := fun j hj => ho ((h.mem o).mpr ⟨j, hj⟩)
  refine ⟨h.holds.push hc (Nat.ne_of_lt htid) hnew, h.bounded.push htid o, ?_,
    List.nodup_cons.mpr ⟨ho, h.nodup⟩, ?_⟩
  · intro hzero i hi
    rw [pushed, if_pos hzero, Function.update_of_ne (Nat.ne_of_lt hi)]
    exact h.unused hzero i hi
  · intro a
    rw [List.mem_cons, h.mem, exists_mem_pushed (Nat.ne_of_lt htid)]

theorem reclaim (h : Inv c s S ls) (hc : c.privateCount < 2 ^ 31) {tid : ℕ}
    (htid : tid < c.sharedIdx) :
    Inv c (s.reclaim c tid) S (moved ls c.sharedIdx tid c.privateCount) := by
  refine ⟨h.holds.moveToSharedArea hc (Nat.ne_of_lt htid), h.bounded.toShared htid _, ?_, h.nodup,
    ?_⟩
  · intro hzero i hi
    rw [Holds.moved_nil (by rw [hzero, List.take_zero])]
    exact h.unused hzero i hi
  · intro a
    rw [h.mem, exists_mem_moved (Nat.ne_of_gt htid)]

theorem pop (h : Inv c s S ls) (hc : c.privateCount < 2 ^ 31) {tid : ℕ} (htid : tid < c.sharedIdx) :
    ∃ t, s.pop c tid = some ((popped c ls tid).1.map .obj, t) ∧
      Inv c t (pooled S (.pop tid ((popped c ls tid).1.map .obj))) (popped c ls tid).2 := by
  have hne := Nat.ne_of_lt htid
  obtain ⟨t, ht, hholds⟩ := h.holds.pop hc hne
  refine ⟨t, ht, hholds, h.bounded.pop htid, ?_, ?_, ?_⟩
  · intro hzero i hi
    have hnil := h.unused hzero i hi
    rw [popped, if_pos hzero]
    unfold poppedAt
    split
    · exact hnil
    · exact (Function.update_of_ne (Nat.ne_of_lt hi) _ _).trans hnil
  · cases (popped c ls tid).1 with
    | none => exact h.nodup
    | some o => exact h.nodup.erase o
  · intro a
    rw [exists_mem_popped h.holds.spread hne, ← h.mem]
    cases (popped c ls tid).1 with
    | none => simp [pooled]
    | some o =>
      rw [show pooled S (.pop tid (Option.map Addr.obj (some o))) = S.erase o from rfl,
        h.nodup.mem_erase_iff]
      exact and_congr_left fun _ => not_congr
        ⟨fun heq => heq ▸ rfl, fun heq => (Option.some.inj heq).symm⟩

/-- A call keeps the invariant. -/
theorem step {a : Label α} {r : Pool α × List α} (h : Inv c s S ls) (hc : c.privateCount < 2 ^ 31)
    (hstep : restrict (Step c) (fun _ a => a.tid < c.maxThreadCount) (s, S) a r) :
    ∃ ls', Inv c r.1 r.2 ls' := by
  obtain ⟨hstep, htid⟩ := hstep
  cases hstep with
  | @push _ _ tid o ho =>
    have htid' : tid < c.sharedIdx := htid
    exact ⟨_, h.push hc htid' ho⟩
  | @pop _ t _ tid ret hpop =>
    have htid' : tid < c.sharedIdx := htid
    obtain ⟨u, hu, hinv⟩ := h.pop hc htid'
    rw [hu] at hpop
    cases hpop
    exact ⟨_, hinv⟩
  | @reclaim _ _ tid =>
    have htid' : tid < c.sharedIdx := htid
    dsimp only
    exact ⟨_, h.reclaim hc htid'⟩

omit [DecidableEq α] in
/-- The pooled objects are those of the slots, one after the other. -/
theorem perm (h : Inv c s S ls) : S.Perm ((List.range (c.sharedIdx + 1)).flatMap ls) := by
  have hnodup : ((List.range (c.sharedIdx + 1)).flatMap ls).Nodup := by
    refine List.nodup_flatMap.mpr ⟨fun i _ => h.holds.spread.nodup i, List.nodup_range.imp ?_⟩
    intro i j hij o hi hj
    exact hij (h.holds.spread.unique o i j hi hj)
  refine (List.perm_ext_iff_of_nodup h.nodup hnodup).mpr fun o => ?_
  rw [h.mem, List.mem_flatMap]
  constructor
  · rintro ⟨i, hi⟩
    refine ⟨i, List.mem_range.mpr ?_, hi⟩
    by_contra hlt
    rw [h.bounded.outside i (by omega)] at hi
    cases hi
  · rintro ⟨i, -, hi⟩
    exact ⟨i, hi⟩

omit [DecidableEq α] in
theorem sum_count (h : Inv c s S ls) (l : List ℕ) :
    (l.map s.count).sum = (l.map fun i => (ls i).length).sum := by
  induction l with
  | nil => rfl
  | cons i l ih =>
    simp only [List.map_cons, List.sum_cons, ih, h.holds.count]
    omega

omit [DecidableEq α] in
theorem getPoolingCount (h : Inv c s S ls) : s.getPoolingCount c = S.length := by
  rw [h.perm.length_eq, List.length_flatMap, ← h.sum_count, List.range_succ, List.map_append,
    List.sum_append, Pool.getPoolingCount]
  simp

end Inv

/-- In every run of threads with ids of their own, the lists hold exactly the objects pushed and not
yet popped, each once, and the counts are right. -/
theorem pool_conserves (hc : c.privateCount < 2 ^ 31) {xs : List (Label α)}
    (hrun : Run (restrict (Step c) fun _ a => a.tid < c.maxThreadCount) (create, []) xs (s, S)) :
    ∃ ls : ℕ → List α,
      (∀ i, Ring s.links (.slot i) ((ls i).map .obj) ∧ s.count i = (ls i).length) ∧
      (∀ i, (ls i).Nodup) ∧ (∀ o i j, o ∈ ls i → o ∈ ls j → i = j) ∧
      S.Nodup ∧ (∀ o, o ∈ S ↔ ∃ i ≤ c.sharedIdx, o ∈ ls i) ∧
      (∀ i < c.sharedIdx, (ls i).length ≤ c.sharingThreshold) ∧
      s.getPoolingCount c = S.length ∧
      ∀ tid < c.maxThreadCount, ∃ ret t, s.pop c tid = some (ret, t) ∧
        (ret = none ↔ ls tid = [] ∧ ls c.sharedIdx = []) ∧
        ∀ x, ret = some x → ∃ o ∈ S, x = .obj o := by
  have hinv : ∃ ls, Inv c s S ls := by
    refine hrun.invariant (P := fun r => ∃ ls, Inv c r.1 r.2 ls) ?_ ⟨_, inv_create c⟩
    intro r a t hstep hinv
    obtain ⟨ls, h⟩ := hinv
    exact h.step hc hstep
  obtain ⟨ls, h⟩ := hinv
  refine ⟨ls, fun i => ⟨h.holds.ring i, h.holds.count i⟩, h.holds.spread.nodup,
    h.holds.spread.unique, h.nodup, ?_, h.bounded.privateLen, h.getPoolingCount, ?_⟩
  · intro o
    rw [h.mem]
    constructor
    · rintro ⟨i, hi⟩
      refine ⟨i, ?_, hi⟩
      by_contra hlt
      rw [h.bounded.outside i (by omega)] at hi
      cases hi
    · rintro ⟨i, -, hi⟩
      exact ⟨i, hi⟩
  · intro tid htid
    have htid' : tid < c.sharedIdx := htid
    obtain ⟨t, ht, -⟩ := h.pop hc htid'
    refine ⟨_, t, ht, ?_, ?_⟩
    · rw [Option.map_eq_none_iff]
      exact popped_fst htid' fun hzero => h.unused hzero tid htid'
    · intro x hx
      obtain ⟨o, ho, rfl⟩ := Option.map_eq_some_iff.mp hx
      exact ⟨o, (h.mem o).mpr (popped_mem (Nat.ne_of_lt htid') ho), rfl⟩

end Runs

/-- Runs a call; the reply of a `pop` is computed. -/
def exec (c : Config) (r : Pool ℕ × List ℕ) : Label ℕ → Option (Label ℕ × Pool ℕ × List ℕ)
  | .push tid o =>
    if o ∈ r.2 then none else some (.push tid o, r.1.push c tid o, pooled r.2 (.push tid o))
  | .pop tid _ => (r.1.pop c tid).map fun q => (.pop tid q.1, q.2, pooled r.2 (.pop tid q.1))
  | .reclaim tid => some (.reclaim tid, r.1.reclaim c tid, r.2)

theorem step_of_exec (r : Pool ℕ × List ℕ) (i a : Label ℕ) (t : Pool ℕ × List ℕ)
    (h : exec c r i = some (a, t)) : Step c r a t := by
  cases i with
  | push tid o =>
    rw [exec] at h
    split at h
    · cases h
    · rename_i ho
      cases h
      exact .push ho
  | pop tid ret =>
    rw [exec] at h
    obtain ⟨q, hq, heq⟩ := Option.map_eq_some_iff.mp h
    cases heq
    exact .pop hq
  | reclaim tid =>
    cases h
    exact .reclaim

def smallConfig : Config := ⟨1, 2, 2, by decide⟩

/-- Thread 0 pushes beyond the threshold, and thread 1 takes what became shared. -/
def sharingCalls : List (Label ℕ) :=
  [.push 0 10, .push 0 11, .push 0 12, .pop 1 (some (.obj 12)), .reclaim 0]

theorem sharingCalls_conserved : ∃ s S, Run (restrict (Step smallConfig)
      fun _ a => a.tid < smallConfig.maxThreadCount) (create, []) sharingCalls (s, S) ∧
    S = [11, 10] ∧ s.getPoolingCount smallConfig = 2 := by
  obtain ⟨⟨s, S⟩, hrun, hS⟩ := exists_run_end (step_of_exec (c := smallConfig)) (create, [])
    sharingCalls Prod.snd (show _ = some (sharingCalls, [11, 10]) by decide +kernel)
  have hS : S = [11, 10] := hS
  subst hS
  have hrun' : Run (restrict (Step smallConfig) fun _ a => a.tid < smallConfig.maxThreadCount)
      (create, []) sharingCalls (s, [11, 10]) := hrun.restrict_labels (by decide)
  obtain ⟨ls, -, -, -, -, -, -, hcount, -⟩ := pool_conserves (by decide) hrun'
  exact ⟨s, _, hrun', rfl, hcount⟩

/-- `PRIVATE_COUNT` is negative as an `int32_t`. -/
def hugeConfig : Config := ⟨2 ^ 31, 2 ^ 31, 2, Nat.le_refl _⟩

/-- A thread with the id of the shared slot moves its object out of all lists; with a huge
`PRIVATE_COUNT`, `pop` does not find the shared object. -/
theorem objects_lost :
    (∃ s, Run (Step smallConfig) (create, []) [.push 2 7, .reclaim 2] (s, [7]) ∧
      ∀ i ∈ List.range 3, s.links.next (.slot i) = .slot i) ∧
    ∃ s, Run (Step hugeConfig) (create, []) [.push 0 7, .reclaim 0, .pop 0 none] (s, [7]) ∧
      s.links.next (.slot 0) = .slot 0 ∧ s.links.next (.slot 2) = .obj 7 := by
  constructor
  · obtain ⟨⟨s, S⟩, hrun, hend⟩ := exists_run_end (step_of_exec (c := smallConfig)) (create, [])
      [.push 2 7, .reclaim 2]
      (fun r => (r.2, decide (∀ i ∈ List.range 3, r.1.links.next (.slot i) = .slot i)))
      (show _ = some ([.push 2 7, .reclaim 2], [7], true) by decide +kernel)
    obtain ⟨hS, hlinks⟩ := Prod.mk.inj hend
    have hS : S = [7] := hS
    subst hS
    exact ⟨s, hrun, of_decide_eq_true hlinks⟩
  · obtain ⟨⟨s, S⟩, hrun, hend⟩ := exists_run_end (step_of_exec (c := hugeConfig)) (create, [])
      [.push 0 7, .reclaim 0, .pop 0 none]
      (fun r => (r.2, r.1.links.next (.slot 0), r.1.links.next (.slot 2)))
      (show _ = some ([.push 0 7, .reclaim 0, .pop 0 none], [7], .slot 0, .obj 7) by
        decide +kernel)
    obtain ⟨hS, hlinks⟩ := Prod.mk.inj hend
    have hS : S = [7] := hS
    subst hS
    exact ⟨s, hrun, Prod.mk.inj hlinks⟩

end YwStorage.Pool
