import YwStorage.Lib.Run
import YwStorage.SkipList.Remove

/-! What a skip list stores after any sequence of calls. -/
namespace YwStorage.Skip
open Chain

inductive Call
  | insert (k : Key)
  | remove (k : Key)
  deriving DecidableEq

/-- The keys that are stored after a call that has returned. -/
def Call.stored (stored : Finset Key) : Call → Finset Key
  | .insert k => if initKey < k ∧ k < lastKey then stored ∪ {k} else stored
  | .remove k => stored.erase k

/-- A key that can be removed: `INIT_KEY`, which `remove` refuses, or one that is stored. -/
def Call.Sound (stored : Finset Key) : Call → Prop
  | .insert _ => True
  | .remove k => k = initKey ∨ k ∈ stored

/-- What a call returns. -/
def Call.reply (stored : Finset Key) : Call → Bool
  | .insert k => k ≠ initKey
  | .remove k => k ∈ stored

namespace SkipList

def call (s : SkipList) (fuel : ℕ) : Call → Option (Bool × SkipList)
  | .insert k => s.insert k fuel
  | .remove k => s.remove k fuel

/-- The columns of the list are those of the stored keys. -/
structure Stores (s : SkipList) (cols : List Column) (stored : Finset Key) : Prop
    extends s.Valid cols where
  stored : ∀ k, k ∈ stored ↔ k ∈ cols.map Column.key

variable {s t : SkipList} {cols : List Column} {stored : Finset Key} {k : Key}

theorem init_stores {level : ℕ} (hpos : 0 < level) (hbound : level ≤ maxLevel) :
    (init level).Stores [] ∅ where
  sorted := List.Pairwise.nil
  inner := nofun
  height := nofun
  made := by simp [On]
  apart := by simp [On]
  keys := by simp [On]
  up := by simp [On]
  top := by simp [On]
  down := by simp [On]
  bottom := by simp [On]
  headDown r hr := by
    have hlevel : (init level).level = level := rfl
    rw [hlevel] at hr
    simp only [headAt, init]
    rw [if_neg (by omega)]
    congr 1
    omega
  tailKey _ := rfl
  lanes _ _ := rfl
  full := nofun
  positive := hpos
  bound := hbound
  keyCount := rfl
  nodeCount := rfl
  stored := by simp

theorem Stores.insert (h : s.Stores cols stored) (k : Key) :
    ∃ t cols', Fuel.Returns (fun fuel => s.insert k fuel) (decide (k ≠ initKey), t) ∧
      t.Stores cols' ((Call.insert k).stored stored) ∧ t.level = s.level := by
  by_cases hinit : k = initKey
  · refine ⟨s.getNewLevel.2, cols, ?_, ?_, rfl⟩
    · refine (Fuel.Returns.const _).congr fun fuel => ?_
      simp [SkipList.insert, hinit]
    · simp only [Call.stored, hinit, lt_irrefl, false_and, if_false]
      exact ⟨h.getNewLevel, h.stored⟩
  have hpos : initKey < k := Fin.pos_iff_ne_zero.mpr hinit
  by_cases hdup : k = lastKey ∨ k ∈ cols.map Column.key
  · refine ⟨s.getNewLevel.2, cols, ?_, ⟨h.getNewLevel, fun k' => ?_⟩, rfl⟩
    · simpa [hinit] using h.insert_dup hinit hdup
    · rw [← h.stored]
      simp only [Call.stored]
      split_ifs with hlt
      · have hmem := (h.stored k).mpr (hdup.resolve_left hlt.2.ne)
        simp only [Finset.mem_union, Finset.mem_singleton, or_iff_left_iff_imp]
        rintro rfl
        exact hmem
      · rfl
  · obtain ⟨hlast, hnew⟩ := not_or.mp hdup
    obtain ⟨A, B, rfl, hparted⟩ := exists_parted h.sorted k
    have hlt : initKey < k ∧ k < lastKey := ⟨hpos, lt_of_le_of_ne (le_lastKey k) hlast⟩
    have habove : ∀ c ∈ B, k < c.key := fun c hc =>
      lt_of_le_of_ne (hparted.above c hc) fun heq =>
        hnew (heq ▸ List.mem_map_of_mem (List.mem_append_right A hc))
    obtain ⟨t, ns, hret, hvalid, hlevel⟩ := h.insert_new hparted.below habove hlt
    refine ⟨t, _, by simpa [hinit] using hret, ⟨hvalid, fun k' => ?_⟩, hlevel⟩
    simp only [Call.stored, if_pos hlt, Finset.mem_union, Finset.mem_singleton, h.stored,
      List.map_append, List.map_cons, List.mem_append, List.mem_cons]
    tauto

theorem Stores.remove (h : s.Stores cols stored) (hk : k ∈ stored) :
    ∃ t cols', Fuel.Returns (fun fuel => s.remove k fuel) (true, t) ∧
      t.Stores cols' (stored.erase k) ∧ t.level = s.level := by
  obtain ⟨c, hc, rfl⟩ := List.mem_map.mp ((h.stored k).mp hk)
  obtain ⟨A, B, rfl⟩ := List.append_of_mem hc
  obtain ⟨t, hret, hvalid, hlevel⟩ := h.toValid.remove
  refine ⟨t, _, hret, ⟨hvalid, fun k' => ?_⟩, hlevel⟩
  have hother : c.key ∉ (A ++ B).map Column.key := by
    intro hmem
    obtain ⟨d, hd, heq⟩ := List.mem_map.mp hmem
    rcases List.mem_append.mp hd with hd | hd
    · exact (h.around.1 d hd).ne heq
    · exact (h.around.2 d hd).ne' heq
  rw [Finset.mem_erase, h.stored]
  simp only [List.map_append, List.map_cons, List.mem_append, List.mem_cons] at hother ⊢
  constructor
  · tauto
  · intro hk'
    refine ⟨?_, by tauto⟩
    rintro rfl
    exact hother hk'

theorem remove_initKey (s : SkipList) :
    Fuel.Returns (fun fuel => s.remove initKey fuel) (false, s) :=
  (Fuel.Returns.const _).congr fun _ => (if_pos rfl).symm

/-- Every sound call returns what it should, and stores what it should. -/
theorem Stores.call (h : s.Stores cols stored) {a : Call} (ha : a.Sound stored) :
    ∃ t cols', Fuel.Returns (fun fuel => s.call fuel a) (a.reply stored, t) ∧
      t.Stores cols' (a.stored stored) ∧ t.level = s.level := by
  cases a with
  | insert k => exact h.insert k
  | remove k =>
    by_cases hk : k ∈ stored
    · rw [show (Call.remove k).reply stored = true by simp [Call.reply, hk]]
      exact h.remove hk
    · obtain rfl := ha.resolve_right hk
      rw [show (Call.remove initKey).reply stored = false by simp [Call.reply, hk]]
      refine ⟨s, cols, s.remove_initKey, ?_, rfl⟩
      simpa [Call.stored, hk] using h

/-- The chains run from the heads to the tails through stored keys, and the one at the bottom
through all of them. -/
def Chains (s : SkipList) (stored : Finset Key) : Prop :=
  ∀ i < s.level, ∃ ps, Seg s.next (.head i) ps (.tail i) ∧ (∀ p ∈ ps, s.key p ∈ stored) ∧
    (i + 1 = s.level → ∀ k ∈ stored, ∃ p ∈ ps, s.key p = k)

theorem Built.chain (h : s.Built cols) {i : ℕ} (hi : i < s.level) :
    Seg s.next (.head i) (lane (s.level - 1 - i) cols) (.tail i) := by
  have hseg := h.lanes (s.level - 1 - i) (by omega)
  have hindex : s.level - 1 - (s.level - 1 - i) = i := by omega
  rwa [headAt, tailAt, hindex] at hseg

/-- The keys on the bottom level. -/
theorem Stores.mem_bottom (h : s.Stores cols stored) :
    k ∈ stored ↔ ∃ p ∈ lane 0 cols, s.key p = k := by
  rw [h.stored]
  constructor
  · intro hk
    obtain ⟨c, hc, rfl⟩ := List.mem_map.mp hk
    obtain ⟨n, ns, hnodes⟩ := List.exists_cons_of_ne_nil (h.full c hc)
    have hon : On cols c.key 0 n := ⟨c, hc, rfl, by simp [hnodes]⟩
    exact ⟨.node n, mem_lane.mpr ⟨_, n, hon, rfl⟩, h.keys hon⟩
  · rintro ⟨p, hp, rfl⟩
    obtain ⟨k, n, hon, rfl⟩ := mem_lane.mp hp
    rw [h.keys hon]
    obtain ⟨c, hc, rfl, -⟩ := hon
    exact List.mem_map_of_mem hc

theorem Stores.chains (h : s.Stores cols stored) : s.Chains stored := by
  intro i hi
  refine ⟨_, h.chain hi, fun p hp => ?_, fun hlast k hk => ?_⟩
  · obtain ⟨k, n, hon, rfl⟩ := mem_lane.mp hp
    rw [h.keys hon, h.stored]
    obtain ⟨c, hc, rfl, -⟩ := hon
    exact List.mem_map_of_mem hc
  · have hbottom : s.level - 1 - i = 0 := by omega
    rw [hbottom]
    exact h.mem_bottom.mp hk

/-- What the caller of `remove` expects. -/
def RemovesWell (s : SkipList) (stored : Finset Key) (target : Key) : Prop :=
  ∃ ret t, Fuel.Returns (fun fuel => s.remove target fuel) (ret, t) ∧
    (ret = true ↔ target ∈ stored) ∧ t.level = s.level ∧ t.Chains (stored.erase target)

/-- Only `INIT_KEY` is refused. -/
theorem remove_true {target : Key} {fuel : ℕ} {ret : Bool} (htarget : target ≠ initKey)
    (hret : s.remove target fuel = some (ret, t)) : ret = true := by
  rw [remove, if_neg htarget, Option.bind_eq_some_iff] at hret
  obtain ⟨r, -, hret⟩ := hret
  obtain ⟨q, -, hret⟩ := Option.bind_eq_some_iff.mp hret
  split_ifs at hret
  exact (Prod.mk.inj (Option.some.inj hret)).1.symm

theorem Stores.removesWell_iff (h : s.Stores cols stored) (target : Key) :
    s.RemovesWell stored target ↔ target = initKey ∨ target ∈ stored := by
  constructor
  · rintro ⟨ret, t, ⟨n, hn⟩, hret, -⟩
    by_cases htarget : target = initKey
    · exact Or.inl htarget
    · exact Or.inr (hret.mp (remove_true htarget (hn n le_rfl)))
  · intro hsound
    obtain ⟨t, cols', hret, ht, hlevel⟩ := h.call (a := .remove target) hsound
    exact ⟨_, t, hret, by simp [Call.reply], hlevel, ht.chains⟩

section Search
variable {target : Key}

theorem searchLoop_mono {fuel i : ℕ} {cursor : Ptr} {history : ℕ → Ptr} {r : Ptr × (ℕ → Ptr)}
    (h : s.searchLoop target fuel cursor i history = some r) :
    s.searchLoop target (fuel + 1) cursor i history = some r := by
  induction fuel generalizing cursor i history with
  | zero => cases h
  | succ fuel ih =>
    rw [searchLoop] at h ⊢
    split_ifs at h ⊢
    · exact ih h
    · exact h
    · exact ih h

end Search

/-- `continue` tests `depth`, which is still zero, and nothing changes from turn to turn. -/
theorem Stores.remove_absent (h : s.Stores cols stored) {target : Key} (hinit : target ≠ initKey)
    (hlast : target ≠ lastKey) (habsent : target ∉ stored) (fuel : ℕ) :
    s.remove target fuel = none := by
  obtain ⟨A, B, rfl, hparted⟩ := exists_parted h.sorted target
  obtain ⟨history, hret, -⟩ := h.searchFrom_returns hparted h.positive
  have hkey : s.key (s.next (s.front 0 A)) ≠ target := by
    obtain ⟨-, hkey | ⟨c, hc, hkey⟩⟩ := h.next_front_cases h.positive
    · exact hkey ▸ hlast.symm
    · rintro rfl
      exact habsent ((h.stored _).mpr (hkey ▸ List.mem_map_of_mem (List.mem_append_right A hc)))
  have hloop : ∀ turns held, s.removeLoop target fuel turns held = none := by
    intro turns
    induction turns with
    | zero => exact fun held => rfl
    | succ turns ih =>
      intro held
      rw [SkipList.removeLoop]
      cases hsearch : s.searchFrom target fuel with
      | none => rfl
      | some r =>
        obtain rfl := hret.eq_of_mono (fun _ _ hr => searchLoop_mono hr) hsearch
        rw [Option.bind_some, if_pos hkey]
        exact ih held
  rw [SkipList.remove, if_neg hinit, hloop fuel []]
  rfl

end SkipList

/-- A call with what it returns, and the keys that are stored. -/
def Step (x : SkipList × Finset Key) (a : Call × Bool) (y : SkipList × Finset Key) : Prop :=
  Fuel.Returns (fun fuel => x.1.call fuel a.1) (a.2, y.1) ∧ y.2 = a.1.stored x.2

/-- After any sound calls the columns are those of the stored keys. -/
theorem stores_run {level : ℕ} (hpos : 0 < level) (hbound : level ≤ maxLevel)
    {xs : List (Call × Bool)} {y : SkipList × Finset Key}
    (hrun : Lts.Run (Lts.restrict Step fun x a => a.1.Sound x.2) (init level, ∅) xs y) :
    ∃ cols, y.1.Stores cols y.2 ∧ y.1.level = level := by
  refine hrun.invariant
    (P := fun y : SkipList × Finset Key => ∃ cols, y.1.Stores cols y.2 ∧ y.1.level = level) ?_
    ⟨[], SkipList.init_stores hpos hbound, rfl⟩
  rintro ⟨s, stored⟩ ⟨a, ret⟩ ⟨t, stored'⟩ ⟨⟨hret, rfl⟩, hsound⟩ ⟨cols, h, hlevel⟩
  obtain ⟨t', cols', hret', ht, hlevel'⟩ := h.call hsound
  obtain ⟨-, rfl⟩ := Prod.mk.inj (hret.unique hret')
  exact ⟨cols', ht, hlevel'.trans hlevel⟩

/-- As long as only `INIT_KEY` and stored keys are removed, the chains are in order, and removing a
key works exactly for these. -/
theorem remove_total_iff {level : ℕ} (hpos : 0 < level) (hbound : level ≤ maxLevel)
    {xs : List (Call × Bool)} {s : SkipList} {stored : Finset Key}
    (hrun : Lts.Run (Lts.restrict Step fun x a => a.1.Sound x.2) (init level, ∅) xs (s, stored))
    (target : Key) :
    s.Chains stored ∧ (s.RemovesWell stored target ↔ target = initKey ∨ target ∈ stored) := by
  obtain ⟨cols, h, -⟩ := stores_run hpos hbound hrun
  exact ⟨h.chains, h.removesWell_iff target⟩

theorem SkipList.Stores.exists_step {s : SkipList} {cols : List Column} {stored : Finset Key}
    (h : s.Stores cols stored) {a : Call} (ha : a.Sound stored) :
    ∃ t cols', Step (s, stored) (a, a.reply stored) (t, a.stored stored) ∧
      t.Stores cols' (a.stored stored) := by
  obtain ⟨t, cols', hret, ht, -⟩ := h.call ha
  exact ⟨t, cols', ⟨hret, rfl⟩, ht⟩

theorem stored_key_removed : ∃ s,
    Lts.Run (Lts.restrict Step fun x a => a.1.Sound x.2) (init 8, ∅) [(.insert 5, true)] (s, {5}) ∧
    s.Chains {5} ∧ s.RemovesWell {5} 5 := by
  have h₀ : (init 8).Stores [] ∅ := SkipList.init_stores (by decide) (by decide)
  obtain ⟨s, cols, hstep, -⟩ := h₀.exists_step (a := .insert 5) trivial
  have hrun : Lts.Run (Lts.restrict Step fun x a => a.1.Sound x.2) (init 8, ∅)
      [(.insert 5, true)] (s, {5}) := Lts.Run.single ⟨hstep, trivial⟩
  obtain ⟨hchains, hiff⟩ := remove_total_iff (by decide) (by decide) hrun 5
  exact ⟨s, hrun, hchains, hiff.mpr (Or.inr (by decide))⟩

/-- On an empty list `remove` of a key never returns, and `remove(LAST_KEY)` takes out the tails,
whose `next` leads back to the heads. -/
theorem absent_keys_not_removed : (∀ fuel, (init 8).remove 7 fuel = none) ∧
    ((init 8).remove lastKey 20).map (fun r => (r.1, r.2.next (.head 0), r.2.keyCount)) =
      some (true, .head 0, -1) := by
  refine ⟨?_, by decide⟩
  exact (SkipList.init_stores (by decide) (by decide)).remove_absent (by decide) (by decide)
    (by simp)

end YwStorage.Skip
