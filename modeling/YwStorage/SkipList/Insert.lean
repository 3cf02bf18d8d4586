import YwStorage.SkipList.Columns

/-! `insert` adds a column: its nodes are linked in one by one, from the bottom up. -/
namespace YwStorage.Skip
open Chain

variable {s : SkipList} {cols A B : List Column} {ns : List ℕ} {r r' n m : ℕ} {p : Ptr}
  {k k' target : Key} {history : ℕ → Ptr}

/-- The node that a tower ends with. -/
def topOf (ns : List ℕ) : Ptr := ((ns.getLast?).map Ptr.node).getD .null

theorem lane_concat (hr : r ≠ ns.length) :
    lane r (A ++ ⟨k, ns ++ [n]⟩ :: B) = lane r (A ++ ⟨k, ns⟩ :: B) := by
  have hget : (ns ++ [n])[r]? = ns[r]? := by
    rcases Nat.lt_or_gt_of_ne hr with hlt | hgt
    · exact List.getElem?_append_left hlt
    · rw [List.getElem?_eq_none hgt.le, List.getElem?_eq_none]
      simp only [List.length_append, List.length_singleton]
      omega
  simp [lane_append, lane_cons, hget]

theorem lane_concat_self : lane ns.length (A ++ ⟨k, ns ++ [n]⟩ :: B) =
    lane ns.length A ++ .node n :: lane ns.length B := by
  simp [lane_append, lane_cons]

theorem lane_length : lane ns.length (A ++ ⟨k, ns⟩ :: B) =
    lane ns.length A ++ lane ns.length B := by
  simp [lane_append, lane_cons]

/-- A longer tower has one more node. -/
theorem on_concat : On (A ++ ⟨k, ns ++ [m]⟩ :: B) k' r n ↔
    On (A ++ ⟨k, ns⟩ :: B) k' r n ∨ (k' = k ∧ r = ns.length ∧ n = m) := by
  have hget : (ns ++ [m])[r]? = some n ↔ ns[r]? = some n ∨ (r = ns.length ∧ n = m) := by
    rcases lt_trichotomy r ns.length with hlt | rfl | hgt
    · simp [List.getElem?_append_left hlt, hlt.ne]
    · simp [eq_comm]
    · have hlen : (ns ++ [m]).length ≤ r := by
        simp only [List.length_append, List.length_singleton]
        omega
      simp [List.getElem?_eq_none hlen, List.getElem?_eq_none hgt.le, hgt.ne']
  simp only [On, List.mem_append, List.mem_cons]
  constructor
  · rintro ⟨c, hc | rfl | hc, rfl, hn⟩
    · exact Or.inl ⟨c, Or.inl hc, rfl, hn⟩
    · rcases hget.mp hn with hn | ⟨rfl, rfl⟩
      · exact Or.inl ⟨_, Or.inr (Or.inl rfl), rfl, hn⟩
      · exact Or.inr ⟨rfl, rfl, rfl⟩
    · exact Or.inl ⟨c, Or.inr (Or.inr hc), rfl, hn⟩
  · rintro (⟨c, hc | rfl | hc, rfl, hn⟩ | ⟨rfl, rfl, rfl⟩)
    · exact ⟨c, Or.inl hc, rfl, hn⟩
    · exact ⟨_, Or.inr (Or.inl rfl), rfl, hget.mpr (Or.inl hn)⟩
    · exact ⟨c, Or.inr (Or.inr hc), rfl, hn⟩
    · exact ⟨_, Or.inr (Or.inl rfl), rfl, hget.mpr (Or.inr ⟨rfl, rfl⟩)⟩

namespace SkipList

/-- The nodes of the column that is being built. -/
theorem Towers.on_tower (h : s.Towers (A ++ ⟨k, ns⟩ :: B)) :
    On (A ++ ⟨k, ns⟩ :: B) k r n ↔ ns[r]? = some n := by
  constructor
  · rintro ⟨c, hc, hkey, hn⟩
    have heq : c = ⟨k, ns⟩ := h.column_unique hc (by simp) hkey
    rwa [heq] at hn
  · intro hn
    exact ⟨⟨k, ns⟩, by simp, rfl, hn⟩

theorem Towers.topOf_eq (h : s.Towers (A ++ ⟨k, ns⟩ :: B)) :
    topOf ns = .node n ↔ ∃ r, r + 1 = ns.length ∧ On (A ++ ⟨k, ns⟩ :: B) k r n := by
  simp only [h.on_tower, topOf, List.getLast?_eq_getElem?]
  cases ns with
  | nil => simp
  | cons x ns => simp [eq_comm]

/-- The links upwards: the old top leads to the new node, which is the top now. -/
theorem Towers.link_up (h : s.Towers (A ++ ⟨k, ns⟩ :: B)) (p : Ptr) :
    (s.link k history (topOf ns) (ns.length + 1)).up p =
      if p = .node s.made then .null else if p = topOf ns ∧ p ≠ .null then .node s.made
      else s.up p := by
  have htop : topOf ns ≠ .node s.made := by
    intro heq
    obtain ⟨r, -, hon⟩ := h.topOf_eq.mp heq
    exact absurd (h.made hon) (lt_irrefl _)
  by_cases hnull : topOf ns = .null
  · simp [SkipList.link, hnull, Function.update_apply]
  · simp only [SkipList.link, if_neg hnull, Function.update_apply]
    split_ifs <;> simp_all

theorem Towers.link (h : s.Towers (A ++ ⟨k, ns⟩ :: B)) (hlen : ns.length < s.level) :
    (s.link k history (topOf ns) (ns.length + 1)).Towers (A ++ ⟨k, ns ++ [s.made]⟩ :: B) := by
  have hnew : ∀ {k' r n}, On (A ++ ⟨k, ns⟩ :: B) k' r n → n ≠ s.made := fun hon heq =>
    absurd (h.made hon) (heq ▸ lt_irrefl _)
  have htop : ∀ {r n}, ns.length ≤ r → ¬ On (A ++ ⟨k, ns⟩ :: B) k r n := by
    intro r n hr hon
    have hget := h.on_tower.mp hon
    simp [List.getElem?_eq_none hr] at hget
  have hcols : ∀ c ∈ A ++ ⟨k, ns ++ [s.made]⟩ :: B,
      c ∈ A ++ ⟨k, ns⟩ :: B ∨ c = ⟨k, ns ++ [s.made]⟩ := by
    intro c hc
    simp only [List.mem_append, List.mem_cons] at hc ⊢
    tauto
  refine ⟨?_, ?_, ?_, ?_, ?_, ?_, ?_, ?_, ?_, ?_, h.headDown, ?_⟩
  · simpa using h.sorted
  · intro c hc
    rcases hcols c hc with hc | rfl
    · exact h.inner c hc
    · exact h.inner ⟨k, ns⟩ (by simp)
  · intro c hc
    rcases hcols c hc with hc | rfl
    · exact h.height c hc
    · show (ns ++ [s.made]).length ≤ s.level
      simp only [List.length_append, List.length_singleton]
      omega
  · intro k' r n hon
    rcases on_concat.mp hon with hon | ⟨-, -, rfl⟩
    · exact Nat.lt_succ_of_lt (h.made hon)
    · exact Nat.lt_succ_self _
  · intro k₁ k₂ r₁ r₂ n h₁ h₂
    rcases on_concat.mp h₁ with h₁ | ⟨rfl, rfl, rfl⟩
    · rcases on_concat.mp h₂ with h₂ | ⟨-, -, rfl⟩
      · exact h.apart h₁ h₂
      · exact absurd rfl (hnew h₁)
    · rcases on_concat.mp h₂ with h₂ | ⟨rfl, rfl, -⟩
      · exact absurd rfl (hnew h₂)
      · exact ⟨rfl, rfl⟩
  · intro k' r n hon
    rcases on_concat.mp hon with hon | ⟨rfl, -, rfl⟩
    · have hne : Ptr.node n ≠ .node s.made := fun heq => hnew hon (Ptr.node.inj heq)
      exact (Function.update_of_ne hne ..).trans (h.keys hon)
    · exact Function.update_self ..
  · intro k' r n m hn hm
    rw [h.link_up]
    rcases on_concat.mp hn with hn | ⟨rfl, rfl, rfl⟩
    · rw [if_neg fun heq => hnew hn (Ptr.node.inj heq)]
      rcases on_concat.mp hm with hm | ⟨rfl, hr, rfl⟩
      · rw [if_neg, h.up hn hm]
        rintro ⟨heq, -⟩
        obtain ⟨r', hr', hon⟩ := h.topOf_eq.mp heq.symm
        obtain ⟨rfl, rfl⟩ := h.apart hn hon
        exact htop hr'.ge hm
      · exact if_pos ⟨(h.topOf_eq.mpr ⟨r, hr, hn⟩).symm, by simp⟩
    · rcases on_concat.mp hm with hm | ⟨-, hr, -⟩
      · exact absurd hm (htop (Nat.le_succ _))
      · exact absurd hr (Nat.succ_ne_self _)
  · intro k' r n hon hno
    rw [h.link_up]
    rcases on_concat.mp hon with hon | ⟨rfl, rfl, rfl⟩
    · rw [if_neg fun heq => hnew hon (Ptr.node.inj heq), if_neg]
      · exact h.top hon fun m hm => hno m (on_concat.mpr (Or.inl hm))
      · rintro ⟨heq, -⟩
        obtain ⟨r', hr', hon'⟩ := h.topOf_eq.mp heq.symm
        obtain ⟨rfl, rfl⟩ := h.apart hon hon'
        exact hno s.made (on_concat.mpr (Or.inr ⟨rfl, hr', rfl⟩))
    · exact if_pos rfl
  · intro k' r n m hn hm
    rcases on_concat.mp hm with hm | ⟨rfl, hr, rfl⟩
    · have hne : Ptr.node m ≠ .node s.made := fun heq => hnew hm (Ptr.node.inj heq)
      rcases on_concat.mp hn with hn | ⟨rfl, rfl, -⟩
      · exact (Function.update_of_ne hne ..).trans (h.down hn hm)
      · exact absurd hm (htop (Nat.le_succ _))
    · rcases on_concat.mp hn with hn | ⟨-, rfl, -⟩
      · exact (Function.update_self ..).trans (h.topOf_eq.mpr ⟨r, hr, hn⟩)
      · exact absurd hr (Nat.succ_ne_self _)
  · intro k' n hon
    rcases on_concat.mp hon with hon | ⟨rfl, hr, rfl⟩
    · have hne : Ptr.node n ≠ .node s.made := fun heq => hnew hon (Ptr.node.inj heq)
      exact (Function.update_of_ne hne ..).trans (h.bottom hon)
    · obtain rfl := List.length_eq_zero_iff.mp hr.symm
      exact Function.update_self ..
  · intro i
    have hne : Ptr.tail i ≠ .node s.made := nofun
    show Function.update s.key (.node s.made) k (.tail i) = lastKey
    rw [Function.update_of_ne hne, h.tailKey]

theorem front_mem_append : s.front r A ∈ s.headAt r :: lane r (A ++ B) := by
  rw [lane_append]
  exact List.cons_subset_cons _ (List.subset_append_left ..) front_mem

theorem Built.link (h : s.Built (A ++ ⟨k, ns⟩ :: B)) (hlen : ns.length < s.level)
    (hbase : history (s.level - (ns.length + 1)) = s.front ns.length A) :
    (s.link k history (topOf ns) (ns.length + 1)).Built (A ++ ⟨k, ns ++ [s.made]⟩ :: B) where
  toTowers := h.toTowers.link hlen
  lanes r hr := by
    have hnew : Ptr.node s.made ∉ s.headAt r :: lane r (A ++ ⟨k, ns⟩ :: B) := by
      intro hmem
      rcases List.mem_cons.mp hmem with heq | hmem
      · cases heq
      · obtain ⟨k', n, hon, heq⟩ := mem_lane.mp hmem
        exact absurd (h.made hon) (Ptr.node.inj heq ▸ lt_irrefl _)
    have hseg := h.lanes r hr
    show Seg (Function.update (Function.update s.next (.node s.made)
      (s.next (history (s.level - (ns.length + 1))))) (history (s.level - (ns.length + 1)))
      (.node s.made)) (s.headAt r) _ (s.tailAt r)
    rw [hbase]
    by_cases hlane : r = ns.length
    · subst hlane
      have hnodup := h.toTowers.lane_nodup (r := ns.length)
      rw [lane_length] at hseg hnew hnodup
      rw [lane_concat_self]
      exact hseg.insert hnodup hnew
    · rw [lane_concat hlane]
      refine (hseg.write hnew).write fun hmem => hlane ?_
      exact h.lanes_apart hr hlen hmem front_mem_append

/-- The tower of a new column is built up to `m` more levels. -/
theorem Built.linkLoop (h : s.Built (A ++ ⟨k, ns⟩ :: B)) (hlen : ns.length + m ≤ s.level)
    (hhistory : ∀ q < s.level, history (s.level - 1 - q) = s.front q A) :
    ∃ s' ms, linkLoop k history (List.range' (ns.length + 1) m) s (topOf ns) = some s' ∧
      s'.Built (A ++ ⟨k, ns ++ ms⟩ :: B) ∧ ms.length = m ∧ s'.level = s.level ∧
      s'.seq = s.seq ∧ s'.keyCount = s.keyCount ∧ s'.nodeCount = s.nodeCount := by
  induction m generalizing s ns with
  | zero =>
    refine ⟨s, [], rfl, ?_, rfl, rfl, rfl, rfl, rfl⟩
    simpa using h
  | succ m ih =>
    have hlt : ns.length < s.level := by omega
    have hbase : history (s.level - (ns.length + 1)) = s.front ns.length A := by
      rw [Nat.add_comm, ← Nat.sub_sub]
      exact hhistory ns.length hlt
    have hstep := h.link hlt hbase
    have hlen' : (ns ++ [s.made]).length + m ≤ s.level := by
      simp only [List.length_append, List.length_singleton]
      omega
    obtain ⟨s', ms, hloop, hs', hms, hlevel, hseq, hkeys, hnodes⟩ := ih hstep hlen' hhistory
    refine ⟨s', s.made :: ms, ?_, by simpa using hs', by simpa using hms, hlevel, hseq, hkeys,
      hnodes⟩
    have hnull : history (s.level - (ns.length + 1)) ≠ .null :=
      hbase ▸ ne_null_of_mem_lane front_mem
    rw [List.range'_succ, SkipList.linkLoop, if_neg hnull]
    simpa [topOf] using hloop

/-- The nodes that `insert` locks are different ones, and there is room for them on the stack. -/
theorem Built.lockBases (h : s.Built (A ++ B)) (hbound : s.level ≤ maxLevel)
    (habove : ∀ r < s.level, target < s.key (s.next (s.front r A)))
    (hhistory : ∀ q < s.level, history (s.level - 1 - q) = s.front q A) {j : ℕ} {held : List Ptr}
    (hheld : ∀ p ∈ held, ∃ q < j, p = s.front q A) (hlen : held.length = j)
    (hj : j + m ≤ s.level) :
    ∃ held', s.lockBases target history (List.range' (j + 1) m) held = some (some held') := by
  induction m generalizing j held with
  | zero => exact ⟨held, rfl⟩
  | succ m ih =>
    have hlt : j < s.level := by omega
    have hbase : history (s.level - (j + 1)) = s.front j A := by
      rw [Nat.add_comm, ← Nat.sub_sub]
      exact hhistory j hlt
    have hfree : s.front j A ∉ held := by
      intro hmem
      obtain ⟨q, hq, heq⟩ := hheld _ hmem
      have hmem' : s.front j A ∈ s.headAt q :: lane q (A ++ B) := heq ▸ front_mem_append
      exact hq.ne' (h.lanes_apart hlt (hq.trans hlt) front_mem_append hmem')
    have hlock : lock held (s.front j A) = some (true, s.front j A :: held) := by
      have hroom : held.length < 2 * maxLevel := by omega
      simp [lock, ne_null_of_mem_lane front_mem, hfree, hroom]
    have hheld' : ∀ p ∈ s.front j A :: held, ∃ q < j + 1, p = s.front q A := by
      intro p hp
      rcases List.mem_cons.mp hp with rfl | hp
      · exact ⟨j, Nat.lt_succ_self j, rfl⟩
      · obtain ⟨q, hq, heq⟩ := hheld p hp
        exact ⟨q, hq.trans (Nat.lt_succ_self j), heq⟩
    obtain ⟨held', hrest⟩ := ih hheld' (by simp [hlen]) (by omega)
    refine ⟨held', ?_⟩
    rw [List.range'_succ, SkipList.lockBases, hbase, hlock]
    simpa [not_le.mpr (habove j hlt)] using hrest

theorem newLevelLoop_bounds (seq : UInt64) (i : ℕ) :
    1 ≤ newLevelLoop seq i ∧ newLevelLoop seq i ≤ i + 1 := by
  induction i with
  | zero => exact ⟨le_rfl, le_rfl⟩
  | succ i ih =>
    rw [newLevelLoop]
    split_ifs
    · exact ⟨by omega, le_rfl⟩
    · exact ⟨ih.1, ih.2.trans (Nat.le_succ _)⟩

/-- A column without nodes can be put anywhere. -/
theorem Built.addColumn (h : s.Built (A ++ B)) (hbelow : ∀ c ∈ A, c.key < k)
    (habove : ∀ c ∈ B, k < c.key) (hk : initKey < k ∧ k < lastKey) :
    s.Built (A ++ ⟨k, []⟩ :: B) := by
  have hon : ∀ {k' r n}, On (A ++ ⟨k, []⟩ :: B) k' r n → On (A ++ B) k' r n := by
    rintro k' r n ⟨c, hc, rfl, hn⟩
    rcases List.mem_append.mp hc with hc | hc
    · exact ⟨c, List.mem_append_left B hc, rfl, hn⟩
    · rcases List.mem_cons.mp hc with rfl | hc
      · simp at hn
      · exact ⟨c, List.mem_append_right A hc, rfl, hn⟩
  have hon' : ∀ {k' r n}, On (A ++ B) k' r n → On (A ++ ⟨k, []⟩ :: B) k' r n := by
    rintro k' r n ⟨c, hc, rfl, hn⟩
    refine ⟨c, ?_, rfl, hn⟩
    simp only [List.mem_append, List.mem_cons] at hc ⊢
    tauto
  have hcols : ∀ c ∈ A ++ ⟨k, []⟩ :: B, c ∈ A ++ B ∨ c = ⟨k, []⟩ := by
    intro c hc
    simp only [List.mem_append, List.mem_cons] at hc ⊢
    tauto
  refine ⟨⟨?_, ?_, ?_, fun hn => h.made (hon hn), fun hn hn' => h.apart (hon hn) (hon hn'),
    fun hn => h.keys (hon hn), fun hn hm => h.up (hon hn) (hon hm),
    fun hn hno => h.top (hon hn) fun m hm => hno m (hon' hm),
    fun hn hm => h.down (hon hn) (hon hm), fun hn => h.bottom (hon hn), h.headDown, h.tailKey⟩,
    fun r hr => ?_⟩
  · have hsorted := h.sorted
    simp only [List.map_append, List.map_cons, List.pairwise_append, List.pairwise_cons,
      List.mem_map, List.mem_cons, forall_exists_index, and_imp, forall_apply_eq_imp_iff₂] at *
    obtain ⟨hA, hB, hAB⟩ := hsorted
    refine ⟨hA, ⟨habove, hB⟩, ?_⟩
    rintro c hc k' (rfl | ⟨d, hd, rfl⟩)
    · exact hbelow c hc
    · exact hAB c hc d hd
  · intro c hc
    rcases hcols c hc with hc | rfl
    · exact h.inner c hc
    · exact hk
  · intro c hc
    rcases hcols c hc with hc | rfl
    · exact h.height c hc
    · exact Nat.zero_le _
  · have hlane : lane r (A ++ ⟨k, []⟩ :: B) = lane r (A ++ B) := by
      simp [lane_append, lane_cons]
    rw [hlane]
    exact h.lanes r hr

theorem Valid.getNewLevel (h : s.Valid cols) : s.getNewLevel.2.Valid cols where
  toBuilt := h.toBuilt.withCounts (s.seq + 1) s.keyCount s.nodeCount
  full := h.full
  positive := h.positive
  bound := h.bound
  keyCount := h.keyCount
  nodeCount := h.nodeCount

/-- A turn of `insert` that finds the key, or `LAST_KEY`, on the bottom level. -/
theorem Valid.insertLoop_dup (h : s.Valid (A ++ B)) (hparted : Parted k A B)
    (hdup : k = lastKey ∨ k ∈ (A ++ B).map Column.key) (newNodeLevel : ℕ) :
    Fuel.Returns (fun fuel => s.insertLoop k newNodeLevel fuel fuel) none := by
  obtain ⟨history, hret, -⟩ := h.searchFrom_returns hparted h.positive
  have hle : s.key (s.next (s.front 0 A)) ≤ k := by
    rcases hdup with rfl | hmem
    · exact le_lastKey _
    · obtain ⟨c, hc, rfl⟩ := List.mem_map.mp hmem
      replace hc : c ∈ B := (List.mem_append.mp hc).resolve_left fun hc =>
        lt_irrefl _ (hparted.below c hc)
      cases B with
      | nil => cases hc
      | cons b B =>
        obtain ⟨n, -, hnext, hkey⟩ := h.next_front_bottom
        rw [hnext, hkey]
        rcases List.mem_cons.mp hc with rfl | hc
        · exact le_rfl
        · have hsorted := h.sorted
          simp only [List.map_append, List.pairwise_append, List.map_cons, List.pairwise_cons]
            at hsorted
          exact (hsorted.2.1.1 _ (List.mem_map_of_mem hc)).le
  obtain ⟨n, hn⟩ := hret
  refine ⟨n + 1, ?_⟩
  rintro (_ | fuel) hfuel
  · omega
  · have hsearch : s.searchFrom k (fuel + 1) = some (s.front 0 A, history) := hn _ (by omega)
    show s.insertLoop k newNodeLevel (fuel + 1) (fuel + 1) = some none
    rw [insertLoop, hsearch]
    simp [hle]

theorem Valid.insertLoop_new (h : s.Valid (A ++ B)) (hbelow : ∀ c ∈ A, c.key < k)
    (habove : ∀ c ∈ B, k < c.key) (hk : k < lastKey) {newNodeLevel : ℕ}
    (hlevel : newNodeLevel ≤ s.level) :
    ∃ history, Fuel.Returns (fun fuel => s.insertLoop k newNodeLevel fuel fuel) (some history) ∧
      ∀ q < s.level, history (s.level - 1 - q) = s.front q A := by
  have hparted : Parted k A B := ⟨hbelow, fun c hc => (habove c hc).le⟩
  obtain ⟨history, hret, hhistory⟩ := h.searchFrom_returns hparted h.positive
  refine ⟨history, ?_, hhistory⟩
  have hlt : ∀ r < s.level, k < s.key (s.next (s.front r A)) := by
    intro r hr
    obtain ⟨-, hkey | ⟨c, hc, hkey⟩⟩ := h.next_front_cases hr
    · exact hkey ▸ hk
    · exact hkey ▸ habove c hc
  have hnone : ∀ p ∈ ([] : List Ptr), ∃ q < 0, p = s.front q A := nofun
  obtain ⟨held, hlocks⟩ := h.lockBases h.bound hlt hhistory hnone rfl
    ((Nat.zero_add _).trans_le hlevel)
  obtain ⟨n, hn⟩ := hret
  refine ⟨n + 1, ?_⟩
  rintro (_ | fuel) hfuel
  · omega
  · have hsearch : s.searchFrom k (fuel + 1) = some (s.front 0 A, history) := hn _ (by omega)
    show s.insertLoop k newNodeLevel (fuel + 1) (fuel + 1) = some (some history)
    rw [insertLoop, hsearch]
    simp [not_le.mpr (hlt 0 h.positive), hlocks]

/-- A key that is not there yet gets a column. -/
theorem Valid.insert_new (h : s.Valid (A ++ B)) (hbelow : ∀ c ∈ A, c.key < k)
    (habove : ∀ c ∈ B, k < c.key) (hk : initKey < k ∧ k < lastKey) :
    ∃ s' ns, Fuel.Returns (fun fuel => s.insert k fuel) (true, s') ∧
      s'.Valid (A ++ ⟨k, ns⟩ :: B) ∧ s'.level = s.level := by
  have hbounds := newLevelLoop_bounds (s.seq + 1) (s.level - 1)
  have hlevel : s.getNewLevel.1 ≤ s.level := hbounds.2.trans (Nat.sub_add_cancel h.positive).le
  obtain ⟨history, hloop, hhistory⟩ := h.getNewLevel.insertLoop_new hbelow habove hk.2 hlevel
  obtain ⟨s', ns, hlink, hbuilt, hlen, hlevel', hseq, hkeys, hnodes⟩ :=
    (h.getNewLevel.addColumn hbelow habove hk).linkLoop ((Nat.zero_add _).trans_le hlevel) hhistory
  refine ⟨_, ns, (hloop.bind ?_).congr fun fuel => (if_neg hk.1.ne').symm,
    ⟨hbuilt.withCounts s'.seq (s'.keyCount + 1) (s'.nodeCount + s.getNewLevel.1), ?_, ?_, ?_, ?_,
      ?_⟩, hlevel'⟩
  · exact congrArg (Option.map _) hlink
  · intro c hc
    rcases List.mem_append.mp hc with hc | hc
    · exact h.full c (List.mem_append_left B hc)
    · rcases List.mem_cons.mp hc with rfl | hc
      · rintro rfl
        exact absurd hlen (Nat.ne_of_lt hbounds.1)
      · exact h.full c (List.mem_append_right A hc)
  · exact hlevel' ▸ h.positive
  · exact hlevel' ▸ h.bound
  · show s'.keyCount + 1 = _
    rw [hkeys]
    show s.keyCount + 1 = _
    simp only [h.keyCount, List.length_append, List.length_cons]
    omega
  · show s'.nodeCount + s.getNewLevel.1 = _
    rw [hnodes]
    show s.nodeCount + s.getNewLevel.1 = _
    simp only [h.nodeCount, ← hlen, List.map_append, List.map_cons, List.sum_append,
      List.sum_cons, List.nil_append]
    omega

theorem Valid.insert_dup (h : s.Valid cols) (hk : k ≠ initKey)
    (hdup : k = lastKey ∨ k ∈ cols.map Column.key) :
    Fuel.Returns (fun fuel => s.insert k fuel) (true, s.getNewLevel.2) := by
  obtain ⟨A, B, rfl, hparted⟩ := exists_parted h.sorted k
  have hloop := h.getNewLevel.insertLoop_dup hparted hdup s.getNewLevel.1
  refine (hloop.bind ?_).congr fun fuel => (if_neg hk).symm
  rfl

end SkipList
end YwStorage.Skip
