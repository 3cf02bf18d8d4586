import YwStorage.SkipList.Insert

/-! `remove` of a key that is there takes its column out, level by level from the bottom up. -/
namespace YwStorage.Skip
open Chain

variable {s : SkipList} {A B : List Column} {c : Column} {r j n m : ℕ} {p : Ptr}
  {k target : Key} {history : ℕ → Ptr} {held : List Ptr}

theorem lane_of_length_le (hr : c.nodes.length ≤ r) : lane r (c :: B) = lane r B := by
  simp [lane_cons, List.getElem?_eq_none hr]

theorem lane_of_getElem? (hn : c.nodes[r]? = some n) : lane r (c :: B) = .node n :: lane r B := by
  simp [lane_cons, hn]

namespace SkipList

theorem Towers.withNext {cols : List Column} (h : s.Towers cols) (next : Ptr → Ptr) :
    Towers { s with next := next } cols where
  sorted := h.sorted
  inner := h.inner
  height := h.height
  made := h.made
  apart := h.apart
  keys := h.keys
  up := h.up
  top := h.top
  down := h.down
  bottom := h.bottom
  headDown := h.headDown
  tailKey := h.tailKey

theorem Towers.removeColumn (h : s.Towers (A ++ c :: B)) : s.Towers (A ++ B) := by
  have hsub : ∀ d ∈ A ++ B, d ∈ A ++ c :: B := by
    intro d hd
    simp only [List.mem_append, List.mem_cons] at hd ⊢
    tauto
  have hon : ∀ {k r n}, On (A ++ B) k r n → On (A ++ c :: B) k r n := by
    rintro k r n ⟨d, hd, hk, hn⟩
    exact ⟨d, hsub d hd, hk, hn⟩
  refine ⟨?_, fun d hd => h.inner d (hsub d hd), fun d hd => h.height d (hsub d hd),
    fun hn => h.made (hon hn), fun hn hn' => h.apart (hon hn) (hon hn'),
    fun hn => h.keys (hon hn), fun hn hm => h.up (hon hn) (hon hm), fun {k r n} hn hno => ?_,
    fun hn hm => h.down (hon hn) (hon hm), fun hn => h.bottom (hon hn), h.headDown, h.tailKey⟩
  · refine h.sorted.sublist (List.Sublist.map _ ?_)
    exact (List.Sublist.refl A).append (List.sublist_cons_self c B)
  · refine h.top (hon hn) fun m hm => ?_
    obtain ⟨d, hd, hk, hget⟩ := hm
    obtain ⟨d', hd', hk', -⟩ := hn
    obtain rfl := h.column_unique hd (hsub d' hd') (hk.trans hk'.symm)
    exact hno m ⟨d, hd', hk, hget⟩

/-- The column is off the lowest `j` levels. -/
def HalfOut (s : SkipList) (A : List Column) (c : Column) (B : List Column) (j : ℕ) : Prop :=
  ∀ r < s.level, Seg s.next (s.headAt r) (lane r (A ++ if r < j then B else c :: B)) (s.tailAt r)

theorem Built.halfOut (h : s.Built (A ++ c :: B)) : s.HalfOut A c B 0 := by
  intro r hr
  exact h.lanes r hr

theorem HalfOut.built (hhalf : s.HalfOut A c B c.nodes.length) (h : s.Towers (A ++ c :: B)) :
    s.Built (A ++ B) where
  toTowers := h.removeColumn
  lanes r hr := by
    have hseg := hhalf r hr
    split_ifs at hseg with hlt
    · exact hseg
    · rwa [lane_append, lane_of_length_le (not_lt.mp hlt), ← lane_append] at hseg

theorem HalfOut.next_front (hhalf : s.HalfOut A c B j) (hj : j < s.level)
    (hn : c.nodes[j]? = some n) : s.next (s.front j A) = .node n := by
  have hseg := hhalf j hj
  rw [if_neg (lt_irrefl j), lane_append, lane_of_getElem? hn] at hseg
  exact hseg.next_getLastD

/-- One turn of the loop that takes the nodes out. -/
theorem HalfOut.unlink (hhalf : s.HalfOut A c B j) (h : s.Towers (A ++ c :: B))
    (hj : j < s.level) (hn : c.nodes[j]? = some n) :
    HalfOut { s with next := Function.update s.next (s.front j A) (s.next (.node n)) } A c B
      (j + 1) := by
  intro r hr
  have hseg := hhalf r hr
  show Seg (Function.update s.next (s.front j A) (s.next (.node n))) (s.headAt r) _ (s.tailAt r)
  by_cases hrj : r = j
  · subst hrj
    have hnodup := h.lane_nodup (r := r)
    rw [if_neg (lt_irrefl r), lane_append, lane_of_getElem? hn] at hseg
    rw [lane_append, lane_of_getElem? hn] at hnodup
    rw [if_pos (Nat.lt_succ_self r), lane_append]
    exact hseg.remove hnodup
  · have hiff : r < j + 1 ↔ r < j := by omega
    simp only [hiff]
    refine hseg.write fun hmem => hrj (h.lanes_apart hr hj ?_ front_mem_append)
    refine List.cons_subset_cons _ (fun p hp => ?_) hmem
    rw [lane_append] at hp ⊢
    refine (List.mem_append.mp hp).elim (List.mem_append_left _) fun hp =>
      List.mem_append_right _ ?_
    split_ifs at hp
    · rw [lane_cons]
      exact List.mem_append_right _ hp
    · exact hp

theorem Towers.level_of_getElem? (h : s.Towers (A ++ c :: B)) (hn : c.nodes[j]? = some n) :
    j < s.level :=
  (List.getElem?_eq_some_iff.mp hn).1.trans_le (h.height c (by simp))

theorem Towers.up_top (h : s.Towers (A ++ c :: B)) (hj : j + 1 = c.nodes.length)
    (hn : c.nodes[j]? = some n) : s.up (.node n) = .null := by
  refine h.top ⟨c, by simp, rfl, hn⟩ fun l hl => ?_
  obtain ⟨d, hd, hkey, hget⟩ := hl
  obtain rfl := h.column_unique hd (by simp) hkey
  simp [hj] at hget

theorem topOf_eq_node {ns : List ℕ} (hj : j + 1 = ns.length) (hn : ns[j]? = some n) :
    topOf ns = .node n := by
  obtain rfl : j = ns.length - 1 := by omega
  rw [topOf, List.getLast?_eq_getElem?, hn]
  rfl

/-- The locks of a tower and of the nodes in front of it. -/
def Locked (s : SkipList) (A : List Column) (c : Column) (held : List Ptr) (j : ℕ) : Prop :=
  ∀ q < j, ∀ n, c.nodes[q]? = some n → s.front q A ∈ held ∧ .node n ∈ held

/-- The column is taken off the other `m` levels. The loop ends with the top of the tower. -/
theorem HalfOut.unlinkLoop (hhalf : s.HalfOut A c B j) (h : s.Towers (A ++ c :: B))
    (hheld : s.Locked A c held c.nodes.length)
    (hhistory : ∀ q < s.level, history (s.level - 1 - q) = s.front q A)
    (hj : j + m = c.nodes.length) (rem : Ptr) :
    ∃ next, unlinkLoop c.key history held (List.range' (j + 1) m) s rem =
        some ({ s with next := next }, if m = 0 then rem else topOf c.nodes) ∧
      HalfOut { s with next := next } A c B c.nodes.length := by
  induction m generalizing s j rem with
  | zero =>
    obtain rfl : j = c.nodes.length := hj
    exact ⟨s.next, rfl, hhalf⟩
  | succ m ih =>
    obtain ⟨n, hn⟩ : ∃ n, c.nodes[j]? = some n :=
      ⟨_, List.getElem?_eq_getElem (by omega : j < c.nodes.length)⟩
    have hlt := h.level_of_getElem? hn
    have hbase : history (s.level - (j + 1)) = s.front j A := by
      rw [Nat.add_comm, ← Nat.sub_sub]
      exact hhistory j hlt
    have hrem : s.next (s.front j A) = .node n := hhalf.next_front hlt hn
    obtain ⟨hlock, hlock'⟩ := hheld j (by omega) n hn
    obtain ⟨next, hloop, hout⟩ := ih (hhalf.unlink h hlt hn) (h.withNext _) hheld hhistory
      (by omega) (.node n)
    refine ⟨next, ?_, hout⟩
    rw [List.range'_succ, SkipList.unlinkLoop, hbase, hrem,
      if_pos ⟨h.keys ⟨c, by simp, rfl, hn⟩, hlock, hlock'⟩, hloop, if_neg (Nat.succ_ne_zero m)]
    split_ifs with hm
    · rw [topOf_eq_node (by omega) hn]
    · rfl

/-- `lock` of another node of the tower or in front of it, as long as there is room. -/
theorem lock_eq (hnull : p ≠ .null) (hfree : p ∉ held) (hroom : held.length < 2 * maxLevel) :
    lock held p = some (true, p :: held) := by
  simp [lock, hnull, hfree, hroom]

/-- All locks are on lower levels. -/
def LocksBelow (s : SkipList) (cols : List Column) (held : List Ptr) (j : ℕ) : Prop :=
  ∀ p ∈ held, ∃ q < j, p ∈ s.headAt q :: lane q cols

theorem LocksBelow.not_mem {cols : List Column} (hbelow : s.LocksBelow cols held j)
    (h : s.Towers cols) (hj : j < s.level) (hp : p ∈ s.headAt j :: lane j cols) : p ∉ held := by
  intro hmem
  obtain ⟨q, hq, hp'⟩ := hbelow p hmem
  exact hq.ne' (h.lanes_apart hj (hq.trans hj) hp hp')

/-- The tower is locked up to its top, and its height is the depth. -/
theorem Built.lockTower (h : s.Built (A ++ c :: B)) (hbound : s.level ≤ maxLevel)
    (hhistory : ∀ q < s.level, history (s.level - 1 - q) = s.front q A)
    (hbelow : s.LocksBelow (A ++ c :: B) held j) (hlocked : s.Locked A c held j)
    (hlen : held.length = 2 * j) (hj : j + m = s.level) (hn : c.nodes[j]? = some n) :
    ∃ held', s.lockTower history (List.range' (j + 1) m) (.node n) held =
        some (c.nodes.length, held') ∧ s.Locked A c held' c.nodes.length := by
  have hlt := h.level_of_getElem? hn
  induction m generalizing j n held with
  | zero => omega
  | succ m ih =>
    have hbase : history (s.level - (j + 1)) = s.front j A := by
      rw [Nat.add_comm, ← Nat.sub_sub]
      exact hhistory j hlt
    have hon : On (A ++ c :: B) c.key j n := ⟨c, by simp, rfl, hn⟩
    have hnode : Ptr.node n ∈ lane j (A ++ c :: B) := mem_lane.mpr ⟨_, n, hon, rfl⟩
    have hnext : s.next (s.front j A) = .node n := by
      rw [h.next_front hlt, lane_of_getElem? hn]
      rfl
    have hne : Ptr.node n ≠ s.front j A := by
      have hnodup := h.lane_nodup (r := j)
      rw [lane_append, lane_of_getElem? hn, ← List.cons_append] at hnodup
      intro heq
      exact (List.nodup_append.mp hnodup).2.2 _ front_mem _ List.mem_cons_self heq.symm
    have hlock : lock held (s.front j A) = some (true, s.front j A :: held) :=
      lock_eq (ne_null_of_mem_lane front_mem)
        (hbelow.not_mem h.toTowers hlt front_mem_append) (by omega)
    have hlock' : lock (s.front j A :: held) (.node n) =
        some (true, .node n :: s.front j A :: held) := by
      refine lock_eq nofun ?_ (by simp only [List.length_cons]; omega)
      exact List.not_mem_cons_of_ne_of_not_mem hne
        (hbelow.not_mem h.toTowers hlt (List.mem_cons_of_mem _ hnode))
    have hlocked' : s.Locked A c (.node n :: s.front j A :: held) (j + 1) := by
      intro q hq l hl
      rcases Nat.lt_succ_iff_lt_or_eq.mp hq with hq | rfl
      · obtain ⟨hfront, hl⟩ := hlocked q hq l hl
        exact ⟨by simp [hfront], by simp [hl]⟩
      · obtain rfl := Option.some.inj (hn.symm.trans hl)
        exact ⟨by simp, by simp⟩
    have hbelow' : s.LocksBelow (A ++ c :: B) (.node n :: s.front j A :: held) (j + 1) := by
      intro p hp
      rcases List.mem_cons.mp hp with rfl | hp
      · exact ⟨j, Nat.lt_succ_self j, List.mem_cons_of_mem _ hnode⟩
      · rcases List.mem_cons.mp hp with rfl | hp
        · exact ⟨j, Nat.lt_succ_self j, front_mem_append⟩
        · obtain ⟨q, hq, hp⟩ := hbelow p hp
          exact ⟨q, hq.trans (Nat.lt_succ_self j), hp⟩
    rw [List.range'_succ, SkipList.lockTower, hbase, hlock]
    simp only [Option.bind_some, Bool.true_eq_false, if_false, hlock', hnext, ne_eq,
      not_true_eq_false, or_self]
    by_cases htop : j + 1 = c.nodes.length
    · rw [if_pos (h.up_top htop hn), ← htop]
      exact ⟨_, rfl, htop ▸ hlocked'⟩
    · obtain ⟨l, hl⟩ : ∃ l, c.nodes[j + 1]? = some l := by
        have hj' := (List.getElem?_eq_some_iff.mp hn).1
        exact ⟨_, List.getElem?_eq_getElem (by omega)⟩
      have hup : s.up (.node n) = .node l := h.up hon ⟨c, by simp, rfl, hl⟩
      rw [hup, if_neg nofun]
      exact ih hbelow' hlocked' (by simp only [List.length_cons]; omega) (by omega) hl
        (h.level_of_getElem? hl)

theorem Towers.around (h : s.Towers (A ++ c :: B)) :
    (∀ d ∈ A, d.key < c.key) ∧ ∀ d ∈ B, c.key < d.key := by
  have hsorted := h.sorted
  simp only [List.map_append, List.map_cons, List.pairwise_append, List.pairwise_cons] at hsorted
  refine ⟨fun d hd => ?_, fun d hd => hsorted.2.1.1 _ (List.mem_map_of_mem hd)⟩
  exact hsorted.2.2 _ (List.mem_map_of_mem hd) _ List.mem_cons_self

theorem Towers.parted (h : s.Towers (A ++ c :: B)) : Parted c.key A (c :: B) := by
  refine ⟨h.around.1, fun d hd => ?_⟩
  rcases List.mem_cons.mp hd with rfl | hd
  · exact le_rfl
  · exact (h.around.2 d hd).le

/-- A key that is there is found and locked in the first turn. -/
theorem Valid.removeLoop (h : s.Valid (A ++ c :: B)) : ∃ history held,
    Fuel.Returns (fun fuel => s.removeLoop c.key fuel fuel [])
      (c.nodes.length, history, held) ∧
    s.Locked A c held c.nodes.length ∧
    ∀ q < s.level, history (s.level - 1 - q) = s.front q A := by
  obtain ⟨history, ⟨k, hk⟩, hhistory⟩ := h.searchFrom_returns h.parted h.positive
  obtain ⟨n, hn, hnext, hkey⟩ := h.next_front_bottom
  have hbelow : s.LocksBelow (A ++ c :: B) [] 0 := nofun
  obtain ⟨held, htower, hlocked⟩ := h.lockTower h.bound hhistory hbelow nofun rfl (Nat.zero_add _)
    hn
  refine ⟨history, held, ⟨k + 1, ?_⟩, hlocked, hhistory⟩
  rintro (_ | fuel) hfuel
  · omega
  · have hsearch : s.searchFrom c.key (fuel + 1) = some (s.front 0 A, history) := hk _ (by omega)
    have hpos : c.nodes.length ≠ 0 := fun hlen =>
      h.full c (by simp) (List.length_eq_zero_iff.mp hlen)
    show s.removeLoop c.key (fuel + 1) (fuel + 1) [] = _
    rw [SkipList.removeLoop, hsearch]
    simp [hnext, hkey, htower, hpos]

/-- The column of a key that is there goes. -/
theorem Valid.remove (h : s.Valid (A ++ c :: B)) :
    ∃ s', Fuel.Returns (fun fuel => s.remove c.key fuel) (true, s') ∧ s'.Valid (A ++ B) ∧
      s'.level = s.level := by
  have hfull : c.nodes ≠ [] := h.full c (by simp)
  have hinit : c.key ≠ initKey := (h.inner c (by simp)).1.ne'
  obtain ⟨history, held, hloop, hlocked, hhistory⟩ := h.removeLoop
  obtain ⟨next, hunlink, hout⟩ := h.halfOut.unlinkLoop h.toTowers hlocked hhistory
    (Nat.zero_add _) .null
  obtain ⟨n, hn⟩ : ∃ n, c.nodes[c.nodes.length - 1]? = some n :=
    ⟨_, List.getElem?_eq_getElem (Nat.sub_lt (List.length_pos_of_ne_nil hfull) Nat.one_pos)⟩
  have hlast : c.nodes.length - 1 + 1 = c.nodes.length :=
    Nat.sub_add_cancel (List.length_pos_of_ne_nil hfull)
  have htop : s.up (topOf c.nodes) = .null := by
    rw [topOf_eq_node hlast hn]
    exact h.up_top hlast hn
  have hbuilt := (hout.built (h.withNext next)).withCounts s.seq (s.keyCount - 1)
    (s.nodeCount - c.nodes.length)
  refine ⟨_, (hloop.bind ?_).congr fun fuel => (if_neg hinit).symm,
    ⟨hbuilt, ?_, h.positive, h.bound, ?_, ?_⟩, rfl⟩
  · rw [hunlink, if_neg (List.length_pos_of_ne_nil hfull).ne']
    exact if_pos htop
  · intro d hd
    refine h.full d ?_
    simp only [List.mem_append, List.mem_cons] at hd ⊢
    tauto
  · show s.keyCount - 1 = _
    simp only [h.keyCount, List.length_append, List.length_cons]
    omega
  · show s.nodeCount - c.nodes.length = _
    simp only [h.nodeCount, List.map_append, List.map_cons, List.sum_append, List.sum_cons]
    omega

end SkipList
end YwStorage.Skip
