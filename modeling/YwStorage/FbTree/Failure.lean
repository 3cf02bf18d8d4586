import YwStorage.FbTree.Calls

/-!
Updates that return false. They leave the tree as it was, except for one cascade of splits: when it
runs out after the word above its last clone has been redirected, rolling back returns that clone to
the pool while the tree still leads to it.
-/
namespace YwStorage.FbTree
open MultiTree SortedMap Supply

variable {supply : Finset ℕ → Option ℕ} {t t' t₁ : Fbt} {T T' : Σ N, Node ℕ ℕ N}
  {smoLock : Bool} {a k p key d n : ℕ}

/-- The pairs are the same, and all nodes of the tree are in use. -/
def Unharmed (t t' : Fbt) : Prop :=
  t'.toFb.pairs = t.toFb.pairs ∧ ∀ b ∈ t'.toFb.nodes, b ∈ t'.live

/-- Inserting an absent key splits a cascade that changes the tree and runs out afterwards. -/
def TornSplit (supply : Finset ℕ → Option ℕ) (t : Fbt) (key : ℕ) : Prop :=
  let stack := (fbTraverse t.toFb key).1
  (∀ pos ∈ stack.head?, (t.mem pos.1).key pos.2 ≠ key) ∧
    Tears supply t stack (stack.takeWhile fun pos => (t.mem pos.1).isFullNode).length

section Loop
variable {try' : Fbt → Bool → Option (Option FbResult × Fbt)} {fuel : ℕ} {r : FbResult}

theorem loop_smo (h : try' t false = some (some .smo, t₁)) :
    Fbt.retryLoop try' (fuel + 1) t false = Fbt.retryLoop try' fuel t₁ true := by
  rw [Fbt.retryLoop, h]
  rfl

theorem loop_retry (h : try' t smoLock = some (some .retry, t₁)) :
    Fbt.retryLoop try' (fuel + 1) t smoLock = Fbt.retryLoop try' fuel t₁ smoLock := by
  rw [Fbt.retryLoop, h]

theorem loop_false (h : try' t smoLock = some (none, t₁) ∨ try' t smoLock = some (some .dup, t₁) ∨
      try' t smoLock = some (some .fail, t₁)) :
    Fbt.retryLoop try' (fuel + 1) t smoLock = some (false, t₁) := by
  rcases h with h | h | h <;> rw [Fbt.retryLoop, h]

theorem loop_true (h : try' t smoLock = some (some .success, t₁)) :
    Fbt.retryLoop try' (fuel + 1) t smoLock = some (true, t₁) := by
  rw [Fbt.retryLoop, h]

/-- A call that succeeds or gives up without harm. -/
theorem loop_outcome {plain : Option (FbResult × Fb)} {why : Fbt → Prop} {c : ℤ}
    (h : Outcome (try' t smoLock) t plain .success c why) :
    ∃ b t', Fbt.retryLoop try' (fuel + 1) t smoLock = some (b, t') ∧ (b = false → why t') := by
  rcases h with ⟨t', hcall, -⟩ | ⟨t', hcall, hwhy⟩
  · exact ⟨true, t', loop_true hcall, by simp⟩
  · exact ⟨false, t', loop_false (.inl hcall), fun _ => hwhy⟩

end Loop

theorem unharmed_of_sound (h : Sound t.toFb T) (h' : Sound t'.toFb T') (hw : whole T' = whole T) :
    Unharmed t t' := by
  refine ⟨?_, fun b hb => ?_⟩
  · rw [Fb.pairs, Fb.pairs, h.shape.tree_eq h.keys, h'.shape.tree_eq h'.keys, hw]
  · rw [Fb.nodes, h'.shape.tree_eq h'.keys] at hb
    exact h'.shape.mem_live hb

/-- The full nodes of a path can be counted on the stack. -/
theorem fullRun_eq_takeWhile {s : Fb} {R : Multiset ℕ} {path : Path ℕ ℕ n} {x : Node ℕ ℕ n}
    (h : Shape s R (plug path x)) (hk : AllKeys IsKey (plug path x).2) :
    (path.positions.takeWhile fun pos => (s.mem pos.1).isFullNode).length = fullRun path := by
  induction path with
  | top => rfl
  | step a pre k post up ih =>
    have hfull := full_iff_width h hk
    rw [Path.positions, fullRun]
    split_ifs with hwidth
    · rw [List.takeWhile_cons_of_pos (by simpa using hfull.mpr hwidth), List.length_cons, ih h hk]
    · rw [List.takeWhile_cons_of_neg (by simpa using mt hfull.mp hwidth), List.length_nil]

section Insert
variable {pre post : List (ℕ × Node ℕ ℕ 0)} {up : Path ℕ ℕ 1}

theorem tornSplit_iff (h : Sound t.toFb (plug (.step a pre k post up) (data p)))
    (ht : fbTraverse t.toFb key = ((a, pre.length) :: up.positions, p)) :
    TornSplit supply t key ↔ k ≠ key ∧
      Tears supply t (Path.step a pre k post up).positions (fullRun (.step a pre k post up)) := by
  have hkey : (t.mem a).key pre.length = k := key_at_cursor h
  have hrun := fullRun_eq_takeWhile h.shape h.keys
  rw [Path.positions] at hrun
  rw [TornSplit, ht, Path.positions]
  simp only [List.head?_cons, Option.mem_some_iff, forall_eq', hkey, ← hrun]
  rfl

theorem not_tears_of_room {stack : List (ℕ × ℕ)} : ¬ Tears supply t stack 0 := by
  rintro ⟨-, -, hrun | hnone⟩
  · omega
  · cases hnone

theorem insert_early {fuel : ℕ} (hlevel : t.level ≤ 1) :
    Fbt.retryLoop (fun t smoLock => t.insertTry supply key d smoLock) (fuel + 1) t false =
      Fbt.retryLoop (fun t smoLock => t.insertTry supply key d smoLock) fuel t true :=
  loop_smo (insertTry_early hlevel)

/-- The call after a split. -/
theorem insert_again {fuel g : ℕ} {s₁ : Fb} {path' : Path ℕ ℕ 0} (hfresh : FreshSupply supply)
    (h : Sound t.toFb (plug (.step a pre k post up) (data p)))
    (ho : Ordered True unmarked IsKey (plug (.step a pre k post up) (data p)).2)
    (hr : room False IsKey (.step a pre k post up) key) (hkey : k ≠ key)
    (hcommit : s₁.commit = some t₁.toFb)
    (htree : SplitTree t.toFb s₁ 0 (data p) (.step a pre k post up) path' g) :
    ∃ b t', Fbt.retryLoop (fun t smoLock => t.insertTry supply key d smoLock) (fuel + 1) t₁ true =
      some (b, t') ∧ (b = false → Unharmed t t') := by
  obtain ⟨s', hcommit', hsound, -⟩ := commit_sound htree.shape htree.keys
  obtain rfl : t₁.toFb = s' := Option.some.inj (hcommit.symm.trans hcommit')
  obtain ⟨ho₁, hroomier⟩ := htree.order ho
  have ht₁ := fbTraverse_eq hsound.shape.around ho₁ (hroomier False key hr)
  cases path' with
  | top => exact absurd htree.used (by simp [Path.width])
  | step a' pre' k' post' up' =>
    obtain rfl : k' = k := htree.sited.key_eq
    obtain ⟨b, t', hloop, hwhy⟩ : ∃ b t', Fbt.retryLoop
        (fun t smoLock => t.insertTry supply key d smoLock) (fuel + 1) t₁ true = some (b, t') ∧
          (b = false → supply t₁.live = none ∧ Intact t₁ t') :=
      loop_outcome (insertTry_leaf hsound ht₁ hfresh (.inl rfl) hkey htree.room)
    refine ⟨b, t', hloop, fun hb => ?_⟩
    exact unharmed_of_sound h ((hwhy hb).2.sound hsound) htree.sited.whole_eq

/-- `fb_insert` on a tree with a leaf for the key. -/
theorem insert_leaf_iff (hfresh : FreshSupply supply)
    (h : Sound t.toFb (plug (.step a pre k post up) (data p)))
    (ho : Ordered True unmarked IsKey (plug (.step a pre k post up) (data p)).2)
    (hr : room False IsKey (.step a pre k post up) key)
    (ht : fbTraverse t.toFb key = ((a, pre.length) :: up.positions, p)) (hlevel : t.level ≤ 9) :
    ∃ b t', t.insert supply key d = some (b, t') ∧
      ((b = false → Unharmed t t') ↔ ¬ TornSplit supply t key) := by
  rw [tornSplit_iff h ht]
  by_cases hkey : k = key
  · refine ⟨false, t, ?_, iff_of_true (fun _ => unharmed_of_sound h h rfl) fun hc => hc.1 hkey⟩
    by_cases hlow : t.level ≤ 1
    · exact (insert_early hlow).trans
        (loop_false (.inr (.inl (insertTry_dup h ht (.inl rfl) hkey))))
    · exact loop_false (.inr (.inl (insertTry_dup h ht (.inr (not_le.mp hlow)) hkey)))
  by_cases hwidth : pre.length + post.length + 1 = 128
  · have hfull : (t.mem a).isFullNode := (full_iff_width h.shape h.keys).mpr hwidth
    have hlock : t.insert supply key d =
        Fbt.retryLoop (fun t smoLock => t.insertTry supply key d smoLock) 2 t true := by
      by_cases hlow : t.level ≤ 1
      · exact insert_early hlow
      · exact loop_smo (insertTry_smo h ht (not_le.mp hlow) hkey hfull)
    rw [hlock]
    rcases insertTry_full (d := d) h ht hfresh hkey hwidth hlevel with
      ⟨hno, t₁, htry, -, s₁, path', hcommit, htree, -⟩ | ⟨t', htry, htorn, hintact, -⟩
    · have hagain : Fbt.retryLoop (fun t smoLock => t.insertTry supply key d smoLock) 2 t true =
          Fbt.retryLoop (fun t smoLock => t.insertTry supply key d smoLock) 1 t₁ true :=
        loop_retry htry
      rw [hagain]
      obtain ⟨b, t', hloop, hsafe⟩ := insert_again hfresh h ho hr hkey hcommit htree
      exact ⟨b, t', hloop, iff_of_true hsafe fun hc => hno hc.2⟩
    · refine ⟨false, t', loop_false (.inl htry), fun hsafe hc => ?_, fun hno _ => ?_⟩
      · obtain ⟨np, hreach, hfree⟩ := htorn hc.2
        exact hfree ((hsafe rfl).2 np hreach)
      · exact unharmed_of_sound h ((hintact fun htears => hno ⟨hkey, htears⟩).sound h) rfl
  · have hle := width_le h.shape.around
    have hrun : fullRun (.step a pre k post up) = 0 := if_neg hwidth
    have hno : ¬ (k ≠ key ∧ Tears supply t (Path.step a pre k post up).positions
        (fullRun (.step a pre k post up))) := by
      rw [hrun]
      exact fun hc => not_tears_of_room hc.2
    obtain ⟨b, t', hloop, hwhy⟩ : ∃ b t', t.insert supply key d = some (b, t') ∧
        (b = false → supply t.live = none ∧ Intact t t') := by
      by_cases hlow : t.level ≤ 1
      · rw [Fbt.insert, insert_early hlow]
        exact loop_outcome (insertTry_leaf h ht hfresh (.inl rfl) hkey (by omega))
      · exact loop_outcome (insertTry_leaf h ht hfresh (.inr (not_le.mp hlow)) hkey (by omega))
    refine ⟨b, t', hloop, iff_of_true (fun hb => ?_) hno⟩
    exact unharmed_of_sound h ((hwhy hb).2.sound h) rfl

end Insert

theorem remove_early {fuel : ℕ} (hlevel : t.level ≤ 1) :
    Fbt.retryLoop (fun t smoLock => t.removeTry supply key smoLock) (fuel + 1) t false =
      Fbt.retryLoop (fun t smoLock => t.removeTry supply key smoLock) fuel t true :=
  loop_smo (removeTry_early hlevel)

/-- `fb_remove` on a tree with a leaf for the key. -/
theorem remove_leaf {pre post : List (ℕ × Node ℕ ℕ 0)} {up : Path ℕ ℕ 1}
    (hfresh : FreshSupply supply) (h : Sound t.toFb (plug (.step a pre k post up) (data p)))
    (ht : fbTraverse t.toFb key = ((a, pre.length) :: up.positions, p)) (hlevel : t.level ≤ 9) :
    ∃ b t', t.remove supply key = some (b, t') ∧ (b = false → Unharmed t t') := by
  by_cases hkey : k = key
  · obtain ⟨b, t', hloop, hwhy⟩ : ∃ b t', t.remove supply key = some (b, t') ∧
        (b = false → Intact t t' ∧ (t.level ≤ 8 → ∃ live, supply live = none)) := by
      by_cases hlow : t.level ≤ 1
      · rw [Fbt.remove, remove_early hlow]
        exact loop_outcome (removeTry_present h ht hfresh (.inl rfl) hkey hlevel)
      by_cases hone : (t.mem a).remainOneKey
      · have hlock : t.remove supply key =
            Fbt.retryLoop (fun t smoLock => t.removeTry supply key smoLock) 2 t true :=
          loop_smo (removeTry_smo h ht (not_le.mp hlow) hkey hone)
        rw [hlock]
        exact loop_outcome (removeTry_present h ht hfresh (.inl rfl) hkey hlevel)
      · exact loop_outcome
          (removeTry_present h ht hfresh (.inr ⟨not_le.mp hlow, hone⟩) hkey hlevel)
    exact ⟨b, t', hloop, fun hb => unharmed_of_sound h ((hwhy hb).1.sound h) rfl⟩
  · refine ⟨false, t, ?_, fun _ => unharmed_of_sound h h rfl⟩
    by_cases hlow : t.level ≤ 1
    · exact (remove_early hlow).trans
        (loop_false (.inr (.inr (removeTry_absent h ht (.inl rfl) hkey))))
    · exact loop_false (.inr (.inr (removeTry_absent h ht (.inr (not_le.mp hlow)) hkey)))

/-- `fb_insert` returns, and what it leaves behind if it returns false. -/
theorem insert_unharmed_iff (hfresh : FreshSupply supply) (h : WellFormed t.toFb)
    (hlevel : t.level ≤ 9) (hkey : IsKey key) (d : ℕ) :
    ∃ b t', t.insert supply key d = some (b, t') ∧
      ((b = false → Unharmed t t') ↔ ¬ TornSplit supply t key) := by
  obtain ⟨path, p, hplug, hr, ht⟩ := fbTraverse_spec h.shape h.order hkey
  have hs : Sound t.toFb (plug path (data p)) := hplug ▸ (h.inv rfl).sound
  have ho : Ordered True unmarked IsKey (plug path (data p)).2 := hplug ▸ h.order
  cases path with
  | top =>
    have hzero : t.level = 0 := hs.shape.level
    have hlow : t.level ≤ 1 := by omega
    have hno : ¬ TornSplit supply t key := by
      rw [TornSplit, ht]
      rintro ⟨-, hpos, -⟩
      simp [Path.positions] at hpos
    obtain ⟨b, t', hloop, hwhy⟩ : ∃ b t', t.insert supply key d = some (b, t') ∧
        (b = false → supply t.live = none ∧ Intact t t') := by
      rw [Fbt.insert, insert_early hlow]
      exact loop_outcome (insertTry_empty hfresh hs hzero)
    refine ⟨b, t', hloop, iff_of_true (fun hb => ?_) hno⟩
    exact unharmed_of_sound hs ((hwhy hb).2.sound hs) rfl
  | step a pre k post up => exact insert_leaf_iff hfresh hs ho hr ht hlevel

theorem remove_unharmed (hfresh : FreshSupply supply) (h : WellFormed t.toFb)
    (hlevel : t.level ≤ 9) (hkey : IsKey key) :
    ∃ b t', t.remove supply key = some (b, t') ∧ (b = false → Unharmed t t') := by
  obtain ⟨path, p, hplug, -, ht⟩ := fbTraverse_spec h.shape h.order hkey
  have hs : Sound t.toFb (plug path (data p)) := hplug ▸ (h.inv rfl).sound
  cases path with
  | top =>
    have hzero : t.level = 0 := hs.shape.level
    have hlow : t.level ≤ 1 := by omega
    refine ⟨false, t, ?_, fun _ => unharmed_of_sound hs hs rfl⟩
    exact (remove_early hlow).trans (loop_false (.inr (.inr (removeTry_empty hzero))))
  | step a pre k post up => exact remove_leaf hfresh hs ht hlevel

section Example

/-- There are `c` nodes in all. -/
def capped (c : ℕ) (live : Finset ℕ) : Option ℕ :=
  if live.card < c then some (nextNode live) else none

theorem freshSupply_capped (c : ℕ) : FreshSupply (capped c) := by
  intro live a h
  rw [capped] at h
  split_ifs at h with hlt
  obtain rfl := Option.some.inj h
  exact fresh_nextNode live

theorem grown_capped {c : ℕ} {live : Finset ℕ} (h : live.card ≤ c) (n : ℕ) :
    grown (capped c) n live = none ↔ c < live.card + n := by
  induction n generalizing live with
  | zero =>
    rw [grown]
    simp only [reduceCtorEq, false_iff]
    omega
  | succ n ih =>
    rw [grown, capped]
    split_ifs with hlt
    · have hcard := Finset.card_insert_of_notMem (fresh_nextNode live)
      rw [Option.bind_some, ih (by omega), hcard]
      omega
    · simp only [Option.bind_none, true_iff]
      omega

/-- The entries of a leaf: the first leaf has 128 keys, every other one has the key that leads to
it. -/
def deepLeaf (i : ℕ) : List (ℕ × Node ℕ ℕ 0) :=
  if i = 0 then (List.range 128).map fun j => (2 * j, data 0) else [(256 * i, data 0)]

@[irreducible] def deepLeaves : List (ℕ × Node ℕ ℕ 1) :=
  (List.range 128).map fun i => (256 * i, node (4 + i) (deepLeaf i))

/-- A full leaf below a full node, with two more nodes above. -/
def deepTree : Fbt where
  mem a :=
    if a ≤ 2 then ⟨fun i => if i = 0 then 0 else fbNilKey, fun _ => a + 1⟩
    else if a = 3 then ⟨fun i => 256 * i, fun i => 4 + i⟩
    else ⟨fun i => if a = 4 ∨ i = 0 then 256 * (a - 4) + 2 * i else fbNilKey, fun _ => 0⟩
  rootBuf _ := (1, 4)
  rootPtr := false
  live := Finset.range 132
  rcu := []
  keyCount := 255
  nodeCount := 131
  freeNodeCount := 0

theorem fits_words {m : ℕ} {nd : FbNode} {es : List (ℕ × Node ℕ ℕ m)} (hlen : es.length ≤ 128)
    (hslot : ∀ i e, es[i]? = some e → nd.key i = e.1 ∧ nd.child i = ptr e.2)
    (htail : ∀ i, es.length ≤ i → i < 128 → nd.key i = fbNilKey) : Fits nd (words es) := by
  refine ⟨by rwa [length_words], fun i w hw => ?_, fun i hi => ?_⟩
  swap
  · exact htail i (by rwa [length_words] at hi)
  rw [words, List.getElem?_map, Option.map_eq_some_iff] at hw
  obtain ⟨e, he, rfl⟩ := hw
  exact hslot i e he

theorem deepTree_above {m a : ℕ} {x : Node ℕ ℕ m} (ha : a ≤ 2) (hx : ptr x = a + 1) :
    Fits (deepTree.mem a) (words [(0, x)]) := by
  have hnd : deepTree.mem a = ⟨fun i => if i = 0 then 0 else fbNilKey, fun _ => a + 1⟩ := if_pos ha
  refine fits_words (by simp) (fun i e he => ?_) fun i hi _ => ?_
  · cases i with
    | zero =>
      cases he
      simp [hnd, hx]
    | succ i => simp at he
  · rw [hnd]
    exact if_neg (by simp at hi; omega)

theorem deepTree_leaf {i : ℕ} (hi : i < 128) :
    Fits (deepTree.mem (4 + i)) (words (deepLeaf i)) ∧ words (deepLeaf i) ≠ [] := by
  have hnd : deepTree.mem (4 + i) =
      ⟨fun j => if 4 + i = 4 ∨ j = 0 then 256 * i + 2 * j else fbNilKey, fun _ => 0⟩ := by
    simp only [deepTree]
    rw [if_neg (by omega), if_neg (by omega), Nat.add_sub_cancel_left]
  rw [deepLeaf]
  split_ifs with hzero
  · subst hzero
    refine ⟨fits_words (by simp) (fun j e he => ?_) fun j hj hlt => ?_, by simp [words]⟩
    · rw [List.getElem?_map, Option.map_eq_some_iff] at he
      obtain ⟨j', hj', rfl⟩ := he
      obtain ⟨hlt, heq⟩ := List.getElem?_eq_some_iff.mp hj'
      rw [List.getElem_range] at heq
      simp [hnd, heq]
    · simp at hj
      omega
  · refine ⟨fits_words (by simp) (fun j e he => ?_) fun j hj hlt => ?_, by simp [words]⟩
    · cases j with
      | zero =>
        cases he
        simp [hnd]
      | succ j => simp at he
    · rw [hnd]
      exact if_neg (by simp at hj; omega)

/-- Where an entry of the lowest inner node stands. -/
theorem deepLeaves_cut {pre post : List (ℕ × Node ℕ ℕ 1)} {e : ℕ × Node ℕ ℕ 1}
    (h : deepLeaves = pre ++ e :: post) :
    pre.length < 128 ∧ e = (256 * pre.length, node (4 + pre.length) (deepLeaf pre.length)) ∧
      ∀ f ∈ post, 256 * (pre.length + 1) ≤ f.1 := by
  have hget : ∀ i f, deepLeaves[i]? = some f →
      i < 128 ∧ f = (256 * i, node (4 + i) (deepLeaf i)) := by
    intro i f hf
    rw [deepLeaves, List.getElem?_map, Option.map_eq_some_iff] at hf
    obtain ⟨j, hj, rfl⟩ := hf
    obtain ⟨hlt, hj⟩ := List.getElem?_eq_some_iff.mp hj
    rw [List.getElem_range] at hj
    rw [List.length_range] at hlt
    exact ⟨hlt, by rw [hj]⟩
  obtain ⟨hlt, he⟩ := hget pre.length e (by simp [h])
  refine ⟨hlt, he, fun f hf => ?_⟩
  obtain ⟨j, hj⟩ := List.mem_iff_getElem?.mp hf
  obtain ⟨-, rfl⟩ := hget (pre.length + (j + 1)) f (by
    rw [h, List.getElem?_append_right (by omega), Nat.add_sub_cancel_left,
      List.getElem?_cons_succ, hj])
  show 256 * (pre.length + 1) ≤ 256 * (pre.length + (j + 1))
  omega

theorem deepTree_ordered : Ordered True unmarked IsKey (node 3 deepLeaves) := by
  refine ⟨pairwise_of_split fun pre u post h v hv => ?_, markIn_unmarked, fun pre e post h => ?_⟩
  · obtain ⟨-, rfl, hpost⟩ := deepLeaves_cut h
    have := hpost v hv
    show 256 * pre.length < v.1
    omega
  · obtain ⟨hlt, rfl, hpost⟩ := deepLeaves_cut h
    have hkey : IsKey (256 * pre.length) := show 256 * pre.length < 4294967295 by omega
    refine ⟨fun _ => hkey, ordered_leaf.mpr ⟨?_, by simp [unmarked], fun f hf => ?_⟩⟩
    · rw [deepLeaf]
      split_ifs
      · rw [List.pairwise_map]
        exact List.pairwise_lt_range.imp fun hlt => by simpa using hlt
      · exact List.pairwise_singleton _ _
    · obtain ⟨hlow, hhigh⟩ : 256 * pre.length ≤ f.1 ∧ f.1 < 256 * (pre.length + 1) := by
        rw [deepLeaf] at hf
        split_ifs at hf with hzero
        · obtain ⟨j, hj, rfl⟩ := List.mem_map.mp hf
          have := List.mem_range.mp hj
          show 256 * pre.length ≤ 2 * j ∧ 2 * j < _
          omega
        · obtain rfl := List.mem_singleton.mp hf
          exact ⟨le_rfl, show 256 * pre.length < 256 * (pre.length + 1) by omega⟩
      refine ⟨show f.1 < 4294967295 by omega, fun _ => hlow, fun g hg => ?_⟩
      have := hpost g hg
      omega

theorem deepTree_linked :
    Linked (Holds deepTree.toFb) (node 1 [(0, node 2 [(0, node 3 deepLeaves)])]) := by
  have hinner : Fits (deepTree.mem 3) (words deepLeaves) := by
    have hnd : deepTree.mem 3 = ⟨fun i => 256 * i, fun i => 4 + i⟩ := rfl
    refine fits_words (by simp [deepLeaves]) (fun i e he => ?_) fun i hi hlt => ?_
    · obtain ⟨pre, post, hcut, hlen⟩ :
          ∃ pre post, deepLeaves = pre ++ e :: post ∧ pre.length = i := by
        obtain ⟨hlt, heq⟩ := List.getElem?_eq_some_iff.mp he
        obtain ⟨pre, e', post, hcut, hlen⟩ := exists_cut hlt
        exact ⟨pre, post, by simpa [hcut, ← hlen] using heq, hlen⟩
      obtain ⟨-, rfl, -⟩ := deepLeaves_cut hcut
      rw [hnd, hlen]
      exact ⟨rfl, rfl⟩
    · simp [deepLeaves] at hi
      omega
  have habove : ∀ {m : ℕ} (a : ℕ) (x : Node ℕ ℕ m), a ≤ 2 → ptr x = a + 1 →
      Holds deepTree.toFb m a (words [(0, x)]) := fun a x ha hx =>
    ⟨deepTree_above ha hx, by simp⟩
  refine ⟨habove 1 _ (by decide) rfl, ?_⟩
  rw [List.forall_mem_singleton]
  refine ⟨habove 2 _ (by decide) rfl, ?_⟩
  rw [List.forall_mem_singleton]
  refine ⟨⟨hinner, by simp [words, deepLeaves]⟩, fun e he => ?_⟩
  rw [deepLeaves] at he
  obtain ⟨i, hi, rfl⟩ := List.mem_map.mp he
  exact ⟨deepTree_leaf (List.mem_range.mp hi), fun _ _ => trivial⟩

theorem deepTree_addrs : addrsOf deepLeaves = ((List.range 128).map (4 + ·) : List ℕ) := by
  have hsum : ∀ is : List ℕ, addrsOf (is.map fun i => (256 * i, node (4 + i) (deepLeaf i))) =
      (is.map (4 + ·) : List ℕ) := by
    intro is
    induction is with
    | nil => rfl
    | cons i is ih =>
      rw [List.map_cons, addrsOf_cons, ih, addrs_node, addrsOf_data, add_zero, List.map_cons,
        Multiset.singleton_add, Multiset.cons_coe]
  rw [deepLeaves]
  exact hsum (List.range 128)

/-- The tree that `deepTree` holds. -/
def deepNode : Σ N, Node ℕ ℕ N := ⟨4, node 1 [(0, node 2 [(0, node 3 deepLeaves)])]⟩

theorem deepNode_addrs :
    addrs deepNode.2 = (1 :: 2 :: 3 :: (List.range 128).map (4 + ·) : List ℕ) := by
  show addrs (node 1 [(0, node 2 [(0, node 3 deepLeaves)])]) = _
  simp only [addrs_node, addrsOf_cons, addrsOf_nil, deepTree_addrs, add_zero,
    Multiset.singleton_add, Multiset.cons_coe]

theorem deepNode_count {live : Finset ℕ} (h : ∀ i < 132, i ∈ live) :
    fbNilNode ::ₘ (0 + addrs deepNode.2 + (([] : List ℕ) : Multiset ℕ)) ≤ live.val := by
  rw [deepNode_addrs, zero_add, Multiset.coe_nil, add_zero, Multiset.cons_coe]
  have hnodup : (0 :: 1 :: 2 :: 3 :: (List.range 128).map (4 + ·) : List ℕ).Nodup := by
    have htail : ((List.range 128).map (4 + ·)).Nodup :=
      List.nodup_range.map fun i j hij => Nat.add_left_cancel hij
    simp only [List.nodup_cons, List.mem_cons, List.mem_map, List.mem_range, htail, and_true]
    omega
  refine (Multiset.le_iff_subset (Multiset.coe_nodup.mpr hnodup)).mpr fun b hb => h b ?_
  simp only [Multiset.mem_coe, List.mem_cons, List.mem_map, List.mem_range] at hb
  omega

theorem deepTree_wellFormed : WellFormed deepTree.toFb := by
  have hlive : ∀ i < 132, i ∈ deepTree.toFb.live := fun i hi => Finset.mem_range.mpr hi
  have hshape : Shape deepTree.toFb 0 deepNode :=
    ⟨rfl, rfl, deepTree_linked, deepNode_count hlive⟩
  refine hshape.wellFormed ?_
  have hzero : IsKey 0 := show 0 < 4294967295 by decide
  have hle : ∀ x, IsKey x → 0 ≤ x := fun x _ => Nat.zero_le x
  exact ordered_single hzero (ordered_single hzero deepTree_ordered hle markIn_unmarked) hle
    markIn_unmarked

/-- Five nodes are left: four halves and one clone. -/
theorem deepTree_tornSplit : TornSplit (capped 137) deepTree 1 := by
  have ht : (fbTraverse deepTree.toFb 1).1 = [(4, 0), (3, 0), (2, 0), (1, 0)] := by decide +kernel
  have hcard : deepTree.live.card = 132 := Finset.card_range 132
  have hrun : ([(4, 0), (3, 0), (2, 0), (1, 0)].takeWhile fun pos : ℕ × ℕ =>
      decide (deepTree.mem pos.1).isFullNode).length = 2 := by decide +kernel
  rw [TornSplit, ht]
  refine ⟨by decide +kernel, ?_⟩
  rw [hrun]
  refine ⟨by decide, ?_, .inr ?_⟩
  · rw [Ne, grown_capped (by omega), hcard]
    omega
  · rw [grown_capped (by omega), hcard]
    omega

end Example

end YwStorage.FbTree
