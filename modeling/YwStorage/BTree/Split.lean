import YwStorage.BTree.Halves

/-!
`split_insert` from the leaf upwards. While it runs, the tree is meant to have an entry that the
node to split has no space for; with this entry the tree is in order all the time.
-/
namespace YwStorage.BTree
open MultiTree Programs Supply

variable {α : Type} [LinearOrder α] {c : Config} {S : ℕ → Prop} {supply : Finset ℕ → Option ℕ}
  {s s' : Call α} {n a b i fuel : ℕ} {k : α} {E : Call α → Prop}

/-- The pages that a call has in its hands. Those in `used` are the pages of the tree. -/
structure Books (s : Call α) (used : Multiset ℕ) : Prop where
  count : 0 ::ₘ (used + (s.freeStack : Multiset ℕ)) ≤ s.tree.live.val
  clean : ∀ b ∈ s.tree.rcu, b ∉ s.tree.live
  rcu_nodup : s.tree.rcu.Nodup
  locked : s.tree.locked = s.lockStack.toFinset
  locks_live : ∀ b ∈ s.lockStack, b ∈ s.tree.live
  allocs_live : ∀ b ∈ s.allocStack, b ∈ s.tree.live

/-- The stacks when `i` nodes have been split and `m` pages are locked. -/
structure Tidy (s : Call α) (i m : ℕ) (used : Multiset ℕ) : Prop extends Books s used where
  allocs : s.allocStack.length = 2 * i
  frees : s.freeStack.length = i
  locks : s.lockStack.length = m

/-- Nothing has happened to the pages that were in use. -/
structure Kept (s s' : Call α) : Prop where
  root : s'.tree.root = s.tree.root
  mem : ∀ b ∈ s.tree.live, s'.tree.mem b = s.tree.mem b
  live : s.tree.live ⊆ s'.tree.live
  smoSeq : s'.tree.smoSeq = s.tree.smoSeq
  locked : s'.tree.locked = s'.lockStack.toFinset
  allocs : ∃ new, s'.allocStack = new ++ s.allocStack ∧ ∀ b ∈ new, b ∉ s.tree.live
  rcu : ∀ b ∈ s'.tree.rcu, b ∈ s.tree.rcu

theorem Kept.refl (h : s.tree.locked = s.lockStack.toFinset) : Kept s s :=
  ⟨rfl, fun _ _ => rfl, fun _ h => h, rfl, h, ⟨[], rfl, by simp⟩, fun _ h => h⟩

theorem Kept.take (h : Kept s s') (hb : b ∉ s.tree.live) : Kept s (s'.take b) := by
  obtain ⟨new, hnew, hfresh⟩ := h.allocs
  refine ⟨h.root, h.mem, h.live.trans (Finset.subset_insert _ _), h.smoSeq, h.locked,
    ⟨b :: new, by rw [Call.take, hnew]; rfl, ?_⟩, fun d hd => h.rcu d (List.mem_of_mem_erase hd)⟩
  rw [List.forall_mem_cons]
  exact ⟨hb, hfresh⟩

theorem Kept.free (h : Kept s s') (as : List ℕ) : Kept s { s' with freeStack := as } :=
  ⟨h.root, h.mem, h.live, h.smoSeq, h.locked, h.allocs, h.rcu⟩

theorem Kept.blank (h : Kept s s') (isLeaf : Bool) (hb : b ∉ s.tree.live)
    (hlock : b ∉ s'.lockStack) :
    Kept s (s'.blank b isLeaf) := by
  refine ⟨h.root, fun d hd => ?_, h.live, h.smoSeq, ?_, h.allocs, h.rcu⟩
  · rw [← h.mem d hd]
    have hne : d ≠ b := fun hdb => hb (hdb ▸ hd)
    exact Function.update_of_ne hne ..
  · show s'.tree.locked.erase b = _
    rw [h.locked, Finset.erase_eq_of_notMem (by simpa using hlock)]
    rfl

theorem Kept.setPage (h : Kept s s') (hb : b ∉ s.tree.live) (q : Page α) :
    Kept s (s'.setPage b q) := by
  refine ⟨h.root, fun e he => ?_, h.live, h.smoSeq, h.locked, h.allocs, h.rcu⟩
  rw [← h.mem e he]
  have hne : e ≠ b := fun heb => hb (heb ▸ he)
  exact mem_setPage_ne _ hne

theorem Kept.pushLock (h : Kept s s') : Kept s (s'.pushLock b) := by
  refine ⟨h.root, h.mem, h.live, h.smoSeq, ?_, h.allocs, h.rcu⟩
  show insert b s'.tree.locked = (b :: s'.lockStack).toFinset
  rw [h.locked, List.toFinset_cons]

/-- The part of `split_insert` between the allocations and the parent. -/
def Call.splitInto (c : Config) (fuel node : ℕ) (keyValue : α × ℕ) (newLeft right : ℕ) :
    Prog (Call α) (Call.Halves α) := do
  Call.free node
  let s ← Prog.fetch
  Call.initNode newLeft (s.tree.mem node).isLeaf
  Call.initNode right (s.tree.mem node).isLeaf
  Call.lock newLeft
  Call.lock right
  Call.copyNode c node newLeft 0 ((s.tree.mem node).entries.length / 2)
  Call.copyNode c node right ((s.tree.mem node).entries.length / 2) (s.tree.mem node).entries.length
  let rightKey ← Call.getLeftMostKey fuel right
  if rightKey.1 < keyValue.1 then Call.insertLocked c right keyValue
  else Call.insertLocked c newLeft keyValue
  let leftKey ← Call.getLeftMostKey fuel newLeft
  return ⟨(leftKey.1, newLeft), (rightKey.1, right)⟩

/-- The tree that is meant when `x` has to go between `us` and `vs` to the node at `a`. -/
abbrev meant (up : Path α ℕ (n + 1)) (a : ℕ) (us vs : List (α × Node α ℕ n)) (k : α)
    (x : Node α ℕ n) : Σ N, Node α ℕ N := plug up (node a (us ++ (k, x) :: vs))

/-- An entry has to go to the node at `a`, below the nodes on the stack. -/
structure Pending (c : Config) (S : ℕ → Prop) (s : Call α) (up : Path α ℕ (n + 1)) (a : ℕ)
    (us vs : List (α × Node α ℕ n)) (k : α) (x : Node α ℕ n) (i m : ℕ) : Prop where
  root : s.tree.root = up.root a
  path : LinkedPath (Holds c S s.tree.mem) up a
  page : Holds c S s.tree.mem n a (words (us ++ vs))
  entries : ∀ e ∈ us ++ (k, x) :: vs, Linked (Holds c S s.tree.mem) e.2
  order : Ordered False (mark s.tree.mem) (fun _ => True) (meant up a us vs k x).2
  readable : Readable (mark s.tree.mem) (meant up a us vs k x).2
  tidy : Tidy s i m (addrs (meant up a us vs k x).2)
  stamp : S s.tree.smoSeq
  unlocked : ∀ b ∈ up.nodes, b ∉ s.lockStack
  not_new : ∀ b ∈ a :: up.nodes, b ∉ s.allocStack

/-- `split_insert` comes to the node at `a`, which is locked. -/
structure Rising (c : Config) (S : ℕ → Prop) (s : Call α) (up : Path α ℕ (n + 1)) (a : ℕ)
    (us vs : List (α × Node α ℕ n)) (k : α) (x : Node α ℕ n) (i : ℕ) : Prop
    extends Pending c S s up a us vs k x i (3 * i + 1) where
  locked : a ∈ s.lockStack

/-- The halves of a node for the new pages `l` and `r`, with the keys for them. -/
structure Cut (s : Call α) (us vs : List (α × Node α ℕ n)) (k : α) (x : Node α ℕ n) (l r : ℕ)
    (ls rs : List (α × Node α ℕ n)) (k' d : α) : Prop where
  split : Splittable us vs
  halves : halves us vs (k, x) = (ls, rs)
  left_new : l ∉ s.tree.live
  right_new : r ∉ s.tree.live
  ne : l ≠ r
  left_key : leftKey (mark s.tree.mem) (node l ls) = some k'
  right_key : leftKey (mark s.tree.mem) (node r rs) = some d

section Split
variable {up : Path α ℕ (n + 1)} {us vs ls rs : List (α × Node α ℕ n)} {x : Node α ℕ n}
  {m l r : ℕ} {k' d : α}

namespace Cut

theorem append (h : Cut s us vs k x l r ls rs k' d) : ls ++ rs = us ++ (k, x) :: vs := by
  have happend : (BTree.halves us vs (k, x)).1 ++ (BTree.halves us vs (k, x)).2 = _ := halves_append
  rwa [h.halves] at happend

theorem ne_nil (h : Cut s us vs k x l r ls rs k' d) : ls ≠ [] ∧ rs ≠ [] := by
  have hne := halves_ne_nil (x := (k, x)) h.split
  rwa [h.halves] at hne

theorem length_le (h : Cut s us vs k x l r ls rs k' d) :
    ls.length ≤ (us ++ vs).length ∧ rs.length ≤ (us ++ vs).length := by
  have hle := length_halves_le (x := (k, x)) h.split
  rwa [h.halves] at hle

theorem left_sub (h : Cut s us vs k x l r ls rs k' d) : ∀ e ∈ ls, e ∈ us ++ (k, x) :: vs :=
  fun _ he => h.append ▸ List.mem_append_left _ he

theorem right_sub (h : Cut s us vs k x l r ls rs k' d) : ∀ e ∈ rs, e ∈ us ++ (k, x) :: vs :=
  fun _ he => h.append ▸ List.mem_append_right _ he

end Cut

namespace Pending

theorem mem_live (h : Pending c S s up a us vs k x i m) (hb : b ∈ addrs (meant up a us vs k x).2) :
    b ∈ s.tree.live := by
  refine Multiset.mem_of_le h.tidy.count (Multiset.mem_cons_of_mem ?_)
  exact Multiset.mem_add.mpr (.inl hb)

theorem node_mem (h : Pending c S s up a us vs k x i m) : a ∈ s.tree.live := by
  refine h.mem_live ?_
  rw [addrs_plug, addrs_node]
  simp

theorem entry_mem (h : Pending c S s up a us vs k x i m)
    (hb : b ∈ addrsOf (us ++ (k, x) :: vs)) : b ∈ s.tree.live := by
  refine h.mem_live ?_
  rw [addrs_plug, addrs_node, Multiset.mem_add, Multiset.mem_add]
  exact .inl (.inr hb)

/-- The pages of the tree are all different. -/
theorem nodup (h : Pending c S s up a us vs k x i m) : (addrs (meant up a us vs k x).2).Nodup := by
  have hnodup := Multiset.nodup_of_le h.tidy.count s.tree.live.nodup
  rw [Multiset.nodup_cons, Multiset.nodup_add] at hnodup
  exact hnodup.2.1

theorem node_notMem (h : Pending c S s up a us vs k x i m) :
    a ∉ addrsOf (us ++ (k, x) :: vs) ∧ a ∉ up.addrs := by
  have hnodup := h.nodup
  rw [addrs_plug, addrs_node] at hnodup
  simp only [Multiset.nodup_add, Multiset.disjoint_add_left, Multiset.singleton_disjoint] at hnodup
  exact ⟨hnodup.1.2.2, hnodup.2.2.1⟩

end Pending

namespace Rising

/-- The first key of the right half tells where the record belongs. -/
theorem right_key_lt (h : Rising c S s up a us vs k x i)
    (hcut : Cut s us vs k x l r ls rs k' d) : d < k ↔ (us ++ vs).length / 2 < us.length := by
  have hnode := h.order.hole
  have hd := hcut.right_key
  have hhalves := hcut.halves
  by_cases hm : (us ++ vs).length / 2 < us.length
  · rw [halves, if_pos hm, List.drop_eq_getElem_cons hm] at hhalves
    cases hhalves
    have hcut : us ++ (k, x) :: vs = us.take ((us ++ vs).length / 2) ++
        us[(us ++ vs).length / 2] :: (us.drop ((us ++ vs).length / 2 + 1) ++ (k, x) :: vs) := by
      rw [← List.cons_append, ← List.drop_eq_getElem_cons hm, ← List.append_assoc,
        List.take_append_drop]
    rw [hcut] at hnode
    exact iff_of_true ((hnode.leftKey_region hd).2 (k, x) (by simp)) hm
  · obtain ⟨e, rest, rfl⟩ := List.exists_cons_of_ne_nil hcut.ne_nil.2
    rw [halves, if_neg hm, Prod.mk.injEq] at hhalves
    have hvs := List.take_append_drop ((us ++ vs).length / 2 - us.length) vs
    rw [hhalves.2] at hvs
    have hcut : us ++ (k, x) :: vs =
        (us ++ (k, x) :: vs.take ((us ++ vs).length / 2 - us.length)) ++ e :: rest := by
      nth_rewrite 1 [← hvs]
      simp
    have hsorted := hnode.keys_sorted
    rw [List.pairwise_append, List.pairwise_cons] at hsorted
    have hke : k < e.1 := hsorted.2.1.1 e (by rw [← hvs]; simp)
    rw [hcut] at hnode
    exact iff_of_false (hke.trans_le ((hnode.leftKey_region hd).1 (by simp))).not_gt hm

theorem locked_opened (h : Rising c S s up a us vs k x i) (hl : a ≠ l) (hr : a ≠ r) :
    a ∈ (s.opened a l r).tree.locked := by
  have ha : a ∈ s.tree.locked := by
    rw [h.tidy.locked]
    simpa using h.locked
  show a ∈ insert r (insert l ((s.tree.locked.erase l).erase r))
  simp [hl, hr, ha]

theorem run_copyHalves {β : Type} (m : Prog (Call α) β) (h : Rising c S s up a us vs k x i)
    (hl : l ∉ s.tree.live) (hr : r ∉ s.tree.live) (hlr : l ≠ r) :
    (do
      Call.copyNode c a l 0 ((us ++ vs).length / 2)
      Call.copyNode c a r ((us ++ vs).length / 2) (us ++ vs).length
      m) (s.opened a l r) = m (s.halved c a l r (words ((us ++ vs).take ((us ++ vs).length / 2)))
        (words ((us ++ vs).drop ((us ++ vs).length / 2)))) := by
  have hal : a ≠ l := fun he => hl (he ▸ h.node_mem)
  have har : a ≠ r := fun he => hr (he ▸ h.node_mem)
  have hlocked := h.locked_opened hal har
  have hpage : ((s.opened a l r).tree.mem a).entries = words (us ++ vs) := by
    rw [mem_opened hal har, h.page.entries]
  have hfit := h.page.fit
  have htake : (((s.opened a l r).tree.mem a).entries.take ((us ++ vs).length / 2)).drop 0 =
      words ((us ++ vs).take ((us ++ vs).length / 2)) := by
    rw [hpage, List.drop_zero, words, words, List.map_take]
  have hright : ((s.opened a l r).setPage l (filled c (s.tree.mem a).isLeaf s.tree.smoSeq
      (words ((us ++ vs).take ((us ++ vs).length / 2))))).tree.mem r =
        filled c (s.tree.mem a).isLeaf s.tree.smoSeq [] := by
    rw [mem_setPage_ne _ hlr.symm, mem_opened_right]
  have hdrop : ((((s.opened a l r).tree.mem a).entries.take (us ++ vs).length).drop
      ((us ++ vs).length / 2)) = words ((us ++ vs).drop ((us ++ vs).length / 2)) := by
    rw [hpage, List.take_of_length_le (by simp), words, words, List.map_drop]
  have hfirst : Call.copyNode c a l 0 ((us ++ vs).length / 2) (s.opened a l r) =
      some (some (), (s.opened a l r).setPage l (filled c (s.tree.mem a).isLeaf s.tree.smoSeq
        (words ((us ++ vs).take ((us ++ vs).length / 2))))) := by
    refine (wp_copyNode hlocked (mem_opened_left hlr) left_mem_opened (by rwa [hpage]) ?_).run
    rw [htake]
    exact ⟨rfl, rfl⟩
  have hsecond : Call.copyNode c a r ((us ++ vs).length / 2) (us ++ vs).length
      ((s.opened a l r).setPage l (filled c (s.tree.mem a).isLeaf s.tree.smoSeq
        (words ((us ++ vs).take ((us ++ vs).length / 2))))) =
      some (some (), s.halved c a l r (words ((us ++ vs).take ((us ++ vs).length / 2)))
        (words ((us ++ vs).drop ((us ++ vs).length / 2)))) := by
    refine (wp_copyNode (s := (s.opened a l r).setPage l _) hlocked hright right_mem_opened ?_
      ?_).run
    · rwa [mem_setPage_ne _ hal, hpage]
    · rw [mem_setPage_ne _ hal, hdrop]
      exact ⟨rfl, rfl⟩
  rw [run_bind hfirst, run_bind hsecond]

/-- The record comes to its half. -/
theorem wp_insertHalf {β : Type} {f : Unit → Prog (Call α) β} {Q : β → Call α → Prop}
    (h : Rising c S s up a us vs k x i) (hcut : Cut s us vs k x l r ls rs k' d)
    (hQ : Wp (f ()) (s.halved c a l r (words ls) (words rs)) Q E) :
    Wp (if d < k then Call.insertLocked c r (k, ptr x) >>= f
        else Call.insertLocked c l (k, ptr x) >>= f)
      (s.halved c a l r (words ((us ++ vs).take ((us ++ vs).length / 2)))
        (words ((us ++ vs).drop ((us ++ vs).length / 2)))) Q E := by
  have hsorted := h.order.hole.keys_sorted
  rw [List.pairwise_append, List.pairwise_cons] at hsorted
  obtain ⟨-, ⟨hvs, -⟩, hus⟩ := hsorted
  have hfit := h.page.fit
  rw [length_words] at hfit
  have hhalves := hcut.halves
  obtain ⟨hlen₁, hlen₂⟩ := hcut.length_le
  have hlr := hcut.ne
  by_cases hm : (us ++ vs).length / 2 < us.length
  · rw [if_pos ((h.right_key_lt hcut).mpr hm), wp_bind]
    rw [halves, if_pos hm] at hhalves
    cases hhalves
    rw [List.take_append_of_le_length hm.le, List.drop_append_of_le_length hm.le, words_append]
    refine wp_insertFilled right_mem_opened (mem_setPage_self _) (fun e he => ?_)
      (fun e he => ?_) ?_ ?_
    · obtain ⟨f, hf, rfl⟩ := List.mem_map.mp he
      exact (hus f (List.mem_of_mem_drop hf) (k, x) (by simp)).le
    · obtain ⟨f, hf, rfl⟩ := List.mem_map.mp he
      exact hvs f hf
    · refine le_trans (Nat.mul_le_mul_right _ ?_) hfit
      simpa using hlen₂
    · rw [Call.halved, setPage_setPage]
      simpa only [Call.halved, words_append, words_cons] using hQ
  · rw [if_neg (mt (h.right_key_lt hcut).mp hm), wp_bind]
    rw [halves, if_neg hm] at hhalves
    cases hhalves
    rw [List.take_append, List.take_of_length_le (by omega), List.drop_append,
      List.drop_eq_nil_of_le (by omega), List.nil_append, words_append, Call.halved,
      setPage_comm hlr]
    refine wp_insertFilled left_mem_opened (mem_setPage_self _) (fun e he => ?_)
      (fun e he => ?_) ?_ ?_
    · obtain ⟨f, hf, rfl⟩ := List.mem_map.mp he
      exact (hus f hf (k, x) (by simp)).le
    · obtain ⟨f, hf, rfl⟩ := List.mem_map.mp he
      exact hvs f (List.mem_of_mem_take hf)
    · refine le_trans (Nat.mul_le_mul_right _ ?_) hfit
      simpa using hlen₁
    · rw [setPage_setPage, ← setPage_comm hlr]
      simpa only [Call.halved, words_append, words_cons] using hQ

/-- A new page with a part of the entries. -/
theorem holds_half {mem : ℕ → Page α} {fs : List (α × Node α ℕ n)}
    (h : Rising c S s up a us vs k x i) (hlen : fs.length ≤ (us ++ vs).length)
    (hpage : mem b = filled c (s.tree.mem a).isLeaf s.tree.smoSeq (words fs)) :
    Holds c S mem n b (words fs) := by
  have hfit := h.page.fit
  rw [length_words] at hfit
  rw [h.page.isLeaf] at hpage
  refine holds_filled (fun _ => h.stamp) ?_ hpage
  rw [length_words]
  exact le_trans (Nat.mul_le_mul_right _ hlen) hfit

theorem leftMost_half {us' vs' : List (α × ℕ)} {fs : List (α × Node α ℕ n)}
    (h : Rising c S s up a us vs k x i) (hl : l ∉ s.tree.live) (hr : r ∉ s.tree.live)
    (hfuel : n < fuel) (hlen : fs.length ≤ (us ++ vs).length)
    (hpage : (s.halved c a l r us' vs').tree.mem b =
      filled c (s.tree.mem a).isLeaf s.tree.smoSeq (words fs))
    (hne : fs ≠ []) (hsub : ∀ e ∈ fs, e ∈ us ++ (k, x) :: vs)
    (hd : leftKey (mark s.tree.mem) (node b fs) = some d) :
    ∃ v, Call.leftMostLoop (s.halved c a l r us' vs').tree.mem fuel b = some (d, v) := by
  refine leftMostLoop_part (h.holds_half hlen hpage) hne hsub (fun e he => ?_) h.entries
    h.readable.hole hd hfuel
  have hlive := h.entry_mem he
  exact mem_halved (fun hel => hl (hel ▸ hlive)) (fun her => hr (her ▸ hlive))

/-- There are keys for the halves. -/
theorem exists_cut (h : Rising c S s up a us vs k x i) (hsplit : Splittable us vs)
    (hl : l ∉ s.tree.live) (hr : r ∉ s.tree.live) (hlr : l ≠ r) :
    ∃ ls rs k' d, Cut s us vs k x l r ls rs k' d := by
  have happend : (halves us vs (k, x)).1 ++ (halves us vs (k, x)).2 = us ++ (k, x) :: vs :=
    halves_append
  obtain ⟨hne₁, hne₂⟩ := halves_ne_nil (x := (k, x)) hsplit
  obtain ⟨k', hk⟩ := exists_leftKey_part (l := l) h.readable.hole
    (fun e he => happend ▸ List.mem_append_left _ he) hne₁
  obtain ⟨d, hd⟩ := exists_leftKey_part (l := r) h.readable.hole
    (fun e he => happend ▸ List.mem_append_right _ he) hne₂
  exact ⟨_, _, k', d, hsplit, rfl, hl, hr, hlr, hk, hd⟩

/-- The right half has its first entry from the beginning. -/
theorem leftMost_right (h : Rising c S s up a us vs k x i) (hcut : Cut s us vs k x l r ls rs k' d)
    (hfuel : n < fuel) :
    ∃ v, Call.leftMostLoop (s.halved c a l r (words ((us ++ vs).take ((us ++ vs).length / 2)))
      (words ((us ++ vs).drop ((us ++ vs).length / 2)))).tree.mem fuel r = some (d, v) := by
  obtain ⟨e, es, fs, hes, hfs⟩ := halves_head (x := (k, x)) hcut.split
  have hd : leftKey (mark s.tree.mem)
      (node r ((us ++ vs).drop ((us ++ vs).length / 2))) = some d := by
    have hkey := hcut.right_key
    rw [hcut.halves] at hfs
    simp only at hfs
    rw [hfs] at hkey
    rw [hes, ← hkey]
    exact leftKey_head fun _ _ => rfl
  refine h.leftMost_half hcut.left_new hcut.right_new hfuel ?_ mem_halved_right ?_
    (fun f hf => ?_) hd
  · rw [List.length_drop]
    omega
  · rw [hes]
    simp
  · rcases List.mem_append.mp (List.mem_of_mem_drop hf) with hf | hf <;> simp [hf]

/-- The halves are filled from the old node. -/
theorem wp_fill {Q : Call.Halves α → Call α → Prop} (h : Rising c S s up a us vs k x i)
    (hfuel : n < fuel) (hcut : Cut s us vs k x l r ls rs k' d)
    (hQ : Q ⟨(k', l), (d, r)⟩ (s.halved c a l r (words ls) (words rs))) :
    Wp (do
      Call.copyNode c a l 0 ((us ++ vs).length / 2)
      Call.copyNode c a r ((us ++ vs).length / 2) (us ++ vs).length
      let rightKey ← Call.getLeftMostKey fuel r
      if rightKey.1 < k then Call.insertLocked c r (k, ptr x)
      else Call.insertLocked c l (k, ptr x)
      let leftKey ← Call.getLeftMostKey fuel l
      return ⟨(leftKey.1, l), (rightKey.1, r)⟩) (s.opened a l r) Q E := by
  obtain ⟨v, hv⟩ := h.leftMost_right (c := c) hcut hfuel
  obtain ⟨w, hw⟩ := h.leftMost_half hcut.left_new hcut.right_new hfuel hcut.length_le.1
    (mem_halved_left hcut.ne) hcut.ne_nil.1 hcut.left_sub hcut.left_key
  rw [wp_congr (h.run_copyHalves _ hcut.left_new hcut.right_new hcut.ne), wp_bind]
  refine wp_getLeftMostKey hv ?_
  refine h.wp_insertHalf hcut ?_
  rw [wp_bind]
  exact wp_getLeftMostKey hw hQ

theorem guard_room (h : Rising c S s up a us vs k x i) (hlocks : s.lockStack.length ≤ maxDepth) :
    2 * i + 2 < guardSize := by
  have hstack := h.tidy.locks
  have hdepth : maxDepth = 16 := rfl
  have hsize : guardSize = 32 := rfl
  omega

theorem node_not_freed (h : Rising c S s up a us vs k x i) : a ∉ s.freeStack := by
  have hnodup := Multiset.nodup_of_le h.tidy.count s.tree.live.nodup
  rw [Multiset.nodup_cons, Multiset.nodup_add] at hnodup
  intro hfree
  refine Multiset.disjoint_left.mp hnodup.2.2.2 ?_ (Multiset.mem_coe.mpr hfree)
  rw [addrs_plug, addrs_node]
  simp

/-- The old node is given to the guard, and the new pages are cleared. -/
theorem run_blanked {β : Type} (f : Call α → Prog (Call α) β) (h : Rising c S s up a us vs k x i)
    (hguard : 2 * i + 2 < guardSize) (hl : l ∉ s.tree.live) (hr : r ∉ s.tree.live) :
    (do
      Call.free a
      let s ← Prog.fetch
      Call.initNode l (s.tree.mem a).isLeaf
      Call.initNode r (s.tree.mem a).isLeaf
      f s) ((s.take l).take r) = f { (s.take l).take r with freeStack := a :: s.freeStack }
        (({ (s.take l).take r with freeStack := a :: s.freeStack }.blank l
          (s.tree.mem a).isLeaf).blank r (s.tree.mem a).isLeaf) := by
  have ht := h.tidy
  have ha := h.node_mem
  have hal : a ≠ l := fun he => hl (he ▸ ha)
  have har : a ≠ r := fun he => hr (he ▸ ha)
  have hfree : Call.free a ((s.take l).take r) =
      some (some (), { (s.take l).take r with freeStack := a :: s.freeStack }) := by
    refine (wp_free (s := (s.take l).take r) ?_ ?_ h.node_not_freed ?_ ⟨rfl, rfl⟩).run
    · exact fun hb => ht.clean a (List.mem_of_mem_erase (List.mem_of_mem_erase hb)) ha
    · show a ∉ r :: l :: s.allocStack
      simpa [hal, har] using h.not_new a (by simp)
    · show s.freeStack.length < guardSize
      rw [ht.frees]
      omega
  exact run_bind hfree

theorem wp_splitInto {Q : Call.Halves α → Call α → Prop} (h : Rising c S s up a us vs k x i)
    (hfuel : n < fuel) (hguard : 2 * i + 2 < guardSize) (hcut : Cut s us vs k x l r ls rs k' d)
    (hE : ∀ s', Kept s s' → maxDepth < s.lockStack.length + 2 → E s')
    (hQ : s.lockStack.length + 2 ≤ maxDepth →
      Q ⟨(k', l), (d, r)⟩ (s.halved c a l r (words ls) (words rs))) :
    Wp (Call.splitInto c fuel a (k, ptr x) l r) ((s.take l).take r) Q E := by
  have ht := h.tidy
  have hl := hcut.left_new
  have hr := hcut.right_new
  have hlr := hcut.ne
  have hkept : Kept s ((s.take l).take r) := ((Kept.refl ht.locked).take hl).take hr
  have hlock_l : l ∉ s.lockStack := fun hb => hl (ht.locks_live l hb)
  have hlock_r : r ∉ s.lockStack := fun hb => hr (ht.locks_live r hb)
  have hcount : (s.tree.mem a).entries.length = (us ++ vs).length := by
    rw [h.page.entries, length_words]
  rw [Call.splitInto, wp_congr (h.run_blanked _ hguard hl hr)]
  have hmem : ((s.take l).take r).tree.mem = s.tree.mem := rfl
  simp only [hmem, hcount]
  have hblank := (hkept.free (a :: s.freeStack)).blank (s.tree.mem a).isLeaf hl hlock_l
  have hblank' := hblank.blank (s.tree.mem a).isLeaf hr hlock_r
  rw [wp_bind]
  by_cases hfirst : s.lockStack.length < maxDepth
  · refine wp_lock_free hfirst (by simp [Call.blank, hlr]) ?_
    rw [wp_bind]
    by_cases hsecond : s.lockStack.length + 1 < maxDepth
    · refine wp_lock_free hsecond (by simp [Call.blank, Call.pushLock, hlr.symm]) ?_
      exact h.wp_fill hfuel hcut (hQ hsecond)
    · exact wp_lock_full hsecond (hE _ hblank'.pushLock (by omega))
  · exact wp_lock_full hfirst (hE _ hblank' (by omega))

/-- The two allocations of `split_insert` succeed. -/
theorem run_splitNode (h : Rising c S s up a us vs k x i)
    (hfresh : FreshSupply supply) (hlocks : s.lockStack.length ≤ maxDepth)
    (hgrown : grown supply 2 s.tree.live ≠ none) :
    ∃ l r, l ∉ s.tree.live ∧ r ∉ s.tree.live ∧ l ≠ r ∧
      grown supply 2 s.tree.live = some (insert r (insert l s.tree.live)) ∧
      Call.splitNode c supply fuel a (k, ptr x) s =
        Call.splitInto c fuel a (k, ptr x) l r ((s.take l).take r) := by
  have ht := h.tidy
  have hguard := h.guard_room hlocks
  have hfrees : ∀ b ∈ s.freeStack, b ∈ s.tree.live := fun b hb =>
    Multiset.mem_of_le ht.count (by simp [hb])
  obtain ⟨l, hl⟩ : ∃ l, supply s.tree.live = some l := by
    refine Option.ne_none_iff_exists'.mp fun hnone => hgrown ?_
    simp [grown, hnone]
  obtain ⟨r, hr⟩ : ∃ r, supply (insert l s.tree.live) = some r := by
    refine Option.ne_none_iff_exists'.mp fun hnone => hgrown ?_
    simp [grown, hl, hnone]
  have hlive := hfresh _ _ hl
  have hrl := hfresh _ _ hr
  rw [Finset.mem_insert, not_or] at hrl
  have hfirst : Call.alloc supply s = some (some (some l), s.take l) :=
    alloc_of_some hfresh ht.allocs_live hfrees (by rw [ht.allocs]; omega) hl
  have hsecond : Call.alloc supply (s.take l) = some (some (some r), (s.take l).take r) := by
    refine alloc_of_some hfresh (fun b hb => ?_) (fun b hb => ?_) ?_ hr
    · rcases List.mem_cons.mp hb with rfl | hb
      · exact Finset.mem_insert_self ..
      · exact Finset.mem_insert_of_mem (ht.allocs_live b hb)
    · exact Finset.mem_insert_of_mem (hfrees b hb)
    · show (l :: s.allocStack).length < guardSize
      rw [List.length_cons, ht.allocs]
      omega
  refine ⟨l, r, hlive, hrl.2, Ne.symm hrl.1, by simp [grown, hl, hr], ?_⟩
  rw [Call.splitNode, run_bind hfirst, run_bind hsecond]
  rfl

/-- One of the two allocations of `split_insert` fails. -/
theorem wp_splitNode_none {Q : Call.Halves α → Call α → Prop}
    (h : Rising c S s up a us vs k x i) (hfresh : FreshSupply supply)
    (hlocks : s.lockStack.length ≤ maxDepth) (hgrown : grown supply 2 s.tree.live = none)
    (hE : ∀ s', Kept s s' → E s') :
    Wp (Call.splitNode c supply fuel a (k, ptr x)) s Q E := by
  have ht := h.tidy
  have hself : Kept s s := Kept.refl ht.locked
  have hguard := h.guard_room hlocks
  have hfrees : ∀ b ∈ s.freeStack, b ∈ s.tree.live := fun b hb =>
    Multiset.mem_of_le ht.count (by simp [hb])
  cases hl : supply s.tree.live with
  | none =>
    have hnone : Call.alloc supply s = some (some none, s) := alloc_of_none hl
    rw [Call.splitNode, wp_congr (run_bind hnone), wp_congr (run_bind hnone)]
    exact hE s hself
  | some l =>
    have hfirst : Call.alloc supply s = some (some (some l), s.take l) :=
      alloc_of_some hfresh ht.allocs_live hfrees (by rw [ht.allocs]; omega) hl
    have hr : supply (insert l s.tree.live) = none := by
      by_contra hsome
      obtain ⟨r, hr⟩ := Option.ne_none_iff_exists'.mp hsome
      simp [grown, hl, hr] at hgrown
    rw [Call.splitNode, wp_congr (run_bind hfirst), wp_congr (run_bind (alloc_of_none hr))]
    exact hE _ (hself.take (hfresh _ _ hl))

/-- The part of `split_insert` below the parent. -/
theorem wp_splitNode {Q : Call.Halves α → Call α → Prop} (h : Rising c S s up a us vs k x i)
    (hfresh : FreshSupply supply) (hsplit : Splittable us vs) (hfuel : n < fuel)
    (hlocks : s.lockStack.length ≤ maxDepth)
    (hE : ∀ s', Kept s s' →
      grown supply 2 s.tree.live = none ∨ maxDepth < s.lockStack.length + 2 → E s')
    (hQ : ∀ l r ls rs k' d, s.lockStack.length + 2 ≤ maxDepth →
      grown supply 2 s.tree.live = some (insert r (insert l s.tree.live)) →
      Cut s us vs k x l r ls rs k' d →
      Q ⟨(k', l), (d, r)⟩ (s.halved c a l r (words ls) (words rs))) :
    Wp (Call.splitNode c supply fuel a (k, ptr x)) s Q E := by
  by_cases hnone : grown supply 2 s.tree.live = none
  · exact h.wp_splitNode_none hfresh hlocks hnone fun s' hs' => hE s' hs' (.inl hnone)
  · obtain ⟨l, r, hl, hr, hlr, hgrown, hrun⟩ := h.run_splitNode hfresh hlocks hnone
    obtain ⟨ls, rs, k', d, hcut⟩ := h.exists_cut hsplit hl hr hlr
    rw [wp_congr hrun]
    exact h.wp_splitInto hfuel (h.guard_room hlocks) hcut
      (fun s' hs' hroom => hE s' hs' (.inr hroom)) fun hroom => hQ l r ls rs k' d hroom hgrown hcut

end Rising
end Split
end YwStorage.BTree
