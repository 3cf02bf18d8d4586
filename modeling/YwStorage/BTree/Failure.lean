import YwStorage.BTree.Find

/-!
What is left after an `insert` that fails. A failure is harmless as long as no parent has been given
to a half; the pages of the halves go back to the pool in any case.
-/
namespace YwStorage.BTree
open MultiTree Programs Supply

variable {α : Type} [LinearOrder α] {c : Config} {S : ℕ → Prop} {supply : Finset ℕ → Option ℕ}
  {t t' : Tree α} {s s' : Call α} {T : Σ N, Node α ℕ N} {mem : ℕ → Page α}
  {n a b i p fuel value : ℕ} {k key : α} {up : Path α ℕ 1} {us vs : List (α × Node α ℕ 0)}

/-- `split_insert` has not enough pages, or not enough locks. -/
def Short (c : Config) (supply : Finset ℕ → Option ℕ) (t : Tree α) (ps : List ℕ) : Prop :=
  maxDepth < 3 * fullRun c t.mem ps + 3 ∨ grown supply (need c t.mem ps) t.live = none

/-- There is no space in the leaf with `us` and `vs` below the nodes `ps`, and it cannot be split:
the stack of nodes is too small, there are no pages for the leaf, or something is missing later. -/
def GivesUp (c : Config) (supply : Finset ℕ → Option ℕ) (t : Tree α) (ps : List ℕ)
    (us vs : List (α × Node α ℕ 0)) : Prop :=
  maxDepth ≤ ps.length ∨ us ++ vs ≠ [] ∧ grown supply 2 t.live = none ∨
    Splittable us vs ∧ Short c supply t ps

/-- The leaf is split, its parent has no space for the halves and something is missing later. -/
def Tears (c : Config) (supply : Finset ℕ → Option ℕ) (t : Tree α) (ps : List ℕ)
    (us vs : List (α × Node α ℕ 0)) : Prop :=
  ps.length < maxDepth ∧ Splittable us vs ∧ Short c supply t ps ∧ 0 < fullRun c t.mem ps ∧
    grown supply 2 t.live ≠ none

/-- `smo_seq` begins at 0 again, and there is a record below an inner page. -/
def Wraps (t : Tree α) (T : Σ N, Node α ℕ N) : Prop :=
  2 ^ 32 ≤ t.smoSeq + 2 ∧ 1 < T.1 ∧ whole T ≠ []

/-- The records are found as before, no page of the tree is given away, and none is locked. -/
structure Unharmed (t : Tree α) (T : Σ N, Node α ℕ N) (t' : Tree α) : Prop where
  find : ∀ k v, (k, v) ∈ whole T → ∀ fuel, T.1 ≤ fuel → t'.find fuel k = t.find fuel k
  rcu : ∀ b, Reach t' b → b ∉ t'.rcu
  unlocked : t'.locked = ∅

/-! ### The tree is kept -/

theorem Reach.congr (hb : Reach t' b) (hroot : t'.root = t.root)
    (hmem : ∀ d, Reach t' d → t'.mem d = t.mem d) : Reach t b := by
  induction hb with
  | root =>
    rw [hroot]
    exact .root
  | child ha hinner he ih =>
    rw [hmem _ ha] at hinner he
    exact .child ih hinner he

namespace Kept

theorem stands (h : WellFormed c (fun _ => True) t T) (hk : Kept t.begin s') :
    Stands c (fun _ => True) (s'.finish false) T := by
  obtain ⟨new, hnew, hfresh⟩ := hk.allocs
  have hmem : ∀ b ∈ addrs T.2, s'.tree.mem b = t.mem b := fun b hb => hk.mem b (h.mem_live hb)
  refine ⟨hk.root.trans h.root, h.linked.congr fun b hb _ _ hold => hold.congr (hmem b hb),
    h.order.congr fun b hb => mark_congr (hmem b hb), ?_⟩
  show 0 ::ₘ addrs T.2 ≤ (s'.tree.live \ s'.allocStack.toFinset).val
  rw [Multiset.le_iff_subset (Multiset.nodup_of_le h.count t.live.nodup)]
  intro b hb
  have hlive : b ∈ t.live := Multiset.mem_of_le h.count hb
  rw [Finset.mem_val, Finset.mem_sdiff, List.mem_toFinset, hnew]
  refine ⟨hk.live hlive, fun hb => ?_⟩
  rcases List.mem_append.mp hb with hb | hb
  · exact hfresh b hb hlive
  · exact List.not_mem_nil hb

theorem smoSeq_finish (hk : Kept t.begin s') :
    (s'.finish false).smoSeq = (t.smoSeq + 2) % 2 ^ 32 := by
  show (s'.tree.smoSeq + 1) % 2 ^ 32 = _
  rw [hk.smoSeq]
  rfl

theorem unlocked_finish (hk : Kept t.begin s') : (s'.finish false).locked = ∅ := by
  show s'.tree.locked \ s'.lockStack.toFinset = ∅
  rw [hk.locked, Finset.sdiff_self]

/-- Without a wrap of `smo_seq` all searches go on as before. -/
theorem searchable (h : WellFormed c (fun _ => True) t T) (hs : Settled c t)
    (hk : Kept t.begin s') (hwrap : t.smoSeq + 2 < 2 ^ 32 ∨ T.1 ≤ 1) :
    Searchable c (s'.finish false) T := by
  have hstands := stands h hk
  have hmem : ∀ b ∈ addrs T.2, s'.tree.mem b = t.mem b := fun b hb => hk.mem b (h.mem_live hb)
  refine ⟨hstands, h.height, fun hT => (h.readable hT).congr fun b hb => mark_congr (hmem b hb),
    hk.unlocked_finish, fun b hb hinner => ?_⟩
  have hb' := hstands.reach_mem h.height hb
  have hone := hstands.one_lt_of_inner h.height hb hinner
  have hreach : Reach t b :=
    hb.congr hk.root fun d hd => hmem d (hstands.reach_mem h.height hd)
  have hinner' : (s'.tree.mem b).isLeaf = false := hinner
  rw [hmem b hb'] at hinner'
  have hstamp := hs.stamp b hreach hinner'
  rw [hk.smoSeq_finish, Nat.mod_eq_of_lt (by omega)]
  show (s'.tree.mem b).smoSeq < _
  rw [hmem b hb']
  omega

theorem unharmed (h : WellFormed c (fun _ => True) t T) (hs : Settled c t)
    (hk : Kept t.begin s') (hwrap : ¬ Wraps t T) : Unharmed t T (s'.finish false) := by
  have hstands := stands h hk
  refine ⟨fun k v hmem fuel hfuel => ?_, fun b hb hrcu => ?_, hk.unlocked_finish⟩
  · have hsmall : t.smoSeq + 2 < 2 ^ 32 ∨ T.1 ≤ 1 := by
      by_contra hno
      push Not at hno
      exact hwrap ⟨hno.1, hno.2, List.ne_nil_of_mem hmem⟩
    rw [(searchable h hs hk hsmall).find_eq hmem hfuel, (h.searchable hs).find_eq hmem hfuel]
  · have hlive := h.mem_live (hstands.reach_mem h.height hb)
    obtain ⟨new, hnew, hfresh⟩ := hk.allocs
    rcases List.mem_append.mp (show b ∈ s'.allocStack ++ s'.tree.rcu from hrcu) with hb' | hb'
    · rw [hnew] at hb'
      rcases List.mem_append.mp hb' with hb' | hb'
      · exact hfresh b hb' hlive
      · exact List.not_mem_nil hb'
    · exact h.clean b (hk.rcu b hb') hlive

end Kept

/-- A search at an inner root begins again and again. -/
theorem findLeaf_zero (hroot : (t.mem t.root).isLeaf = false) (hseq : t.smoSeq = 0) :
    t.findLeaf fuel key = none := by
  unfold Tree.findLeaf
  induction fuel with
  | zero => rfl
  | succ fuel ih =>
    rw [Tree.findLoop]
    simp only [hroot, Bool.false_eq_true, if_false, hseq, Nat.not_lt_zero, ih]
    split_ifs
    · rfl
    · cases (t.mem t.root).get ((t.mem t.root).floor key) <;> rfl

theorem find_zero (hroot : (t.mem t.root).isLeaf = false) (hseq : t.smoSeq = 0) :
    t.find fuel key = none := by
  rw [Tree.find, findLeaf_zero hroot hseq]
  rfl

theorem WellFormed.root_inner (h : WellFormed c S t T) (hT : 1 < T.1) :
    (t.mem t.root).isLeaf = false := by
  obtain ⟨N, x⟩ := T
  obtain ⟨n, rfl⟩ : ∃ n, N = n + 2 := ⟨N - 2, by simp only at hT; omega⟩
  obtain ⟨a, es, rfl⟩ := exists_node x
  have hpage : Holds c S t.mem (n + 1) a (words es) := h.linked.1
  have hroot : t.root = a := h.root
  rw [hroot, hpage.isLeaf]
  simp

/-- After a wrap no record is found. -/
theorem Kept.harmed (h : WellFormed c (fun _ => True) t T) (hs : Settled c t)
    (hk : Kept t.begin s') (hwrap : Wraps t T) : ¬ Unharmed t T (s'.finish false) := by
  obtain ⟨hseq, hT, hne⟩ := hwrap
  obtain ⟨⟨k, v⟩, hmem⟩ := List.exists_mem_of_ne_nil _ hne
  intro hun
  have hfind := hun.find k v hmem T.1 le_rfl
  have hlt := h.seq_lt
  have heven := h.even
  have hroot : (s'.tree.mem s'.tree.root).isLeaf = false := by
    have hlive : t.root ∈ t.live := h.mem_live (h.reach_mem h.height .root)
    rw [hk.root]
    show (s'.tree.mem t.root).isLeaf = false
    rw [hk.mem _ hlive]
    exact h.root_inner hT
  have hnone : (s'.finish false).find T.1 k = none := by
    refine find_zero hroot ?_
    rw [hk.smoSeq_finish]
    omega
  rw [hnone, (h.searchable hs).find_eq hmem le_rfl] at hfind
  cases hfind

/-! ### The ways to fail -/

/-- The upper part of a path. -/
theorem exists_leads (path : Path α ℕ n) (h : Leads mem key path p) {j : ℕ}
    (hj : j ≤ path.length) : ∃ m p', ∃ path' : Path α ℕ m, path'.length = j ∧
      Leads mem key path' p' ∧ path'.root p' = path.root p ∧
      ∀ b ∈ p' :: path'.nodes, b ∈ p :: path.nodes := by
  induction path generalizing p with
  | top =>
    have hzero : j = 0 := Nat.le_zero.mp hj
    exact ⟨_, p, .top, by rw [hzero, Path.length], h, rfl, fun _ hb => hb⟩
  | step a pre k post up ih =>
    rcases Nat.lt_or_eq_of_le hj with hlt | rfl
    · rw [Path.length] at hlt
      obtain ⟨m, p', path', hlen, hleads, hroot, hsub⟩ := ih h.2.2.2.2 (by omega)
      exact ⟨m, p', path', hlen, hleads, hroot, fun b hb => List.mem_cons_of_mem _ (hsub b hb)⟩
    · exact ⟨_, p, .step a pre k post up, rfl, h, rfl, fun _ hb => hb⟩

section Leaf
variable (h : WellFormed c (fun _ => True) t T) (hT : T = plug up (node a (us ++ vs)))
  (hroom : room False (fun _ => True) up key)

include h hT in
theorem WellFormed.root_eq : t.root = up.root a := by
  rw [h.root, hT, ptr_plug, ptr_node]

include h hT hroom in
theorem WellFormed.leads : Leads t.mem key up a := by
  subst hT
  exact leads_of_room up (by omega) (linked_plug.mp h.linked).2 h.order hroom

include h hT in
theorem WellFormed.path_ne_zero : ∀ b ∈ a :: up.nodes, b ≠ 0 := by
  intro b hb
  refine h.ne_zero ?_
  rw [hT, addrs_plug, addrs_node]
  rcases List.mem_cons.mp hb with rfl | hb
  · simp
  · exact Multiset.mem_add.mpr (.inr (up.nodes_subset b hb))

include h hT hroom in
/-- The stack of nodes is too small. -/
theorem WellFormed.wp_smoInsert_deep {Q : Unit → Call α → Prop} (hdepth : maxDepth ≤ up.length) :
    Wp (Call.smoInsert c supply fuel (key, value)) t.begin Q (Kept t.begin) := by
  obtain ⟨m, p, path, hlen, hleads, hroot, hsub⟩ := exists_leads up (h.leads hT hroom) hdepth
  have hnodes : ∀ b ∈ p :: path.nodes, b ≠ 0 := fun b hb => h.path_ne_zero hT b (hsub b hb)
  rw [List.forall_mem_cons] at hnodes
  have hroot' : t.begin.tree.root = path.root p := (h.root_eq hT).trans hroot.symm
  have hloop (R : List ℕ → Call α → Prop) := wp_traversePath (i := 0) (s := t.begin) path (Q := R)
    (E := Kept t.begin) hleads hnodes.1 hnodes.2 hlen.le
  simp only [hlen, Nat.add_zero] at hloop
  unfold Call.smoInsert
  rw [wp_bind, wp_fetch, wp_bind, hroot']
  refine (hloop _).mpr (Kept.refl ?_)
  exact h.unlocked

include h hT hroom in
/-- A leaf without records is not expected. -/
theorem WellFormed.smoInsert_empty (hnil : us ++ vs = []) (hdepth : up.length < maxDepth) :
    Call.smoInsert c supply fuel (key, value) t.begin = none := by
  have hpage := h.leaf_page hT
  have hnodes := h.path_ne_zero hT
  rw [List.forall_mem_cons] at hnodes
  obtain ⟨i, hi⟩ : ∃ i, maxDepth = up.length + (i + 1) := ⟨maxDepth - up.length - 1, by omega⟩
  refine not_wp_true fun hwp => ?_
  have hroot : t.begin.tree.root = up.root a := h.root_eq hT
  have hloop := wp_traversePath (i := i + 1) (s := t.begin) up (Q := fun _ _ => True)
    (E := fun _ => True) (h.leads hT hroom) hnodes.1 hnodes.2 hdepth.le
  unfold Call.smoInsert at hwp
  rw [wp_bind, wp_fetch, wp_bind, hroot, hi] at hwp
  have hleaf := hloop.mp (hwp.mono (fun _ _ _ => trivial) fun _ _ => trivial)
  have hentries : (t.begin.tree.mem a).entries = [] := by
    show (t.mem a).entries = []
    rw [hpage.entries, hnil, words_nil]
  have hisLeaf : (t.begin.tree.mem a).isLeaf = true := hpage.isLeaf
  rw [Call.traverseLoop] at hleaf
  have hlock : t.begin.lockStack.length < maxDepth := Nat.zero_lt_succ _
  simp only [wp_bind, wp_fetch, hisLeaf, if_true, wp_lock, wp_assert, hentries, hlock] at hleaf
  exact Nat.not_lt_zero _ hleaf.2.1

end Leaf

/-- The left half gets nothing, and its first key is asked for. -/
theorem Rising.splitNode_single {e : α × Node α ℕ 0} {x : Node α ℕ 0}
    (h : Rising c S s up a [e] [] k x i) (hfresh : FreshSupply supply)
    (hcap : 2 * (c.recordSize + c.page.slotSize) ≤ c.page.bodySize)
    (hlocks : s.lockStack.length + 2 ≤ maxDepth) (hgrown : grown supply 2 s.tree.live ≠ none) :
    Call.splitNode c supply (fuel + 1) a (k, ptr x) s = none := by
  obtain ⟨l, r, hl, hr, hlr, -, hrun⟩ : ∃ l r, l ∉ s.tree.live ∧ r ∉ s.tree.live ∧ l ≠ r ∧ _ ∧
      Call.splitNode c supply (fuel + 1) a (k, ptr x) s = _ :=
    h.run_splitNode hfresh (by omega) hgrown
  have hcount : (s.tree.mem a).entries.length = ([e] ++ []).length := by
    rw [h.page.entries, length_words]
  have hmem : ((s.take l).take r).tree.mem = s.tree.mem := rfl
  have hleaf : (s.tree.mem a).isLeaf = true := h.page.isLeaf
  have hlt : e.1 < k := by
    have hsorted := h.order.hole.keys_sorted
    simpa using hsorted
  have hfirst : Call.lock l (({ (s.take l).take r with freeStack := a :: s.freeStack }.blank l
      (s.tree.mem a).isLeaf).blank r (s.tree.mem a).isLeaf) = some (some (), _) :=
    (wp_lock_free (by show s.lockStack.length < _; omega) (by simp [Call.blank, hlr])
      ⟨rfl, rfl⟩).run
  have hsecond : Call.lock r ((({ (s.take l).take r with freeStack := a :: s.freeStack }.blank l
      (s.tree.mem a).isLeaf).blank r (s.tree.mem a).isLeaf).pushLock l) =
        some (some (), s.opened a l r) :=
    (wp_lock_free (by show s.lockStack.length + 1 < _; omega)
      (by simp [Call.blank, Call.pushLock, hlr.symm]) ⟨rfl, rfl⟩).run
  have hright : Call.leftMostLoop (s.halved c a l r [] [(e.1, ptr e.2)]).tree.mem (fuel + 1) r =
      some (e.1, ptr e.2) := by
    rw [Call.leftMostLoop, mem_halved_right, filled, hleaf]
    rfl
  have hinsert : Call.insertLocked c r (k, ptr x) (s.halved c a l r [] [(e.1, ptr e.2)]) =
      some (some (), s.halved c a l r [] [(e.1, ptr e.2), (k, ptr x)]) := by
    have hlocked : r ∈ (s.halved c a l r [] [(e.1, ptr e.2)]).tree.locked := right_mem_opened
    have hpage : (s.halved c a l r [] [(e.1, ptr e.2)]).tree.mem r =
        filled c (s.tree.mem a).isLeaf s.tree.smoSeq ([(e.1, ptr e.2)] ++ []) := mem_halved_right
    refine (wp_insertFilled hlocked hpage ?_ (by simp) ?_ ⟨rfl, ?_⟩).run
    · simpa using hlt.le
    · simpa using hcap
    · rw [Call.halved, setPage_setPage]
      rfl
  have hleft : Call.leftMostLoop (s.halved c a l r [] [(e.1, ptr e.2), (k, ptr x)]).tree.mem
      (fuel + 1) l = none := by
    rw [Call.leftMostLoop, mem_halved_left hlr, filled, hleaf]
    rfl
  rw [hrun, Call.splitInto, h.run_blanked _ (h.guard_room (by omega)) hl hr, run_bind hfirst,
    run_bind hsecond]
  simp only [hmem, hcount]
  have htake : words (([e] ++ []).take (([e] ++ []).length / 2)) = [] := by simp
  have hdrop : words (([e] ++ []).drop (([e] ++ []).length / 2)) = [(e.1, ptr e.2)] := by simp
  rw [h.run_copyHalves _ hl hr hlr, htake, hdrop,
    run_bind (wp_getLeftMostKey hright ⟨rfl, rfl⟩).run, if_pos hlt, run_bind hinsert]
  exact bind_none (getLeftMostKey_none hleft)

theorem Kept.of_pushLock (h : Kept (s.pushLock a) s') : Kept s s' :=
  ⟨h.root, h.mem, h.live, h.smoSeq, h.locked, h.allocs, h.rcu⟩

theorem Tears.givesUp {ps : List ℕ} (h : Tears c supply t ps us vs) :
    GivesUp c supply t ps us vs := .inr (.inr ⟨h.2.1, h.2.2.1⟩)

/-- Inner pages without space have two records. -/
theorem WellFormed.wide (h : WellFormed c (fun _ => True) t T) (hs : Settled c t)
    (hcap : 2 * (c.recordSize + c.page.slotSize) ≤ c.page.bodySize)
    (hT : T = plug up (node a (us ++ vs))) :
    ∀ p ∈ up.nodes, ¬ (t.mem p).Fits c → 2 ≤ (t.mem p).entries.length := by
  intro p hp hfull
  have hroot := h.root_eq hT
  subst hT
  obtain ⟨hreach, hinner⟩ := reach_nodes up (by omega) (linked_plug.mp h.linked).2 hroot p hp
  have hused := hs.dense p hreach hinner
  by_contra hlt
  have hsmall : (t.mem p).entries.length = 0 ∨ (t.mem p).entries.length = 1 := by omega
  refine hfull ?_
  show (t.mem p).entries.length * c.page.slotSize + (t.mem p).body.used + _ ≤ _
  rcases hsmall with hlen | hlen
  · rw [hused, hlen]
    omega
  · rw [hused, hlen]
    omega

/-- How the part of `insert` under `smo_guard` ends. -/
inductive Outcome (c : Config) (supply : Finset ℕ → Option ℕ) (t : Tree α) (fuel : ℕ)
    (keyValue : α × ℕ) (ps : List ℕ) (us vs : List (α × Node α ℕ 0)) : Prop
  | torn (s' : Call α) (hend : t.smoInsert c supply fuel keyValue = some (false, s'.finish false))
      (htears : Tears c supply t ps us vs) (htorn : Torn s')
  | kept (s' : Call α) (hend : t.smoInsert c supply fuel keyValue = some (false, s'.finish false))
      (htears : ¬ Tears c supply t ps us vs) (hgives : GivesUp c supply t ps us vs)
      (hkept : Kept t.begin s')
  | other (hend : ∀ t', t.smoInsert c supply fuel keyValue ≠ some (false, t'))
      (hgives : ¬ GivesUp c supply t ps us vs)

section Outcome
variable (h : WellFormed c (fun _ => True) t T) (hT : T = plug up (node a (us ++ vs)))
  (hroom : room False (fun _ => True) up key)

include h hT hroom in
theorem outcome_deep (hdepth : maxDepth ≤ up.length) :
    Outcome c supply t fuel (key, value) up.nodes us vs := by
  have hlength := up.length_nodes
  have hwp : Wp (Call.smoInsert c supply fuel (key, value)) t.begin (fun _ _ => False) _ :=
    h.wp_smoInsert_deep hT hroom hdepth
  rcases hwp.cases with ⟨_, _, -, hf⟩ | ⟨s', hrun, hkept⟩
  · exact hf.elim
  · refine .kept s' (smoInsert_of_failed h.even hrun) (fun ht => ?_) (.inl (by omega)) hkept
    have hlt := ht.1
    omega

include h hT hroom in
theorem outcome_empty (hdepth : up.length < maxDepth) (hnil : us ++ vs = []) :
    Outcome c supply t fuel (key, value) up.nodes us vs := by
  have hlength := up.length_nodes
  have hnone : Call.smoInsert c supply fuel (key, value) t.begin = none :=
    h.smoInsert_empty hT hroom hnil hdepth
  refine .other (fun t' ht' => ?_) ?_
  · rw [smoInsert_of_none h.even hnone] at ht'
    cases ht'
  · rintro (hdeep | ⟨hne, -⟩ | ⟨hsplit, -⟩)
    · omega
    · exact hne hnil
    · exact hsplit.1 hnil

variable (hfresh : FreshSupply supply) (hus : ∀ e ∈ us, e.1 < key) (hvs : ∀ e ∈ vs, key < e.1)

include h hT hroom hfresh hus hvs in
/-- There are no pages for the halves of the leaf. -/
theorem outcome_starved (hdepth : up.length < maxDepth) (hne : us ++ vs ≠ [])
    (hgrown : grown supply 2 t.live = none) :
    Outcome c supply t fuel (key, value) up.nodes us vs := by
  have hrising : Rising c (fun _ => True) (t.begin.pushLock a) up a us vs key (data value) 0 :=
    h.rising hT trivial hroom hus hvs hne
  have hwp : Wp (Call.splitInsert c supply fuel up.nodes a (key, value)) (t.begin.pushLock a)
      (fun _ _ => False) (Kept (t.begin.pushLock a)) :=
    wp_splitInsert_of_split (hrising.wp_splitNode_none hfresh (show 1 ≤ maxDepth by decide) hgrown
      fun s' hkept => hkept)
  rcases hwp.cases with ⟨_, _, -, hf⟩ | ⟨s', hend, hkept⟩
  · exact hf.elim
  · have hrun := (h.run_smoInsert hT hroom hne hdepth).trans hend
    exact .kept s' (smoInsert_of_failed h.even hrun) (fun ht => ht.2.2.2.2 hgrown)
      (.inr (.inl ⟨hne, hgrown⟩)) hkept.of_pushLock

variable (hcap : 2 * (c.recordSize + c.page.slotSize) ≤ c.page.bodySize)

include h hT hroom hfresh hus hvs hcap in
/-- A single record below the key is not split. -/
theorem smoInsert_single (hfuel : T.1 ≤ fuel) (hdepth : up.length < maxDepth) (hne : us ++ vs ≠ [])
    (hgrown : grown supply 2 t.live ≠ none) (hsplit : ¬ Splittable us vs) :
    t.smoInsert c supply fuel (key, value) = none := by
  have hrising : Rising c (fun _ => True) (t.begin.pushLock a) up a us vs key (data value) 0 :=
    h.rising hT trivial hroom hus hvs hne
  have hrun : Call.smoInsert c supply fuel (key, value) t.begin = _ :=
    h.run_smoInsert hT hroom hne hdepth
  obtain ⟨e, rfl, rfl⟩ := eq_single_of_not_splittable hne hsplit
  have hnone : Call.splitNode c supply fuel a (key, value) (t.begin.pushLock a) = none := by
    obtain ⟨m, rfl⟩ := Nat.exists_eq_succ_of_ne_zero (h.height.trans_le hfuel).ne'
    exact hrising.splitNode_single hfresh hcap (show 3 ≤ maxDepth by decide) hgrown
  exact smoInsert_of_none h.even (hrun.trans (splitInsert_none hnone))

include h hT hroom hfresh hus hvs hcap in
theorem outcome_single (hfuel : T.1 ≤ fuel) (hdepth : up.length < maxDepth) (hne : us ++ vs ≠ [])
    (hgrown : grown supply 2 t.live ≠ none) (hsplit : ¬ Splittable us vs) :
    Outcome c supply t fuel (key, value) up.nodes us vs := by
  have hlength := up.length_nodes
  have hnone : t.smoInsert c supply fuel (key, value) = none :=
    smoInsert_single h hT hroom hfresh hus hvs hcap hfuel hdepth hne hgrown hsplit
  refine .other (fun t' ht' => ?_) ?_
  · rw [hnone] at ht'
    cases ht'
  · rintro (hdeep | ⟨-, hnone⟩ | ⟨hsplit', -⟩)
    · omega
    · exact hgrown hnone
    · exact hsplit hsplit'

variable (hs : Settled c t)

include h hT hroom hfresh hus hvs hcap hs in
theorem outcome_split (hfuel : T.1 ≤ fuel) (hdepth : up.length < maxDepth)
    (hgrown : grown supply 2 t.live ≠ none) (hsplit : Splittable us vs) :
    Outcome c supply t fuel (key, value) up.nodes us vs := by
  have hlength := up.length_nodes
  have hwp : Wp (Call.smoInsert c supply fuel (key, value)) t.begin _ _ :=
    h.wp_smoInsert hT hfresh hcap trivial hroom hus hvs hsplit (h.wide hs hcap hT) hfuel hdepth
  rcases hwp.cases with ⟨u, s', hend, T', hdone⟩ | ⟨s', hend, hfailed⟩
  · have hlocks : 1 + 3 * fullRun c t.mem up.nodes + 2 ≤ maxDepth := hdone.locks
    have hpages : grown supply (need c t.mem up.nodes) t.live = some s'.tree.live := hdone.grown
    refine .other (fun t' ht' => ?_) ?_
    · rw [smoInsert_of_done h.even hend] at ht'
      cases ht'
    · rintro (hdeep | ⟨-, hnone⟩ | ⟨-, hfew | hnone⟩)
      · omega
      · exact hgrown hnone
      · omega
      · rw [hpages] at hnone
        cases hnone
  · have hshort : Short c supply t up.nodes := by
      have hcause := hfailed.cause
      rw [Nat.zero_add] at hcause
      exact hcause
    by_cases hfull : fullRun c t.mem up.nodes = 0
    · exact .kept s' (smoInsert_of_failed h.even hend) (fun ht => ht.2.2.2.1.ne' hfull)
        (.inr (.inr ⟨hsplit, hshort⟩)) (hfailed.kept (.inl hfull)).of_pushLock
    · have hpos := Nat.pos_of_ne_zero hfull
      exact .torn s' (smoInsert_of_failed h.even hend) ⟨by omega, hsplit, hshort, hpos, hgrown⟩
        (hfailed.torn hpos hgrown (by decide))

include h hT hroom hfresh hus hvs hcap hs in
theorem smoInsert_outcome (hfuel : T.1 ≤ fuel) :
    Outcome c supply t fuel (key, value) up.nodes us vs := by
  by_cases hdepth : maxDepth ≤ up.length
  · exact outcome_deep h hT hroom hdepth
  have hlt := Nat.lt_of_not_le hdepth
  by_cases hnil : us ++ vs = []
  · exact outcome_empty h hT hroom hlt hnil
  by_cases hgrown : grown supply 2 t.live = none
  · exact outcome_starved h hT hroom hfresh hus hvs hlt hnil hgrown
  by_cases hsplit : Splittable us vs
  · exact outcome_split h hT hroom hfresh hus hvs hcap hs hfuel hlt hgrown hsplit
  · exact outcome_single h hT hroom hfresh hus hvs hcap hfuel hlt hnil hgrown hsplit

end Outcome

section Insert
variable (h : Searchable c t T) (hT : T = plug up (node a (us ++ vs)))
  (hroom : room False (fun _ => True) up key) (hus : ∀ e ∈ us, e.1 < key)
  (hvs : ∀ e ∈ vs, key < e.1) (hfuel : T.1 ≤ fuel)

include h hT hroom hus hvs hfuel in
/-- `insert` first tries the leaf for the key. -/
theorem Searchable.insert_eq : t.insert c supply fuel key value =
    if (t.mem a).Fits c then some (true, t.setPage a { t.mem a with
      body := ⟨words us ++ (key, value) :: words vs, (t.mem a).body.used + c.recordSize⟩ })
    else t.smoInsert c supply fuel (key, value) := by
  have hpage := h.leaf_page hT
  rw [words_append] at hpage
  have hinsert : (t.mem a).insert c (key, value) = _ :=
    insert_of_cut hpage.entries (fun f hf => ?_) fun f hf => ?_
  · rw [Tree.insert, h.findLeaf hT hroom hfuel]
    simp only [Option.bind_some, h.unlocked, Finset.notMem_empty, if_false, hinsert]
    split_ifs <;> rfl
  · obtain ⟨e, he, rfl⟩ := List.mem_map.mp hf
    exact (hus e he).le
  · obtain ⟨e, he, rfl⟩ := List.mem_map.mp hf
    exact hvs e he

end Insert

/-- An insertion that fails leaves the tree as it was, unless something is missing after a parent
has been given to a half, or `smo_seq` begins again. -/
theorem insert_fails_cleanly_iff (h : WellFormed c (fun _ => True) t T) (hs : Settled c t)
    (hfresh : FreshSupply supply) (hcap : 2 * (c.recordSize + c.page.slotSize) ≤ c.page.bodySize)
    (hfuel : T.1 ≤ fuel) (hT : T = plug up (node a (us ++ vs)))
    (hroom : room False (fun _ => True) up key) (hus : ∀ e ∈ us, e.1 < key)
    (hvs : ∀ e ∈ vs, key < e.1) :
    (∀ t', t.insert c supply fuel key value = some (false, t') → Unharmed t T t') ↔
      (t.mem a).Fits c ∨ ¬ Tears c supply t up.nodes us vs ∧
        (Wraps t T → ¬ GivesUp c supply t up.nodes us vs) := by
  rw [(h.searchable hs).insert_eq hT hroom hus hvs hfuel]
  by_cases hfits : (t.mem a).Fits c
  · simp [hfits]
  rw [if_neg hfits, or_iff_right hfits]
  rcases smoInsert_outcome h hT hroom hfresh hus hvs hcap hs hfuel with
    ⟨s', hend, htears, b, hb, hreach⟩ | ⟨s', hend, htears, hgives, hkept⟩ | ⟨hend, hgives⟩
  · refine iff_of_false (fun hall => ?_) fun hcond => hcond.1 htears
    refine (hall _ hend).rcu b ?_ (List.mem_append_left _ hb)
    exact hreach.congr rfl fun _ _ => rfl
  · constructor
    · intro hall
      exact ⟨htears, fun hwrap _ => hkept.harmed h hs hwrap (hall _ hend)⟩
    · rintro ⟨-, hcond⟩ t' ht'
      rw [hend] at ht'
      cases ht'
      exact hkept.unharmed h hs fun hwrap => hcond hwrap hgives
  · exact iff_of_true (fun t' ht' => absurd ht' (hend t'))
      ⟨fun ht => hgives ht.givesUp, fun _ => hgives⟩

section Example

theorem twoBytes_le : 2 ≤ 4 := by decide

/-- Pages with space for two records. -/
def twoRecordPages : Config := ⟨⟨2, 32, 84, Nat.two_pos, twoBytes_le, by decide, by decide⟩, 16⟩

/-- An inner root without space, and a leaf without space below it. -/
def twoLevels : Tree ℕ where
  mem := Function.update (Function.update (Function.update (fun _ => Tree.blankPage 0 true)
    3 (filled twoRecordPages true 1 [(3, 30), (4, 40)]))
    2 (filled twoRecordPages true 1 [(1, 10)]))
    1 (filled twoRecordPages false 1 [(1, 2), (3, 3)])
  root := 1
  smoSeq := 2
  live := {0, 1, 2, 3}
  rcu := []
  locked := ∅

def twoLevelTree : Σ N, Node ℕ ℕ N :=
  ⟨2, node 1 [(1, node 2 [(1, data 10)]), (3, node 3 [(3, data 30), (4, data 40)])]⟩

/-- The way to the leaf for 5. -/
def lastLeaf : Path ℕ ℕ 1 := .step 1 [(1, node 2 [(1, data 10)])] 3 [] .top

/-- Two pages are left. -/
def twoPages (live : Finset ℕ) : Option ℕ := if live.card < 6 then endless live else none

theorem twoLevels_wellFormed :
    WellFormed twoRecordPages (fun _ => True) twoLevels twoLevelTree := by
  have hroot : Holds twoRecordPages (fun _ => True) twoLevels.mem 1 1 [(1, 2), (3, 3)] :=
    holds_filled (fun _ => trivial) (by decide) rfl
  have hleft : Holds twoRecordPages (fun _ => True) twoLevels.mem 0 2 [(1, 10)] :=
    holds_filled (fun _ => trivial) (by decide) rfl
  have hright : Holds twoRecordPages (fun _ => True) twoLevels.mem 0 3 [(3, 30), (4, 40)] :=
    holds_filled (fun _ => trivial) (by decide) rfl
  have hmark : mark twoLevels.mem 2 = none ∧ mark twoLevels.mem 3 = none := ⟨rfl, rfl⟩
  refine ⟨⟨rfl, ⟨hroot, ?_⟩, ?_, by decide⟩, by decide, fun _ => ⟨by simp, ?_⟩,
    by simp [twoLevels], by simp [twoLevels], rfl, rfl, by decide⟩
  · simp only [List.forall_mem_cons]
    exact ⟨⟨hleft, fun _ _ => trivial⟩, ⟨hright, fun _ _ => trivial⟩, by simp⟩
  · refine Halved.root ⟨by decide, trivial, trivial, ordered_leaf.mpr ⟨?_, ?_, ?_⟩,
      ordered_leaf.mpr ⟨?_, ?_, ?_⟩⟩
    · simp
    · simp [hmark]
    · simp
    · simp
    · simp [hmark]
    · simp
  · simp only [List.forall_mem_cons]
    exact ⟨readable_leaf.mpr (by simp [hmark]), readable_leaf.mpr (by simp [hmark]), by simp⟩

theorem twoLevels_settled : Settled twoRecordPages twoLevels := by
  have hinner : ∀ a, Reach twoLevels a → (twoLevels.mem a).isLeaf = false → a = 1 := by
    intro a ha hleaf
    have hmem : a ∈ ({1, 2, 3} : Multiset ℕ) := twoLevels_wellFormed.reach_mem (by decide) ha
    have hcases : a = 1 ∨ a = 2 ∨ a = 3 := by simpa using hmem
    rcases hcases with rfl | rfl | rfl
    · rfl
    · cases hleaf
    · cases hleaf
  constructor
  · intro a ha hleaf
    rw [hinner a ha hleaf]
    decide
  · intro a ha hleaf
    rw [hinner a ha hleaf]
    rfl

theorem freshSupply_twoPages : FreshSupply twoPages := by
  intro live a ha
  unfold twoPages at ha
  split_ifs at ha
  exact freshSupply_endless live a ha

theorem lastLeaf_room : room False (fun _ => True) lastLeaf 5 :=
  ⟨trivial, fun _ => by decide, by simp⟩

/-- The parent has been given to the left half when the pages run out. -/
theorem twoLevels_torn : WellFormed twoRecordPages (fun _ => True) twoLevels twoLevelTree ∧
    Settled twoRecordPages twoLevels ∧ FreshSupply twoPages ∧
    (∀ v, (5, v) ∉ whole twoLevelTree) ∧
    ∃ t' b, twoLevels.insert twoRecordPages twoPages 2 5 50 = some (false, t') ∧ Reach t' b ∧
      b ∈ t'.rcu := by
  refine ⟨twoLevels_wellFormed, twoLevels_settled, freshSupply_twoPages, fun v => ?_, ?_⟩
  · show (5, v) ∉ [(1, 10), (3, 30), (4, 40)]
    simp
  have hT : twoLevelTree = plug lastLeaf (node 3 ([(3, data 30), (4, data 40)] ++ [])) := rfl
  have htears : Tears twoRecordPages twoPages twoLevels lastLeaf.nodes
      [(3, data 30), (4, data 40)] [] :=
    ⟨by decide, ⟨by simp, by simp⟩, .inr (by decide), by decide, by decide⟩
  have hus : ∀ e ∈ [((3 : ℕ), (data 30 : Node ℕ ℕ 0)), (4, data 40)], e.1 < 5 := by simp
  have heq : twoLevels.insert twoRecordPages twoPages 2 5 50 = _ :=
    (twoLevels_wellFormed.searchable twoLevels_settled).insert_eq hT lastLeaf_room hus (by simp)
      le_rfl
  rw [if_neg (by decide)] at heq
  have hout : Outcome twoRecordPages twoPages twoLevels 2 (5, 50) lastLeaf.nodes
      [(3, data 30), (4, data 40)] [] :=
    smoInsert_outcome twoLevels_wellFormed hT lastLeaf_room freshSupply_twoPages hus (by simp)
      (by decide) twoLevels_settled le_rfl
  rcases hout with ⟨s', hend, -, b, hb, hreach⟩ | ⟨s', -, hno, -, -⟩ | ⟨-, hno⟩
  · exact ⟨_, b, heq.trans hend, hreach.congr rfl fun _ _ => rfl, List.mem_append_left _ hb⟩
  · exact absurd htears hno
  · exact absurd htears.givesUp hno

/-- With enough pages the same insertion does no harm. -/
theorem twoLevels_unharmed : WellFormed twoRecordPages (fun _ => True) twoLevels twoLevelTree ∧
    ∀ t', twoLevels.insert twoRecordPages endless 2 5 50 = some (false, t') →
      Unharmed twoLevels twoLevelTree t' := by
  have hT : twoLevelTree = plug lastLeaf (node 3 ([(3, data 30), (4, data 40)] ++ [])) := rfl
  refine ⟨twoLevels_wellFormed, (insert_fails_cleanly_iff twoLevels_wellFormed twoLevels_settled
    freshSupply_endless (by decide) le_rfl hT lastLeaf_room (by simp) (by simp)).mpr
      (.inr ⟨fun htears => ?_, fun hwrap => ?_⟩)⟩
  · rcases htears.2.2.1 with hlocks | hnone
    · exact absurd hlocks (by decide)
    · obtain ⟨live, hlive⟩ := exists_failure hnone
      exact total_endless live hlive
  · exact absurd hwrap.1 (by decide)

end Example

end YwStorage.BTree
