import YwStorage.BTree.Pages

/-!
The B-tree in its pages, and the way of a search from the root to a leaf.
-/
namespace YwStorage.BTree
open MultiTree Programs

variable {α : Type} [LinearOrder α] {c : Config} {S : ℕ → Prop} {t : Tree α} {s : Call α}
  {mem mem' : ℕ → Page α} {n a p i : ℕ} {k key : α} {ws : List (α × ℕ)} {P : α → Prop}

/-- The page at `a`, with subtrees of height `n`, has the entries `ws`. The stamps of inner pages
are in `S`. -/
structure Holds (c : Config) (S : ℕ → Prop) (mem : ℕ → Page α) (n a : ℕ) (ws : List (α × ℕ)) :
    Prop where
  isLeaf : (mem a).isLeaf = decide (n = 0)
  entries : (mem a).entries = ws
  used : ws.length * c.recordSize ≤ (mem a).body.used
  space : ws.length * c.page.slotSize + (mem a).body.used ≤ c.page.bodySize
  stamp : n ≠ 0 → S (mem a).smoSeq

/-- The key that is left in an empty page. -/
def mark (mem : ℕ → Page α) (a : ℕ) : Option α :=
  if (mem a).entries = [] then (mem a).old.map Prod.fst else none

/-- The pages hold a tree. -/
structure Stands (c : Config) (S : ℕ → Prop) (t : Tree α) (T : Σ N, Node α ℕ N) : Prop where
  root : t.root = ptr T.2
  linked : Linked (Holds c S t.mem) T.2
  order : Ordered False (mark t.mem) (fun _ => True) T.2
  count : 0 ::ₘ addrs T.2 ≤ t.live.val

/-- A tree that no call is changing. A page that is empty has been used, unless it is the root. -/
structure WellFormed (c : Config) (S : ℕ → Prop) (t : Tree α) (T : Σ N, Node α ℕ N) : Prop
    extends Stands c S t T where
  height : 0 < T.1
  readable : 1 < T.1 → Readable (mark t.mem) T.2
  clean : ∀ a ∈ t.rcu, a ∉ t.live
  rcu_nodup : t.rcu.Nodup
  unlocked : t.locked = ∅
  even : t.smoSeq % 2 = 0
  seq_lt : t.smoSeq < 2 ^ 32

theorem Holds.congr (h : Holds c S mem n a ws) (hm : mem' a = mem a) : Holds c S mem' n a ws := by
  obtain ⟨h₁, h₂, h₃, h₄, h₅⟩ := h
  rw [← hm] at h₁ h₂ h₃ h₄ h₅
  exact ⟨h₁, h₂, h₃, h₄, h₅⟩

/-- Records are exchanged. -/
theorem Holds.swap {ws' : List (α × ℕ)} (h : Holds c S mem n a ws)
    (hm : mem' a = { mem a with body := ⟨ws', (mem a).body.used⟩ })
    (hlen : ws'.length = ws.length) : Holds c S mem' n a ws' := by
  refine ⟨?_, ?_, ?_, ?_, ?_⟩
  · rw [hm]
    exact h.isLeaf
  · rw [hm]
  · rw [hm, hlen]
    exact h.used
  · rw [hm, hlen]
    exact h.space
  · rw [hm]
    exact h.stamp

/-- A record is added. -/
theorem Holds.grow {ws' : List (α × ℕ)} (h : Holds c S mem n a ws) (hfits : (mem a).Fits c)
    (hm : mem' a = { mem a with body := ⟨ws', (mem a).body.used + c.recordSize⟩ })
    (hlen : ws'.length = ws.length + 1) : Holds c S mem' n a ws' := by
  have hused := h.used
  have hspace : (mem a).entries.length * c.page.slotSize + (mem a).body.used +
      (c.recordSize + c.page.slotSize) ≤ c.page.bodySize := hfits
  rw [h.entries] at hspace
  refine ⟨?_, ?_, ?_, ?_, ?_⟩
  · rw [hm]
    exact h.isLeaf
  · rw [hm]
  · rw [hm, hlen, Nat.add_mul, Nat.one_mul]
    exact Nat.add_le_add_right hused _
  · rw [hm, hlen, Nat.add_mul, Nat.one_mul]
    show ws.length * c.page.slotSize + c.page.slotSize + ((mem a).body.used + c.recordSize) ≤ _
    omega
  · rw [hm]
    exact h.stamp

theorem mark_congr (hm : mem' a = mem a) : mark mem' a = mark mem a := by
  rw [mark, mark, hm]

theorem mark_of_ne (h : (mem a).entries ≠ []) : mark mem a = none := if_neg h

theorem Holds.mark_none {es : List (α × Node α ℕ n)} (h : Holds c S mem n a (words es))
    (hne : es ≠ []) : mark mem a = none := by
  refine mark_of_ne ?_
  rw [h.entries]
  simpa [words] using hne

/-- The searches on a path come to its next node. -/
def Leads (mem : ℕ → Page α) (key : α) : {n : ℕ} → Path α ℕ n → ℕ → Prop
  | _, .top, _ => True
  | _, .step a pre k _ up, p => (mem a).isLeaf = false ∧ pre.length < (mem a).entries.length ∧
      (mem a).floor key = pre.length ∧ (mem a).get pre.length = some (k, p) ∧ Leads mem key up a

theorem leads_of_room (path : Path α ℕ n) {x : Node α ℕ n} (hn : n ≠ 0)
    (hl : LinkedPath (Holds c S mem) path p)
    (ho : Ordered False (mark mem) P (plug path x).2) (hr : room False P path key) :
    Leads mem key path p := by
  induction path generalizing p with
  | top => trivial
  | @step n a pre k post up ih =>
    obtain ⟨hpage, -, -, hup⟩ := hl
    have hnode : Ordered False (mark mem) P (plug up (node a (pre ++ (k, x) :: post))).2 := ho
    have hsorted := hnode.hole.keys_sorted
    rw [List.pairwise_append, List.pairwise_cons] at hsorted
    have hpre : ∀ f ∈ words pre, f.1 < k := by
      intro f hf
      obtain ⟨e, he, rfl⟩ := List.mem_map.mp hf
      exact hsorted.2.2 e he (k, x) (by simp)
    have hpost : ∀ f ∈ words post, key < f.1 := by
      intro f hf
      obtain ⟨e, he, rfl⟩ := List.mem_map.mp hf
      exact hr.upper e he
    have hlower : words pre ≠ [] → k ≤ key := fun hne =>
      hr.lower (.inr fun he => hne (by simp [he]))
    refine ⟨?_, ?_, ?_, ?_, ih (by omega) hup ho hr.inside⟩
    · rw [hpage.isLeaf, decide_eq_false hn]
    · rw [hpage.entries]
      simp
    · rw [floor_of_cut hpage.entries hpre hlower hpost, length_words]
    · rw [← length_words, get_of_cut hpage.entries]

/-- Every key has a leaf. -/
theorem exists_cursor {mk : ℕ → Option α} (path : Path α ℕ (n + 1)) {x : Node α ℕ (n + 1)}
    (ho : Ordered False mk P (plug path x).2) (hread : n ≠ 0 → Readable mk x)
    (hr : room False P path key) :
    ∃ a es, ∃ up : Path α ℕ 1, plug up (node a es) = plug path x ∧ room False P up key := by
  induction n with
  | zero =>
    obtain ⟨a, es, rfl⟩ := exists_node x
    exact ⟨a, es, path, rfl, hr⟩
  | succ n ih =>
    obtain ⟨a, es, rfl⟩ := exists_node x
    obtain ⟨hne, hes⟩ := hread (by omega)
    have hsorted : es.Pairwise fun e f => e.1 < f.1 := Ordered.keys_sorted (Ordered.hole ho)
    obtain ⟨pre, ⟨k, y⟩, post, rfl, hlower, hupper⟩ := exists_region hsorted hne key
    obtain ⟨b, fs, up, hplug, hroom⟩ := ih (.step a pre k post path) ho
      (fun _ => hes (k, y) (by simp)) ⟨hr, fun hpre => hlower (by simpa using hpre), hupper⟩
    exact ⟨b, fs, up, hplug, hroom⟩

theorem findLoop_path (path : Path α ℕ n) {fuel : ℕ} (h : Leads t.mem key path p)
    (hunlocked : t.locked = ∅) (hp : p ≠ 0) (hnodes : ∀ a ∈ path.nodes, a ≠ 0)
    (hstamp : ∀ a ∈ path.nodes, (t.mem a).smoSeq < t.smoSeq) :
    t.findLoop key (path.length + fuel) (path.root p) = t.findLoop key fuel p := by
  induction path generalizing p fuel with
  | top => simp [Path.length, Path.root]
  | step a pre k post up ih =>
    obtain ⟨hleaf, -, hfloor, hget, hup⟩ := h
    have hself : a ∈ (Path.step a pre k post up).nodes := List.mem_cons_self ..
    have hrest : t.findLoop key (up.length + (fuel + 1)) (up.root a) =
        t.findLoop key (fuel + 1) a :=
      ih hup (hnodes a hself) (fun b hb => hnodes b (List.mem_cons_of_mem _ hb))
        fun b hb => hstamp b (List.mem_cons_of_mem _ hb)
    rw [Path.length, Path.root, Nat.add_assoc, Nat.add_comm 1 fuel, hrest, Tree.findLoop]
    simp [hleaf, hunlocked, hfloor, hget, hstamp a hself, hp]

theorem wp_traversePath (path : Path α ℕ n) {Q : List ℕ → Call α → Prop} {E : Call α → Prop}
    (h : Leads s.tree.mem key path p) (hp : p ≠ 0) (hnodes : ∀ a ∈ path.nodes, a ≠ 0)
    (hdepth : path.length ≤ maxDepth) :
    Wp (Call.traverseLoop key (path.length + i) (path.root p) []) s Q E ↔
      Wp (Call.traverseLoop key i p path.nodes) s Q E := by
  induction path generalizing p i with
  | top => simp [Path.length, Path.root, Path.nodes, Path.positions]
  | step a pre k post up ih =>
    obtain ⟨hleaf, hlt, hfloor, hget, hup⟩ := h
    rw [Path.length] at hdepth
    have hself : a ∈ (Path.step a pre k post up).nodes := List.mem_cons_self ..
    have hrest := ih (i := i + 1) hup (hnodes a hself)
      (fun b hb => hnodes b (List.mem_cons_of_mem _ hb)) (by omega)
    rw [Path.length, Path.root, Nat.add_assoc, Nat.add_comm 1 i, hrest, Call.traverseLoop]
    have hroom : up.nodes.length < maxDepth := by
      rw [Path.length_nodes]
      omega
    simp only [wp_bind, wp_fetch, hleaf, Bool.false_eq_true, if_false, wp_pure, wp_assert, hfloor,
      hlt, true_and, hroom, if_true, hget, hp, ne_eq, not_false_eq_true]
    rfl

/-- `ywbtStack::lock` -/
theorem wp_lock {Q : Unit → Call α → Prop} {E : Call α → Prop} :
    Wp (Call.lock a) s Q E ↔ if s.lockStack.length < maxDepth then
      a ∉ s.tree.locked ∧ Q () (s.pushLock a) else E s := by
  unfold Call.lock
  simp only [wp_bind, wp_fetch]
  split_ifs
  · simp only [wp_bind, wp_assert, wp_put]
  · simp only [wp_giveUp]

/-- `traverse_with_stack` locks the leaf and has the nodes above it on the stack. -/
theorem wp_traverse {up : Path α ℕ 1} {Q : List ℕ → Call α → Prop} {E : Call α → Prop}
    (h : Leads s.tree.mem key up a) (hroot : s.tree.root = up.root a) (ha : a ≠ 0)
    (hnodes : ∀ b ∈ up.nodes, b ≠ 0) (hdepth : up.length < maxDepth)
    (hleaf : (s.tree.mem a).isLeaf = true) (hlocks : s.lockStack = [])
    (hunlocked : a ∉ s.tree.locked)
    (hfloor : (s.tree.mem a).floor key < (s.tree.mem a).entries.length)
    (hQ : Q (a :: up.nodes) (s.pushLock a)) :
    Wp (Call.traverseLoop key maxDepth s.tree.root []) s Q E := by
  obtain ⟨i, hi⟩ : ∃ i, maxDepth = up.length + (i + 1) := ⟨maxDepth - up.length - 1, by omega⟩
  have hroom : up.nodes.length < maxDepth := by
    rw [Path.length_nodes]
    exact hdepth
  rw [hroot, hi, wp_traversePath up h ha hnodes hdepth.le, Call.traverseLoop]
  simp only [wp_bind, wp_fetch, hleaf, if_true, wp_lock, hlocks, List.length_nil, wp_assert, hfloor,
    true_and, hroom, wp_pure]
  exact ⟨hunlocked, hQ⟩

end YwStorage.BTree
