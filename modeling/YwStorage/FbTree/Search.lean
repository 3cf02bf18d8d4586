import YwStorage.FbTree.Links

/-! Where a search ends: between the data below the key and the data above it. -/
namespace YwStorage.FbTree
open MultiTree SortedMap

variable {s : Fb} {R : Multiset ℕ} {n a k p key : ℕ} {T : Σ N, Node ℕ ℕ N}
  {t : Node ℕ ℕ n} {path : Path ℕ ℕ n}

/-- Keys that can be stored. -/
def IsKey (k : ℕ) : Prop := k < fbNilKey

theorem sorted_words {es : List (ℕ × Node ℕ ℕ n)} {P : ℕ → Prop} {low : Prop}
    {mark : ℕ → Option ℕ} (h : Ordered low mark P (node a es)) : Sorted (words es) := by
  rw [Sorted, words, List.pairwise_map]
  exact h.keys_sorted

theorem keys_lt_nil {es : List (ℕ × Node ℕ ℕ n)} {up : Path ℕ ℕ (n + 1)}
    (h : AllKeys IsKey (plug up (node a es)).2) : ∀ w ∈ words es, w.1 < fbNilKey := by
  intro w hw
  obtain ⟨e, he, rfl⟩ := List.mem_map.mp hw
  exact ((allKeys_plug.mp h).1 e he).1

section Width
variable {pre post : List (ℕ × Node ℕ ℕ n)} {up : Path ℕ ℕ (n + 1)}

theorem width_le (h : Around s (.step a pre k post up) p) : pre.length + post.length + 1 ≤ 128 := by
  have hlen := h.linked.1.1.len
  simp only [List.length_append, List.length_cons, length_words] at hlen
  omega

theorem full_iff_width (h : Shape s R (plug (.step a pre k post up) t))
    (hk : AllKeys IsKey (plug (.step a pre k post up) t).2) :
    (s.mem a).isFullNode ↔ pre.length + post.length + 1 = 128 := by
  have hplug : AllKeys IsKey (plug up (node a (pre ++ (k, t) :: post))).2 := hk
  have hkeys := keys_lt_nil hplug
  rw [words_append, words_cons] at hkeys
  rw [h.around.linked.1.1.full_iff hkeys]
  simp only [List.length_append, List.length_cons, length_words]
  omega

end Width

/-- The search ends at a slot that is in use, whatever the order of the keys. -/
theorem fbSearchInNode_lt {nd : FbNode} {ws : List (ℕ × ℕ)} (h : Fits nd ws) (hk : IsKey key)
    (hne : ws ≠ []) : fbSearchInNode nd.key key < ws.length := by
  have hused : ∀ i, i < 128 → nd.key i ≤ key → i < ws.length := by
    intro i hi hle
    by_contra hge
    rw [h.tail i (not_lt.mp hge) hi] at hle
    exact absurd hk (not_lt.mpr hle)
  have hloop : ∀ fuel m idx, idx + 2 ^ m ≤ 128 → idx < ws.length →
      searchLoop nd.key key fuel (2 ^ m) idx < ws.length := by
    intro fuel
    induction fuel with
    | zero => exact fun _ _ _ hidx => hidx
    | succ fuel ih =>
      intro m idx hroom hidx
      cases m with
      | zero =>
        simp only [searchLoop, pow_zero, Nat.reduceDiv, add_zero, ite_self]
        rw [if_neg (by omega)]
        exact hidx
      | succ m =>
        have hpos : 0 < 2 ^ m := Nat.two_pow_pos m
        have hhalf : 2 ^ (m + 1) / 2 = 2 ^ m := by rw [pow_succ]; omega
        rw [pow_succ] at hroom
        simp only [searchLoop, hhalf]
        rw [if_pos (by omega)]
        split_ifs with hle
        · exact ih m _ (by omega) (hused _ (by omega) hle)
        · exact ih m _ (by omega) hidx
  exact hloop 128 7 0 (by decide) (List.length_pos_of_ne_nil hne)

/-- Cutting a node at a slot. -/
theorem exists_cut {es : List (ℕ × Node ℕ ℕ n)} {sp : ℕ} (h : sp < es.length) :
    ∃ es₁ e es₂, es = es₁ ++ e :: es₂ ∧ es₁.length = sp := by
  refine ⟨es.take sp, es[sp], es.drop (sp + 1), ?_, by simp; omega⟩
  rw [List.getElem_cons_drop, List.take_append_drop]

/-- The loop of `fb_traverse` follows pointers of the tree. -/
theorem traverseLoop_path (path : Path ℕ ℕ n) (h : Shape s R (plug path t)) (hk : IsKey key) :
    ∃ (path₀ : Path ℕ ℕ 0) (p : ℕ), plug path₀ (data p) = plug path t ∧
      traverseLoop s key n (ptr t) path.positions = (path₀.positions, p) := by
  induction n with
  | zero => exact ⟨path, t, rfl, rfl⟩
  | succ n ih =>
    obtain ⟨a, es, rfl⟩ := exists_node t
    obtain ⟨⟨hf, hne⟩, -⟩ := h.tree
    have hlt := fbSearchInNode_lt hf hk hne
    rw [length_words] at hlt
    obtain ⟨pre, e, post, rfl, hpre⟩ := exists_cut hlt
    rw [words_append, words_cons] at hf
    have hchild := hf.child_at
    rw [length_words, hpre] at hchild
    obtain ⟨path₀, p, hplug, hloop⟩ := ih (.step a pre e.1 post path) h
    refine ⟨path₀, p, hplug, ?_⟩
    rw [← hloop, ptr_node, traverseLoop, hchild, ← hpre]
    rfl

theorem fbTraverse_path (h : Shape s R T) (hk : IsKey key) :
    ∃ (path : Path ℕ ℕ 0) (p : ℕ), plug path (data p) = T ∧
      fbTraverse s key = (path.positions, p) := by
  obtain ⟨N, t⟩ := T
  have hstart : Shape s R (plug .top t) := h
  rw [fbTraverse, h.root, h.level]
  exact traverseLoop_path .top hstart hk

/-- The loop of `fb_traverse`, started at a node on the way. -/
theorem traverseLoop_spec (path : Path ℕ ℕ n) (h : Shape s R (plug path t))
    (ho : Ordered True unmarked IsKey (plug path t).2) (hr : room False IsKey path key) :
    ∃ (path₀ : Path ℕ ℕ 0) (p : ℕ), plug path₀ (data p) = plug path t ∧
      room False IsKey path₀ key ∧
      traverseLoop s key n (ptr t) path.positions = (path₀.positions, p) := by
  induction n with
  | zero => exact ⟨path, t, rfl, hr, rfl⟩
  | succ n ih =>
    obtain ⟨a, es, rfl⟩ := exists_node t
    obtain ⟨⟨hf, hne⟩, -⟩ := h.tree
    have hkey : IsKey key := room_inside hr
    obtain ⟨us, e, vs, hws, hidx, hle, hlt⟩ :=
      fbSearchInNode_spec hf (sorted_words ho.hole) hkey hne
    rw [hws] at hf
    have hchild := hf.child_at
    obtain ⟨pre, t', post, rfl, rfl, hptr, rfl⟩ := split_of_words hws
    have hr' : room False IsKey (.step a pre e.1 post path) key := by
      refine ⟨hr, fun hor => hle ?_, fun f hf' => hlt (f.1, ptr f.2) (List.mem_map_of_mem hf')⟩
      rw [Ne, words, List.map_eq_nil_iff]
      exact hor.resolve_left id
    obtain ⟨path₀, p, hplug, hroom, hloop⟩ := ih (.step a pre e.1 post path) h ho hr'
    refine ⟨path₀, p, hplug, hroom, ?_⟩
    rw [← hloop, ptr_node, traverseLoop, hidx, hchild, length_words, hptr]
    rfl

/-- `fb_traverse` reaches the place of the key. -/
theorem fbTraverse_spec (h : Shape s R T) (ho : Ordered True unmarked IsKey T.2) (hk : IsKey key) :
    ∃ (path : Path ℕ ℕ 0) (p : ℕ), plug path (data p) = T ∧ room False IsKey path key ∧
      fbTraverse s key = (path.positions, p) := by
  obtain ⟨N, t⟩ := T
  have hstart : Shape s R (plug .top t) := h
  rw [fbTraverse, h.root, h.level]
  exact traverseLoop_spec .top hstart ho hk

/-- The slot of a path that has room for the key is the one that the search finds. -/
theorem search_of_room {pre post : List (ℕ × Node ℕ ℕ n)} {up : Path ℕ ℕ (n + 1)}
    (h : Around s (.step a pre k post up) p)
    (ho : Ordered True unmarked IsKey (plug (.step a pre k post up) t).2)
    (hr : room False IsKey (.step a pre k post up) key) :
    fbSearchInNode (s.mem a).key key = pre.length := by
  have hf := h.linked.1.1
  have hplug : Ordered True unmarked IsKey (plug up (node a (pre ++ (k, t) :: post))).2 := ho
  have hkey : IsKey key := room_inside hr
  have hsorted := sorted_words hplug.hole
  rw [words_append, words_cons, Sorted, List.pairwise_append] at hsorted
  have hpost : ∀ e ∈ words post, key < e.1 := by
    intro e he
    obtain ⟨f, hf, rfl⟩ := List.mem_map.mp he
    exact hr.upper f hf
  by_cases hk : k ≤ key
  · rw [List.append_cons] at hf
    rw [fbSearchInNode_eq hf hkey _ hpost]
    · simp
    · intro e he
      rcases List.mem_append.mp he with he | he
      · exact (hsorted.2.2 e he _ List.mem_cons_self).le.trans hk
      · rwa [List.mem_singleton.mp he]
  · -- only the first slot takes keys below its own
    obtain rfl : pre = [] := by
      by_contra hne
      exact hk (hr.lower (Or.inr hne))
    have hall : ∀ e ∈ (k, p) :: words post, key < e.1 :=
      List.forall_mem_cons.mpr ⟨not_le.mp hk, hpost⟩
    have hnone : ∀ e ∈ ([] : List (ℕ × ℕ)), e.1 ≤ key := by simp
    exact fbSearchInNode_eq hf hkey hnone hall

/-- A path that has room for the key is the one that `fb_traverse` takes. -/
theorem traverse_of_room (h : Around s path p) (ho : Ordered True unmarked IsKey (plug path t).2)
    (hr : room False IsKey path key) :
    traverseLoop s key (n + path.length) s.root [] = traverseLoop s key n p path.positions := by
  induction path generalizing p with
  | top =>
    have hroot : s.root = p := h.root
    rw [hroot]
    rfl
  | @step n a pre k post up ih =>
    have hup := ih h.parent ho hr.inside
    rw [traverseLoop, search_of_room h ho hr, h.child_eq] at hup
    rw [Path.positions, ← hup, Path.length]
    congr 1
    omega

theorem fbTraverse_eq {path : Path ℕ ℕ 0} (h : Around s path p)
    (ho : Ordered True unmarked IsKey (plug path (data p)).2) (hr : room False IsKey path key) :
    fbTraverse s key = (path.positions, p) := by
  rw [fbTraverse, h.level, traverse_of_room h ho hr]
  rfl

theorem findLoop_eq (s : Fb) (key n a : ℕ) (ps : List (ℕ × ℕ)) :
    findLoop s key n a = (traverseLoop s key n a ps).2 := by
  induction n generalizing a ps with
  | zero => rfl
  | succ n ih => exact ih _ _

theorem fbFind_eq (s : Fb) (key : ℕ) : fbFind s key = (fbTraverse s key).2 :=
  findLoop_eq s key s.level s.root []

/-- With one thread the tree never moves away from the stack. -/
theorem fbSmoCheck_eq (h : Around s path p) : fbSmoCheck s path.positions p = false := by
  induction path generalizing p with
  | top =>
    have hroot : s.root = p := h.root
    simp [Path.positions, fbSmoCheck, hroot]
  | step a pre k post up ih =>
    simp [Path.positions, fbSmoCheck, h.child_eq, ih h.parent]

end YwStorage.FbTree
