import YwStorage.Lib.MultiOrder

/-!
Splitting nodes of trees in which an entry's key is the first key below it when the entry is made.
The key of a first entry bounds nothing. An empty lowest node is read through its mark.
-/
namespace MultiTree

variable {κ A : Type} {mark : A → Option κ} {P : κ → Prop} {n : ℕ} {a l r p : A}
  {k c k' : κ} {ls rs es pre post : List (κ × Node κ A n)} {t : Node κ A n}

/-- The word that points to the tree when the hole of the path holds `p`. -/
def Path.root : {n : ℕ} → Path κ A n → A → A
  | _, .top, p => p
  | _, .step a _ _ _ up, _ => up.root a

/-- The nodes of the path, innermost first. -/
def Path.nodes (path : Path κ A n) : List A := path.positions.map Prod.fst

theorem ptr_plug (path : Path κ A n) (t : Node κ A n) :
    ptr (plug path t).2 = path.root (ptr t) := by
  induction path with
  | top => rfl
  | step a pre k post up ih => exact ih _

theorem Path.length_nodes (path : Path κ A n) : path.nodes.length = path.length := by
  rw [Path.nodes, List.length_map, length_positions]

theorem Path.nodes_le (path : Path κ A n) : (path.nodes : Multiset A) ≤ path.addrs := by
  induction path with
  | top => exact le_rfl
  | step a pre k post up ih =>
    rw [Path.addrs, add_assoc, add_assoc, Multiset.singleton_add]
    refine Multiset.cons_le_cons a (ih.trans ?_)
    rw [← add_assoc]
    exact Multiset.le_add_left _ _

theorem Path.nodes_subset (path : Path κ A n) : ∀ a ∈ path.nodes, a ∈ path.addrs := fun _ ha =>
  Multiset.mem_of_le path.nodes_le (Multiset.mem_coe.mpr ha)

theorem Path.getLast_nodes (path : Path κ A n) (p : A) :
    (p :: path.nodes).getLast (List.cons_ne_nil _ _) = path.root p := by
  induction path generalizing p with
  | top => rfl
  | step a pre k post up ih => exact ih a

/-- The first key below a tree. -/
def leftKey (mark : A → Option κ) : {n : ℕ} → Node κ A n → Option κ
  | 0, _ => none
  | 1, (a, es) => if es = [] then mark a else es.head?.map Prod.fst
  | _ + 2, (_, es) => es.head?.bind fun e => leftKey mark e.2

/-- Every lowest node has a first key. It is marked just if it is empty. -/
def Readable (mark : A → Option κ) : {n : ℕ} → Node κ A n → Prop
  | 0, _ => True
  | 1, (a, es) => es = [] ↔ mark a ≠ none
  | _ + 2, (_, es) => es ≠ [] ∧ ∀ e ∈ es, Readable mark e.2

theorem readable_leaf {es : List (κ × Node κ A 0)} :
    Readable mark (node a es) ↔ (es = [] ↔ mark a ≠ none) := Iff.rfl

theorem readable_inner {es : List (κ × Node κ A (n + 1))} :
    Readable mark (node a es) ↔ es ≠ [] ∧ ∀ e ∈ es, Readable mark e.2 := Iff.rfl

theorem leftKey_inner (e : κ × Node κ A (n + 1)) (es : List (κ × Node κ A (n + 1))) :
    leftKey mark (node a (e :: es)) = leftKey mark e.2 := rfl

theorem leftKey_congr {mark' : A → Option κ} (hm : ∀ a ∈ addrs t, mark' a = mark a) :
    leftKey mark' t = leftKey mark t := by
  induction n with
  | zero => rfl
  | succ n ih =>
    obtain ⟨a, es, rfl⟩ := exists_node t
    cases n with
    | zero =>
      cases es with
      | nil => exact hm a (by simp [addrs_node])
      | cons e es => rfl
    | succ n =>
      cases es with
      | nil => rfl
      | cons e es =>
        rw [leftKey_inner, leftKey_inner]
        exact ih fun b hb => hm b (by simp [addrs_node, hb])

theorem exists_leftKey {t : Node κ A (n + 1)} (h : Readable mark t) :
    ∃ k, leftKey mark t = some k := by
  induction n with
  | zero =>
    obtain ⟨a, es, rfl⟩ := exists_node t
    cases es with
    | nil => exact Option.ne_none_iff_exists'.mp ((readable_leaf.mp h).mp rfl)
    | cons e es => exact ⟨e.1, rfl⟩
  | succ n ih =>
    obtain ⟨a, es, rfl⟩ := exists_node t
    obtain ⟨hne, hes⟩ := h
    cases es with
    | nil => exact absurd rfl hne
    | cons e es => exact ih (hes e (by simp))

/-- Only the marks of the nodes in the tree matter. -/
theorem Readable.congr {mark' : A → Option κ} (h : Readable mark t)
    (hm : ∀ a ∈ addrs t, mark' a = mark a) : Readable mark' t := by
  induction n with
  | zero => trivial
  | succ n ih =>
    obtain ⟨a, es, rfl⟩ := exists_node t
    cases n with
    | zero =>
      rw [readable_leaf] at h ⊢
      rw [hm a (by simp [addrs_node]), h]
    | succ n =>
      obtain ⟨hne, hes⟩ := readable_inner.mp h
      refine readable_inner.mpr ⟨hne, fun e he => ih (hes e he) fun b hb => hm b ?_⟩
      rw [addrs_node]
      exact Multiset.mem_add.mpr (.inr (Multiset.mem_of_le (addrs_le_addrsOf he) hb))

theorem Readable.hole {path : Path κ A n} (h : Readable mark (plug path t).2) :
    Readable mark t := by
  induction path with
  | top => exact h
  | @step n a pre k post up ih =>
    cases n with
    | zero => trivial
    | succ n => exact (readable_inner.mp (ih h)).2 (k, t) (by simp)

/-- The hole takes any tree that can be read. -/
theorem Readable.replug {mark' : A → Option κ} {t' : Node κ A n} {path : Path κ A n}
    (h : Readable mark (plug path t).2) (hm : ∀ b ∈ path.addrs, mark' b = mark b)
    (ht : Readable mark' t') : Readable mark' (plug path t').2 := by
  induction path with
  | top => exact ht
  | @step n a pre k post up ih =>
    have hplug : Readable mark (plug up (node a (pre ++ (k, t) :: post))).2 := h
    have hnode := hplug.hole
    simp only [Path.addrs, Multiset.mem_add, Multiset.mem_singleton] at hm
    refine ih h (fun b hb => hm b (.inr hb)) ?_
    cases n with
    | zero =>
      rw [readable_leaf] at hnode ⊢
      rw [hm a (.inl (.inl (.inl rfl))), ← hnode]
      simp
    | succ n =>
      rw [readable_inner] at hnode ⊢
      refine ⟨by simp, fun e he => ?_⟩
      rcases List.mem_append.mp he with he | he
      · refine (hnode.2 e (by simp [he])).congr fun b hb => hm b ?_
        exact .inl (.inl (.inr (mem_addrsOf.mpr ⟨e, he, hb⟩)))
      · rcases List.mem_cons.mp he with rfl | he
        · exact ht
        · refine (hnode.2 e (by simp [he])).congr fun b hb => hm b ?_
          exact .inl (.inr (mem_addrsOf.mpr ⟨e, he, hb⟩))

/-- The first key is that of the first entry. -/
theorem leftKey_head {mark' : A → Option κ} {e : κ × Node κ A n}
    (hm : ∀ b ∈ addrs e.2, mark' b = mark b) :
    leftKey mark' (node l (e :: ls)) = leftKey mark (node r (e :: rs)) := by
  cases n with
  | zero => rfl
  | succ n =>
    rw [leftKey_inner, leftKey_inner]
    exact leftKey_congr hm

theorem exists_leftKey_part (h : Readable mark (node a es)) (hsub : ∀ e ∈ ls, e ∈ es)
    (hne : ls ≠ []) : ∃ k, leftKey mark (node l ls) = some k := by
  obtain ⟨e, ls, rfl⟩ := List.exists_cons_of_ne_nil hne
  cases n with
  | zero => exact ⟨e.1, rfl⟩
  | succ n =>
    obtain ⟨k, hk⟩ := exists_leftKey (h.2 e (hsub e (by simp)))
    exact ⟨k, hk⟩

/-- A part of a node can be read like the node. -/
theorem Readable.part (h : Readable mark (node a es)) (hsub : ∀ e ∈ ls, e ∈ es) (hne : ls ≠ [])
    (hl : mark l = none) : Readable mark (node l ls) := by
  cases n with
  | zero => exact readable_leaf.mpr (iff_of_false hne (by simp [hl]))
  | succ n => exact readable_inner.mpr ⟨hne, fun e he => h.2 e (hsub e he)⟩

variable [LinearOrder κ]

theorem Ordered.leftKey_mem {low : Prop} {t : Node κ A (n + 1)} (h : Ordered low mark P t)
    (hk : leftKey mark t = some k) : P k := by
  induction n generalizing P with
  | zero =>
    obtain ⟨a, es, rfl⟩ := exists_node t
    obtain ⟨-, hmark, hes⟩ := ordered_leaf.mp h
    cases es with
    | nil => exact hmark k hk
    | cons e es =>
      cases hk
      exact hes e (by simp)
  | succ n ih =>
    obtain ⟨a, es, rfl⟩ := exists_node t
    cases es with
    | nil => cases hk
    | cons e es =>
      have hchild : Ordered low mark (Region low P [] e.1 es) e.2 := (h.2.2 [] e es rfl).2
      exact (ih hchild hk).inside

/-- The first key of a part of a node is in the region of the part's first entry. -/
theorem Ordered.leftKey_region {e : κ × Node κ A n}
    (h : Ordered False mark P (node a (pre ++ e :: post)))
    (hk : leftKey mark (node r (e :: es)) = some c) :
    (pre ≠ [] → e.1 ≤ c) ∧ ∀ f ∈ post, c < f.1 := by
  cases n with
  | zero =>
    cases hk
    have hsorted := h.keys_sorted
    rw [List.pairwise_append, List.pairwise_cons] at hsorted
    exact ⟨fun _ => le_rfl, hsorted.2.1.1⟩
  | succ n =>
    have hregion := Ordered.leftKey_mem (Ordered.child (t := e.2) h) hk
    exact ⟨fun hpre => hregion.lower (.inr hpre), hregion.upper⟩

/-- Nothing in the tree is below its first key. -/
theorem Ordered.raise {t : Node κ A (n + 1)} (h : Ordered False mark P t) (hr : Readable mark t)
    (hk : leftKey mark t = some k) : Ordered False mark (fun x => P x ∧ k ≤ x) t := by
  induction n generalizing P with
  | zero =>
    obtain ⟨a, es, rfl⟩ := exists_node t
    obtain ⟨hp, hmark, hes⟩ := ordered_leaf.mp h
    cases es with
    | nil =>
      have hmk : mark a = some k := hk
      refine ordered_leaf.mpr ⟨hp, fun y hy => ⟨hmark y hy, ?_⟩, by simp⟩
      rw [hmk] at hy
      exact (Option.some.inj hy).le
    | cons e es =>
      cases hk
      have hnone : mark a = none := by
        by_contra hsome
        exact absurd ((readable_leaf.mp hr).mpr hsome) (by simp)
      refine ordered_leaf.mpr ⟨hp, by simp [hnone], fun f hf => ⟨hes f hf, ?_⟩⟩
      rcases List.mem_cons.mp hf with rfl | hf
      · exact le_rfl
      · exact ((List.pairwise_cons.mp hp).1 f hf).le
  | succ n ih =>
    obtain ⟨a, es, rfl⟩ := exists_node t
    obtain ⟨-, hes⟩ := hr
    cases es with
    | nil => cases hk
    | cons e es =>
      have hfirst : Ordered False mark (Region False P [] e.1 es) e.2 := (h.2.2 [] e es rfl).2
      have hkreg := hfirst.leftKey_mem hk
      refine ⟨h.1, markIn_succ, fun pre f post he => ?_⟩
      cases pre with
      | nil =>
        cases he
        refine ⟨by simp, (ih hfirst (hes e (by simp)) hk).mono fun x hx => ?_⟩
        exact ⟨⟨hx.1.inside, hx.2⟩, by simp, hx.1.upper⟩
      | cons g gs =>
        cases he
        obtain ⟨hin, hsub⟩ := h.2.2 (e :: gs) f post rfl
        have hkf : k < f.1 := hkreg.upper f (by simp)
        refine ⟨fun hb => ⟨hin hb, hkf.le⟩, hsub.mono fun x hx => ?_⟩
        have hfx := hx.lower (.inr (by simp))
        exact ⟨⟨hx.inside, hkf.le.trans hfx⟩, fun _ => hfx, hx.upper⟩

/-- What the two halves of a node hold. -/
structure Halved (mark : A → Option κ) (P : κ → Prop) (l r : A) (ls rs : List (κ × Node κ A n))
    (k c : κ) : Prop where
  lt : k < c
  left_mem : P k
  right_mem : P c
  left : Ordered False mark (fun x => P x ∧ k ≤ x ∧ x < c) (node l ls)
  right : Ordered False mark (fun x => P x ∧ c ≤ x) (node r rs)

theorem Ordered.halve (h : Ordered False mark P (node a (ls ++ rs)))
    (hread : Readable mark (node a (ls ++ rs))) (hls : ls ≠ []) (hrs : rs ≠ [])
    (hl : mark l = none) (hr : mark r = none) (hk : leftKey mark (node l ls) = some k)
    (hc : leftKey mark (node r rs) = some c) : Halved mark P l r ls rs k c := by
  obtain ⟨e, rs, rfl⟩ := List.exists_cons_of_ne_nil hrs
  obtain ⟨hleft, hright⟩ := h.split hls (l := l) (r := r) (fun _ y hy => by simp [hl] at hy)
    fun _ y hy => by simp [hr] at hy
  have hkm := hleft.leftKey_mem hk
  have hcm := hright.leftKey_mem hc
  have hread_l := hread.part (fun f hf => List.mem_append_left _ hf) hls hl
  have hread_r := hread.part (fun f hf => List.mem_append_right _ hf) hrs hr
  refine ⟨hkm.2.trans_le hcm.2, hkm.1, hcm.1, ?_, ?_⟩
  · exact (hleft.raise hread_l hk).mono fun x hx => ⟨hx.1.1, hx.2, hx.1.2.trans_le hcm.2⟩
  · exact (hright.raise hread_r hc).mono fun x hx => ⟨hx.1.1, hx.2⟩

/-- The halves take the place of a node in its parent. -/
theorem Halved.join {pre post : List (κ × Node κ A (n + 1))} {t : Node κ A (n + 1)}
    (h : Halved mark (Region False P pre k post) l r ls rs k' c)
    (ho : Ordered False mark P (node p (pre ++ (k, t) :: post))) :
    Ordered False mark P (node p (pre ++ (k', node l ls) :: (c, node r rs) :: post)) :=
  ho.join h.lt h.left_mem h.right_mem
    (h.left.mono fun _ hx => ⟨hx.1, fun _ => hx.2.1, hx.2.2⟩) h.right

/-- A new root above the halves. -/
theorem Halved.root (h : Halved mark P l r ls rs k c) :
    Ordered False mark P (node p [(k, node l ls), (c, node r rs)]) := by
  refine ⟨by simpa using h.lt, markIn_succ, fun pre e post he => ?_⟩
  rcases pre with _ | ⟨f, _ | ⟨g, gs⟩⟩
  · cases he
    exact ⟨fun _ => h.left_mem, h.left.mono fun x hx => ⟨hx.1, by simp, by simpa using hx.2.2⟩⟩
  · cases he
    exact ⟨fun _ => h.right_mem, h.right.mono fun x hx => ⟨hx.1, fun _ => hx.2, by simp⟩⟩
  · simp at he

end MultiTree
