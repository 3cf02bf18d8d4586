import YwStorage.FbTree.Nodes

/-! The tree that the node memory holds, and the stores that move it from one tree to the next. -/
namespace YwStorage.FbTree
open MultiTree SortedMap

variable {alloc : Finset ℕ → ℕ} {s : Fb} {R : Multiset ℕ} {T : Σ N, Node ℕ ℕ N} {n a b p q k : ℕ}
  {t u : Node ℕ ℕ n} {path up : Path ℕ ℕ n} {nd : FbNode} {ws : List (ℕ × ℕ)}

/-- No node of the tree is empty. -/
def Holds (s : Fb) (_ a : ℕ) (ws : List (ℕ × ℕ)) : Prop := Fits (s.mem a) ws ∧ ws ≠ []

/-- The word the root field holds when the hole of the path holds `p`. -/
def rootOf : {n : ℕ} → Path ℕ ℕ n → ℕ → ℕ
  | _, .top, p => p
  | _, .step a _ _ _ up, _ => rootOf up a

/-- The memory holds the path, with `p` in its hole. -/
structure Around (s : Fb) (path : Path ℕ ℕ n) (p : ℕ) : Prop where
  linked : LinkedPath (Holds s) path p
  root : s.root = rootOf path p
  level : s.level = n + path.length

/-- The memory holds the tree; besides its nodes `R` and the nodes to free are in use. -/
structure Shape (s : Fb) (R : Multiset ℕ) (T : Σ N, Node ℕ ℕ N) : Prop where
  root : s.root = ptr T.2
  level : s.level = T.1
  linked : Linked (Holds s) T.2
  count : fbNilNode ::ₘ (R + addrs T.2 + (s.freeNode : Multiset ℕ)) ≤ s.live.val

theorem ptr_plug : ptr (plug path t).2 = rootOf path (ptr t) := by
  induction path with
  | top => rfl
  | step a pre k post up ih => exact ih

theorem shape_plug : Shape s R (plug path t) ↔ Around s path (ptr t) ∧ Linked (Holds s) t ∧
    fbNilNode ::ₘ (R + (addrs t + path.addrs) + (s.freeNode : Multiset ℕ)) ≤ s.live.val := by
  constructor
  · intro h
    have hl := linked_plug.mp h.linked
    refine ⟨⟨hl.2, ?_, ?_⟩, hl.1, ?_⟩
    · rw [h.root, ptr_plug]
    · rw [h.level, height_plug]
    · rw [← addrs_plug]
      exact h.count
  · rintro ⟨h, ht, hc⟩
    refine ⟨?_, ?_, linked_plug.mpr ⟨ht, h.linked⟩, ?_⟩
    · rw [h.root, ptr_plug]
    · rw [h.level, height_plug]
    · rw [addrs_plug]
      exact hc

namespace Shape

theorem nodup (h : Shape s R T) :
    (fbNilNode ::ₘ (R + addrs T.2 + (s.freeNode : Multiset ℕ))).Nodup :=
  Multiset.nodup_of_le h.count s.live.nodup

theorem around (h : Shape s R (plug path t)) : Around s path (ptr t) := (shape_plug.mp h).1

theorem tree (h : Shape s R (plug path t)) : Linked (Holds s) t := (shape_plug.mp h).2.1

theorem mem_live (h : Shape s R T) (ha : a ∈ addrs T.2) : a ∈ s.live :=
  Multiset.mem_of_le h.count (by simp [ha])

theorem ne_nil (h : Shape s R T) (ha : a ∈ addrs T.2) : a ≠ fbNilNode := by
  rintro rfl
  exact (Multiset.nodup_cons.mp h.nodup).1 (by simp [ha])

/-- A fresh node is in use from now on; what is written to it does not matter. -/
theorem create (h : Shape s R T) (ha : a ∉ s.live) (nd : FbNode) :
    Shape (({ s with live := insert a s.live } : Fb).write a nd) (a ::ₘ R) T := by
  refine ⟨h.root, h.level, h.linked.congr fun b hb m ws hold => ?_, ?_⟩
  · have hne : b ≠ a := fun he => ha (he ▸ h.mem_live hb)
    simpa [Holds, Fb.write, hne] using hold
  · rw [Fb.write, Finset.insert_val_of_notMem ha, Multiset.cons_add, Multiset.cons_add,
      Multiset.cons_swap]
    exact Multiset.cons_le_cons a h.count

end Shape

theorem Around.child_eq {pre post : List (ℕ × Node ℕ ℕ n)} {up : Path ℕ ℕ (n + 1)}
    (h : Around s (.step a pre k post up) p) : (s.mem a).child pre.length = p := by
  have hf := h.linked.1.1
  rw [← length_words, hf.child_at]

theorem Around.parent {pre post : List (ℕ × Node ℕ ℕ n)} {up : Path ℕ ℕ (n + 1)}
    (h : Around s (.step a pre k post up) p) : Around s up a := by
  refine ⟨h.linked.2.2.2, h.root, ?_⟩
  rw [h.level, Path.length]
  omega

/-- Only the word in the hole changes. -/
theorem Around.redirect {s' : Fb} {pre post : List (ℕ × Node ℕ ℕ n)} {up : Path ℕ ℕ (n + 1)}
    (h : Around s (.step a pre k post up) p) (hd : (Path.step a pre k post up).addrs.Nodup)
    (hroot : s'.root = s.root) (hlevel : s'.level = s.level)
    (hword : s'.mem a = (s.mem a).setChild pre.length q)
    (hm : ∀ b ∈ (Path.step a pre k post up).addrs, b ≠ a → s'.mem b = s.mem b) :
    Around s' (.step a pre k post up) q := by
  refine ⟨h.linked.redirect hd ?_ ?_, hroot.trans h.root, hlevel.trans h.level⟩
  · rintro ⟨hf, -⟩
    refine ⟨?_, by simp⟩
    have := hf.setChild q
    rw [length_words] at this
    rwa [hword]
  · intro b hb hba m ws hold
    rwa [Holds, hm b hb hba]

/-- `fb_replace_child` puts `q` in the hole and gives the old node up. -/
theorem Around.replaceChild (h : Around s up p) (hd : up.addrs.Nodup) (hp : p ∈ s.live)
    (hq : q ≠ fbNilNode) (hfree : s.freeNode.length < 8) :
    ∃ s', s.replaceChild up.positions p q = some s' ∧ Around s' up q ∧
      s'.freeNode = s.freeNode ++ [p] ∧ s'.live = s.live ∧
      ∀ b, b ∉ up.addrs → s'.mem b = s.mem b := by
  cases up with
  | top =>
    have hroot : s.root = p := h.root
    refine ⟨{ s with root := q, freeNode := s.freeNode ++ [p] }, ?_, ⟨trivial, rfl, h.level⟩, rfl,
      rfl, fun _ _ => rfl⟩
    simp [Path.positions, Fb.replaceChild, Fb.changeRoot, Fb.pushFreeNode, hq, hroot, hp, hfree]
  | step a pre k post up =>
    refine ⟨{ s.write a ((s.mem a).setChild pre.length q) with freeNode := s.freeNode ++ [p] }, ?_,
      h.redirect hd rfl rfl (by simp [Fb.write]) fun b _ hba => by simp [Fb.write, hba], rfl, rfl,
      ?_⟩
    · simp [Path.positions, Fb.replaceChild, Fb.pushFreeNode, h.child_eq, Fb.write, hp, hfree]
    · intro b hb
      have hba : b ≠ a := fun he => hb (by simp [Path.addrs, he])
      simp [Fb.write, hba]

theorem Around.congr {s' : Fb} (h : Around s path p) (hroot : s'.root = s.root)
    (hlevel : s'.level = s.level) (hm : ∀ b ∈ path.addrs, s'.mem b = s.mem b) :
    Around s' path p := by
  refine ⟨h.linked.congr fun b hb m ws hold => ?_, hroot.trans h.root, hlevel.trans h.level⟩
  rwa [Holds, hm b hb]

theorem linked_congr {s' : Fb} (h : Linked (Holds s) t) (hm : ∀ b ∈ addrs t, s'.mem b = s.mem b) :
    Linked (Holds s') t := by
  refine h.congr fun b hb m ws hold => ?_
  rwa [Holds, hm b hb]

/-- A tree that is ready in the memory is hung into the path; its old node is to be freed. -/
theorem Around.swap {up : Path ℕ ℕ (n + 1)} {t : Node ℕ ℕ (n + 1)} (h : Around s up p)
    (hp : p ∈ s.live) (hfree : s.freeNode.length < 8) (ht : Linked (Holds s) t)
    (hc : fbNilNode ::ₘ (R + (addrs t + up.addrs) + (s.freeNode + {p})) ≤ s.live.val) :
    ∃ s', s.replaceChild up.positions p (ptr t) = some s' ∧ Shape s' R (plug up t) ∧
      s'.freeNode = s.freeNode ++ [p] ∧ s'.live = s.live ∧
      ∀ b, b ∉ up.addrs → s'.mem b = s.mem b := by
  have hd := Multiset.nodup_of_le hc s.live.nodup
  obtain ⟨hnil, hd⟩ := Multiset.nodup_cons.mp hd
  simp only [Multiset.nodup_add, Multiset.disjoint_add_left, Multiset.disjoint_add_right] at hd
  have hptr : ptr t ≠ fbNilNode := by
    intro he
    refine hnil ?_
    rw [← he]
    simp [ptr_mem_addrs]
  obtain ⟨s', hrep, haround, hf, hl, hm⟩ := h.replaceChild hd.1.2.1.2.1 hp hptr hfree
  refine ⟨s', hrep, shape_plug.mpr ⟨haround, linked_congr ht fun b hb => hm b fun hbu => ?_, ?_⟩,
    hf, hl, hm⟩
  · exact Multiset.disjoint_left.mp hd.1.2.1.2.2 hb hbu
  · rw [hf, hl, ← Multiset.coe_add]
    exact hc

/-- A fresh node takes the place of the node in the hole and keeps some of its subtrees. -/
theorem Around.renew {up : Path ℕ ℕ (n + 1)} {es : List (ℕ × Node ℕ ℕ n)} (h : Around s up a)
    (hb : b ∉ s.live) (hfree : s.freeNode.length < 8) (hfit : Fits nd (words es)) (hne : es ≠ [])
    (hes : ∀ e ∈ es, Linked (Holds s) e.2)
    (hc : fbNilNode ::ₘ (R + ({a} + addrsOf es + up.addrs) + s.freeNode) ≤ s.live.val) :
    ∃ s', (({ s with live := insert b s.live } : Fb).write b nd).replaceChild up.positions a b =
        some s' ∧ Shape s' R (plug up (node b es)) ∧ s'.freeNode = s.freeNode ++ [a] ∧
      s'.live = insert b s.live := by
  have hin : ∀ x ∈ {a} + addrsOf es + up.addrs, x ∈ s.live := fun x hx =>
    Multiset.mem_of_le hc (Multiset.mem_cons_of_mem
      (Multiset.mem_add.mpr (Or.inl (Multiset.mem_add.mpr (Or.inr hx)))))
  have hold : ∀ x ∈ {a} + addrsOf es + up.addrs,
      (({ s with live := insert b s.live } : Fb).write b nd).mem x = s.mem x := by
    intro x hx
    have hxb : x ≠ b := fun he => hb (he ▸ hin x hx)
    simp [Fb.write, hxb]
  have haround : Around (({ s with live := insert b s.live } : Fb).write b nd) up a :=
    h.congr rfl rfl fun x hx => hold x (by simp [hx])
  have hlink :
      Linked (Holds (({ s with live := insert b s.live } : Fb).write b nd)) (node b es) := by
    refine ⟨⟨by simpa [Fb.write] using hfit, by simpa [words] using hne⟩, fun e he => ?_⟩
    refine linked_congr (hes e he) fun x hx => hold x ?_
    simp [Multiset.mem_of_le (addrs_le_addrsOf he) hx]
  have hcount : fbNilNode ::ₘ (R + (addrs (node b es) + up.addrs) + (s.freeNode + {a})) ≤
      (insert b s.live).val := by
    rw [Finset.insert_val_of_notMem hb, addrs_node]
    refine le_trans (le_of_eq ?_) (Multiset.cons_le_cons b hc)
    simp only [← Multiset.singleton_add]
    abel
  obtain ⟨s', hrep, hshape, hfree', hlive', -⟩ :=
    haround.swap (Finset.mem_insert_of_mem (hin a (by simp))) hfree hlink hcount
  exact ⟨s', hrep, hshape, hfree', hlive'⟩

end YwStorage.FbTree
