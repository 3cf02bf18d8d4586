import Mathlib

/-!
Multiway trees of uniform height in a node memory: a node holds a list of keyed pointers, and the
pointers of the lowest nodes are data. A path is a tree with a hole.
-/
namespace MultiTree

variable {κ A : Type}

/-- A tree of height `n`: an address with keyed subtrees; at height `0` it is a data word. -/
def Node (κ A : Type) : ℕ → Type
  | 0 => A
  | n + 1 => A × List (κ × Node κ A n)

def data (p : A) : Node κ A 0 := p

def node {n : ℕ} (a : A) (es : List (κ × Node κ A n)) : Node κ A (n + 1) := (a, es)

theorem exists_node {n : ℕ} (t : Node κ A (n + 1)) : ∃ a es, t = node a es := ⟨t.1, t.2, rfl⟩

/-- The word that points to the tree. -/
def ptr : {n : ℕ} → Node κ A n → A
  | 0, t => t
  | _ + 1, (a, _) => a

/-- Node addresses, each as often as it occurs. -/
def addrs : {n : ℕ} → Node κ A n → Multiset A
  | 0, _ => 0
  | _ + 1, (a, es) => {a} + (es.map fun e => addrs e.2).sum

/-- The keyed data words below an entry, from left to right. -/
def contents : {n : ℕ} → κ × Node κ A n → List (κ × A)
  | 0, e => [e]
  | _ + 1, (_, _, es) => es.flatMap contents

/-- The keyed data words of a tree; a lone data word has no key. -/
def whole : (Σ N, Node κ A N) → List (κ × A)
  | ⟨0, _⟩ => []
  | ⟨_ + 1, _, es⟩ => es.flatMap contents

/-- The entries of a node as the memory holds them. -/
def words {n : ℕ} (es : List (κ × Node κ A n)) : List (κ × A) := es.map fun e => (e.1, ptr e.2)

section Node
variable {n : ℕ} {a p : A} {k : κ} {es : List (κ × Node κ A n)}

@[simp] theorem ptr_data : ptr (data p : Node κ A 0) = p := rfl
@[simp] theorem ptr_node : ptr (node a es) = a := rfl
@[simp] theorem addrs_data : addrs (data p : Node κ A 0) = 0 := rfl
@[simp] theorem contents_data : contents (k, (data p : Node κ A 0)) = [(k, p)] := rfl
@[simp] theorem contents_node : contents (k, node a es) = es.flatMap contents := rfl
@[simp] theorem whole_node : whole ⟨n + 1, node a es⟩ = es.flatMap contents := rfl

/-- The addresses below a list of entries. -/
def addrsOf (es : List (κ × Node κ A n)) : Multiset A := (es.map fun e => addrs e.2).sum

theorem addrs_node : addrs (node a es) = {a} + addrsOf es := rfl

@[simp] theorem addrsOf_nil : addrsOf ([] : List (κ × Node κ A n)) = 0 := rfl

@[simp] theorem addrsOf_cons (e : κ × Node κ A n) : addrsOf (e :: es) = addrs e.2 + addrsOf es := by
  simp [addrsOf]

@[simp] theorem addrsOf_append (fs : List (κ × Node κ A n)) :
    addrsOf (es ++ fs) = addrsOf es + addrsOf fs := by
  simp [addrsOf]

theorem addrs_le_addrsOf {e : κ × Node κ A n} (he : e ∈ es) : addrs e.2 ≤ addrsOf es := by
  obtain ⟨pre, post, rfl⟩ := List.append_of_mem he
  rw [addrsOf_append, addrsOf_cons]
  exact le_trans (Multiset.le_add_right _ (addrsOf post)) (Multiset.le_add_left _ _)

theorem mem_addrsOf : a ∈ addrsOf es ↔ ∃ e ∈ es, a ∈ addrs e.2 := by
  induction es with
  | nil => simp
  | cons e es ih => simp [ih]

theorem addrsOf_data (es : List (κ × Node κ A 0)) : addrsOf es = 0 := by
  induction es with
  | nil => rfl
  | cons e es ih =>
    rw [addrsOf_cons, ih]
    rfl

theorem ptr_mem_addrs (t : Node κ A (n + 1)) : ptr t ∈ addrs t := by
  obtain ⟨a, es, rfl⟩ := exists_node t
  simp [addrs_node]

@[simp] theorem words_nil : words ([] : List (κ × Node κ A n)) = [] := rfl
@[simp] theorem words_cons (e : κ × Node κ A n) :
    words (e :: es) = (e.1, ptr e.2) :: words es := rfl
@[simp] theorem words_append (fs : List (κ × Node κ A n)) :
    words (es ++ fs) = words es ++ words fs := by simp [words]
@[simp] theorem length_words : (words es).length = es.length := by simp [words]

/-- An entry of the memory belongs to an entry of the tree. -/
theorem split_of_words {us vs : List (κ × A)} {w : κ × A} (h : words es = us ++ w :: vs) :
    ∃ pre t post, es = pre ++ (w.1, t) :: post ∧ words pre = us ∧ ptr t = w.2 ∧
      words post = vs := by
  obtain ⟨pre, rest, rfl, hpre, hrest⟩ := List.map_eq_append_iff.mp h
  obtain ⟨e, post, rfl, rfl, hpost⟩ := List.map_eq_cons_iff.mp hrest
  exact ⟨pre, e.2, post, rfl, hpre, rfl, hpost⟩

end Node

/-- A tree with a hole at height `n`, innermost node first. -/
inductive Path (κ A : Type) : ℕ → Type
  | top {n : ℕ} : Path κ A n
  | step {n : ℕ} (a : A) (pre : List (κ × Node κ A n)) (k : κ) (post : List (κ × Node κ A n))
      (up : Path κ A (n + 1)) : Path κ A n

/-- The tree with the hole filled. -/
def plug : {n : ℕ} → Path κ A n → Node κ A n → Σ N, Node κ A N
  | n, .top, t => ⟨n, t⟩
  | _, .step a pre k post up, t => plug up (node a (pre ++ (k, t) :: post))

namespace Path

def length : {n : ℕ} → Path κ A n → ℕ
  | _, .top => 0
  | _, .step _ _ _ _ up => up.length + 1

/-- Nodes of the path with the slots it goes through. -/
def positions : {n : ℕ} → Path κ A n → List (A × ℕ)
  | _, .top => []
  | _, .step a pre _ _ up => (a, pre.length) :: up.positions

def addrs : {n : ℕ} → Path κ A n → Multiset A
  | _, .top => 0
  | _, .step a pre _ post up => {a} + addrsOf pre + addrsOf post + up.addrs

def before : {n : ℕ} → Path κ A n → List (κ × A)
  | _, .top => []
  | _, .step _ pre _ _ up => up.before ++ pre.flatMap contents

def after : {n : ℕ} → Path κ A n → List (κ × A)
  | _, .top => []
  | _, .step _ _ _ post up => post.flatMap contents ++ up.after

/-- The entries of the node around the hole. -/
def width : {n : ℕ} → Path κ A n → ℕ
  | _, .top => 0
  | _, .step _ pre _ post _ => pre.length + post.length + 1

/-- The keyed data words of a tree in the hole. -/
def inner : {n : ℕ} → Path κ A n → Node κ A n → List (κ × A)
  | n, .top, t => whole ⟨n, t⟩
  | _, .step _ _ k _ _, t => contents (k, t)

end Path

section Plug
variable {n : ℕ} {a : A} {k : κ} {pre post : List (κ × Node κ A n)} {up : Path κ A (n + 1)}
  {path : Path κ A n} {t : Node κ A n}

@[simp] theorem plug_top : plug .top t = ⟨n, t⟩ := rfl

@[simp] theorem plug_step :
    plug (.step a pre k post up) t = plug up (node a (pre ++ (k, t) :: post)) := rfl

theorem addrs_plug : addrs (plug path t).2 = addrs t + path.addrs := by
  induction path with
  | top => simp [Path.addrs]
  | step a pre k post up ih =>
    rw [plug_step, ih, addrs_node, Path.addrs, addrsOf_append, addrsOf_cons]
    abel

theorem length_positions (path : Path κ A n) : path.positions.length = path.length := by
  induction path with
  | top => rfl
  | step a pre k post up ih => rw [Path.positions, Path.length, List.length_cons, ih]

/-- The tree with the hole moved up to a position of the path. -/
theorem plug_at {i j : ℕ} {q : A} (path : Path κ A n) (t : Node κ A n)
    (h : path.positions[i]? = some (q, j)) :
    ∃ pre k post, ∃ (up : Path κ A (n + i + 1)) (t' : Node κ A (n + i)),
      plug (.step q pre k post up) t' = plug path t ∧ pre.length = j := by
  induction path generalizing i with
  | top => cases h
  | @step n a pre k post up ih =>
    cases i with
    | zero =>
      cases h
      exact ⟨pre, k, post, up, t, rfl, rfl⟩
    | succ i =>
      rw [show n + (i + 1) = n + 1 + i by omega]
      exact ih (node a (pre ++ (k, t) :: post)) h

theorem height_plug : (plug path t).1 = n + path.length := by
  induction path with
  | top => rfl
  | step a pre k post up ih =>
    rw [plug_step, ih, Path.length]
    omega

@[simp] theorem inner_node (up : Path κ A (n + 1)) (es : List (κ × Node κ A n)) :
    up.inner (node a es) = es.flatMap contents := by
  cases up <;> rfl

theorem whole_plug : whole (plug path t) = path.before ++ path.inner t ++ path.after := by
  induction path with
  | top => simp [Path.before, Path.after, Path.inner]
  | step a pre k post up ih =>
    rw [plug_step, ih, inner_node]
    simp [Path.before, Path.after, Path.inner]

end Plug

/-- The tree without the hole: the nodes that have no other entry are gone, and `b` stands for the
first one that has. If there is none, the word `z` is left. -/
def prune (z b : A) : {n : ℕ} → Path κ A n → Σ N, Node κ A N
  | _, .top => ⟨0, data z⟩
  | _, .step _ pre _ post up =>
    if pre.length + post.length = 0 then prune z b up else plug up (node b (pre ++ post))

/-- The nodes of the path that are not in the pruned tree. -/
def Path.dropped : {n : ℕ} → Path κ A n → List A
  | _, .top => []
  | _, .step a pre _ post up => a :: if pre.length + post.length = 0 then up.dropped else []

section Prune
variable {n : ℕ} {z a b : A} {k : κ} {pre post : List (κ × Node κ A n)} {up : Path κ A (n + 1)}
  {path : Path κ A n}

theorem nil_of_no_entries (h : pre.length + post.length = 0) : pre = [] ∧ post = [] :=
  ⟨List.length_eq_zero_iff.mp (by omega), List.length_eq_zero_iff.mp (by omega)⟩

theorem prune_none (h : pre.length + post.length = 0) :
    prune z b (.step a pre k post up) = prune z b up := if_pos h

theorem prune_some (h : pre.length + post.length ≠ 0) :
    prune z b (.step a pre k post up) = plug up (node b (pre ++ post)) := if_neg h

theorem whole_prune : whole (prune z b path) = path.before ++ path.after := by
  induction path with
  | top => simp [prune, whole, Path.before, Path.after]
  | step a pre k post up ih =>
    by_cases hnone : pre.length + post.length = 0
    · rw [prune_none hnone, ih]
      obtain ⟨rfl, rfl⟩ := nil_of_no_entries hnone
      simp [Path.before, Path.after]
    · rw [prune_some hnone, whole_plug, inner_node]
      simp [Path.before, Path.after]

/-- The new node is in the pruned tree unless nothing is left. -/
theorem addrs_prune : addrs (prune z b path).2 + (path.dropped : Multiset A) =
    path.addrs + if (prune z b path).1 = 0 then 0 else {b} := by
  induction path with
  | top => simp [prune, Path.dropped, Path.addrs, addrs, data]
  | step a pre k post up ih =>
    rw [Path.dropped, Path.addrs]
    by_cases hnone : pre.length + post.length = 0
    · rw [prune_none hnone, if_pos hnone, ← Multiset.cons_coe, ← Multiset.singleton_add,
        add_left_comm, ih]
      obtain ⟨rfl, rfl⟩ := nil_of_no_entries hnone
      simp only [addrsOf_nil]
      abel
    · have hlevel : (plug up (node b (pre ++ post))).1 ≠ 0 := by
        rw [height_plug]
        omega
      rw [prune_some hnone, if_neg hnone, if_neg hlevel, addrs_plug, addrs_node, addrsOf_append,
        Multiset.coe_singleton]
      abel

end Prune

/-- The keys of all nodes are in `P`. -/
def AllKeys (P : κ → Prop) : {n : ℕ} → Node κ A n → Prop
  | 0, _ => True
  | _ + 1, (_, es) => ∀ e ∈ es, P e.1 ∧ AllKeys P e.2

/-- The keys of all nodes around the hole are in `P`. -/
def Path.allKeys (P : κ → Prop) : {n : ℕ} → Path κ A n → Prop
  | _, .top => True
  | _, .step _ pre k post up => (∀ e ∈ pre, P e.1 ∧ AllKeys P e.2) ∧ P k ∧
      (∀ e ∈ post, P e.1 ∧ AllKeys P e.2) ∧ up.allKeys P

section Keys
variable {P : κ → Prop} {n : ℕ} {a : A} {es : List (κ × Node κ A n)} {path : Path κ A n}
  {t : Node κ A n}

theorem allKeys_node : AllKeys P (node a es) ↔ ∀ e ∈ es, P e.1 ∧ AllKeys P e.2 := Iff.rfl

theorem allKeys_plug : AllKeys P (plug path t).2 ↔ AllKeys P t ∧ path.allKeys P := by
  induction path with
  | top => simp [Path.allKeys]
  | step a pre k post up ih =>
    rw [plug_step, ih, allKeys_node, Path.allKeys, List.forall_mem_append, List.forall_mem_cons]
    tauto

theorem allKeys_prune {z b : A} (h : path.allKeys P) : AllKeys P (prune z b path).2 := by
  induction path with
  | top => trivial
  | step a pre k post up ih =>
    obtain ⟨hpre, -, hpost, hup⟩ := h
    by_cases hnone : pre.length + post.length = 0
    · rw [prune_none hnone]
      exact ih hup
    · rw [prune_some hnone]
      exact allKeys_plug.mpr ⟨List.forall_mem_append.mpr ⟨hpre, hpost⟩, hup⟩

end Keys

/-- The memory holds the nodes of the tree; `holds n a ws` says that the node at `a`, with subtrees
of height `n`, has the entries `ws`. -/
def Linked (holds : ℕ → A → List (κ × A) → Prop) : {n : ℕ} → Node κ A n → Prop
  | 0, _ => True
  | n + 1, (a, es) => holds n a (words es) ∧ ∀ e ∈ es, Linked holds e.2

/-- The memory holds the nodes of the path, with the word `p` in the hole. -/
def LinkedPath (holds : ℕ → A → List (κ × A) → Prop) : {n : ℕ} → Path κ A n → A → Prop
  | _, .top, _ => True
  | n, .step a pre k post up, p => holds n a (words pre ++ (k, p) :: words post) ∧
      (∀ e ∈ pre, Linked holds e.2) ∧ (∀ e ∈ post, Linked holds e.2) ∧ LinkedPath holds up a

section Linked
variable {holds holds' : ℕ → A → List (κ × A) → Prop} {n : ℕ} {a p : A} {k : κ}
  {es pre post : List (κ × Node κ A n)} {up : Path κ A (n + 1)} {path : Path κ A n} {t : Node κ A n}

theorem linked_node :
    Linked holds (node a es) ↔ holds n a (words es) ∧ ∀ e ∈ es, Linked holds e.2 := Iff.rfl

theorem linked_plug : Linked holds (plug path t).2 ↔
    Linked holds t ∧ LinkedPath holds path (ptr t) := by
  induction path with
  | top => simp [LinkedPath]
  | step a pre k post up ih =>
    rw [plug_step, ih, linked_node, LinkedPath, ptr_node]
    simp only [words_append, words_cons, List.forall_mem_append, List.forall_mem_cons]
    tauto

/-- Stores to other nodes do not matter. -/
theorem Linked.congr (h : Linked holds t)
    (hm : ∀ a ∈ addrs t, ∀ n ws, holds n a ws → holds' n a ws) : Linked holds' t := by
  induction n with
  | zero => trivial
  | succ n ih =>
    obtain ⟨a, es, rfl⟩ := exists_node t
    obtain ⟨ha, hes⟩ := h
    refine ⟨hm a (by simp [addrs_node]) _ _ ha, fun e he => ih (hes e he) fun b hb => hm b ?_⟩
    rw [addrs_node]
    exact Multiset.mem_add.mpr (Or.inr (Multiset.mem_of_le (addrs_le_addrsOf he) hb))

/-- Every address of a tree is that of a node in the memory. -/
theorem Linked.exists_node (h : Linked holds t) (ha : a ∈ addrs t) :
    ∃ m, ∃ es : List (κ × Node κ A m), holds m a (words es) ∧ m < n ∧
      ∀ e ∈ es, ∀ b ∈ addrs e.2, b ∈ addrs t := by
  induction n with
  | zero => simp [addrs] at ha
  | succ n ih =>
    obtain ⟨b, fs, rfl⟩ := MultiTree.exists_node t
    obtain ⟨hb, hfs⟩ := h
    have hsub : ∀ f ∈ fs, ∀ b' ∈ addrs f.2, b' ∈ addrs (node b fs) := fun f hf b' hb' => by
      rw [addrs_node]
      exact Multiset.mem_add.mpr (Or.inr (Multiset.mem_of_le (addrs_le_addrsOf hf) hb'))
    rw [addrs_node, Multiset.mem_add, Multiset.mem_singleton] at ha
    rcases ha with rfl | ha
    · exact ⟨n, fs, hb, by omega, hsub⟩
    · obtain ⟨f, hf, haf⟩ := mem_addrsOf.mp ha
      obtain ⟨m, es, hes, hmn, hin⟩ := ih (hfs f hf) haf
      exact ⟨m, es, hes, by omega, fun e he b' hb' => hsub f hf b' (hin e he b' hb')⟩

theorem linked_entries_congr (h : ∀ e ∈ es, Linked holds e.2)
    (hm : ∀ a ∈ addrsOf es, ∀ n ws, holds n a ws → holds' n a ws) :
    ∀ e ∈ es, Linked holds' e.2 := fun e he =>
  (h e he).congr fun a ha => hm a (Multiset.mem_of_le (addrs_le_addrsOf he) ha)

theorem LinkedPath.congr (h : LinkedPath holds path p)
    (hm : ∀ a ∈ path.addrs, ∀ n ws, holds n a ws → holds' n a ws) : LinkedPath holds' path p := by
  induction path generalizing p with
  | top => trivial
  | step a pre k post up ih =>
    obtain ⟨ha, hpre, hpost, hup⟩ := h
    simp only [Path.addrs, Multiset.mem_add, Multiset.mem_singleton] at hm
    refine ⟨hm a (by simp) _ _ ha, linked_entries_congr hpre fun b hb => hm b (by simp [hb]),
      linked_entries_congr hpost fun b hb => hm b (by simp [hb]),
      ih hup fun b hb => hm b (by simp [hb])⟩

/-- Only the word in the hole changes. -/
theorem LinkedPath.redirect {q : A} (h : LinkedPath holds (.step a pre k post up) p)
    (hd : (Path.step a pre k post up).addrs.Nodup)
    (ha : holds n a (words pre ++ (k, p) :: words post) →
      holds' n a (words pre ++ (k, q) :: words post))
    (hm : ∀ b ∈ (Path.step a pre k post up).addrs, b ≠ a → ∀ n ws, holds n b ws → holds' n b ws) :
    LinkedPath holds' (.step a pre k post up) q := by
  obtain ⟨hold, hpre, hpost, hup⟩ := h
  simp only [Path.addrs, Multiset.nodup_add, Multiset.disjoint_add_left,
    Multiset.singleton_disjoint] at hd
  obtain ⟨⟨⟨-, -, hapre⟩, -, hapost, -⟩, -, ⟨haup, -⟩, -⟩ := hd
  simp only [Path.addrs, Multiset.mem_add, Multiset.mem_singleton] at hm
  refine ⟨ha hold, linked_entries_congr hpre fun b hb => ?_,
    linked_entries_congr hpost fun b hb => ?_,
    hup.congr fun b hb => ?_⟩
  · exact hm b (by simp [hb]) fun he => hapre (he ▸ hb)
  · exact hm b (by simp [hb]) fun he => hapost (he ▸ hb)
  · exact hm b (by simp [hb]) fun he => haup (he ▸ hb)

end Linked
end MultiTree
