import YwStorage.RbTree.Links

/-! The colour rules, for trees and for the paths they hang from. -/
namespace YwStorage.RbTree
open LinkedTree

variable {s : Rb} {a b : ℕ} {v w : NodeVal} {ch : Side → BinTree NodeVal} {d : Side} {m n : ℕ}
  {t x y : BinTree NodeVal} {f : Frame NodeVal} {path fs : List (Frame NodeVal)}

def Color.weight : Color → ℕ
  | .red => 0
  | .black => 1

/-- No red node has a red child, and every branch passes `n` black nodes. -/
def Colored : BinTree NodeVal → ℕ → Prop
  | .nil, n => n = 0
  | .node _ v ch, n => (v.color = .red → ∀ d, BinTree.color (ch d) = .black) ∧
      ∃ m, n = m + v.color.weight ∧ ∀ d, Colored (ch d) m

/-- The whole tree: coloured, with a black root. -/
def RootOk (t : BinTree NodeVal) : Prop := BinTree.color t = .black ∧ ∃ n, Colored t n

/-- The colour above the hole. Nothing red may hang from the empty path. -/
def parentColor : List (Frame NodeVal) → Color
  | [] => .red
  | f :: _ => f.v.color

/-- The path takes a coloured tree of black height `n`. -/
def HoleOk : List (Frame NodeVal) → ℕ → Prop
  | [], _ => True
  | f :: fs, n => Colored f.sib n ∧
      (f.v.color = .red → BinTree.color f.sib = .black ∧ parentColor fs = .black) ∧
      HoleOk fs (n + f.v.color.weight)

theorem Color.eq_black {c : Color} (h : c ≠ .red) : c = .black := by cases c <;> simp_all

@[simp] theorem colored_nil : Colored .nil n ↔ n = 0 := Iff.rfl

theorem colored_node (d : Side) : Colored (.node a v (pair d x y)) n ↔
    (v.color = .red → BinTree.color x = .black ∧ BinTree.color y = .black) ∧
      ∃ m, n = m + v.color.weight ∧ Colored x m ∧ Colored y m := by
  rw [Colored, forall_pair fun t => BinTree.color t = .black]
  exact and_congr_right fun _ => exists_congr fun m => and_congr_right fun _ =>
    forall_pair fun t => Colored t m

theorem colored_red (d : Side) (hv : v.color = .red) : Colored (.node a v (pair d x y)) n ↔
    (BinTree.color x = .black ∧ BinTree.color y = .black) ∧ Colored x n ∧ Colored y n := by
  rw [colored_node]
  simp [hv, Color.weight]

theorem colored_black (d : Side) (hv : v.color = .black) :
    Colored (.node a v (pair d x y)) (n + 1) ↔ Colored x n ∧ Colored y n := by
  rw [colored_node]
  simp [hv, Color.weight]

theorem Colored.blacken (h : Colored (.node a v ch) n) (hv : v.color = .red) :
    Colored (.node a (v.paint .black) ch) (n + 1) := by
  obtain ⟨-, m, rfl, hch⟩ := h
  exact ⟨by simp, m, by simp [hv, Color.weight], hch⟩

/-- Colour rules of a plugged tree, split at the hole. -/
theorem rootOk_fill : RootOk (fill path t) ↔
    ∃ n, Colored t n ∧ (BinTree.color t = .red → parentColor path = .black) ∧ HoleOk path n := by
  induction path generalizing t with
  | nil =>
    simp only [fill_nil, RootOk, parentColor, HoleOk]
    cases BinTree.color t <;> simp
  | cons f fs ih =>
    rw [fill_cons, ih]
    simp only [Frame.attach, colored_node, BinTree.color_node, parentColor, HoleOk]
    constructor
    · rintro ⟨_, ⟨hc, m, rfl, ht, hs⟩, hp, hh⟩
      refine ⟨m, ht, fun hr => ?_, hs, fun hr => ⟨(hc hr).2, hp hr⟩, hh⟩
      exact Color.eq_black fun he => by simp [(hc he).1] at hr
    · rintro ⟨m, ht, hc, hs, hr, hh⟩
      refine ⟨_, ⟨fun he => ⟨?_, (hr he).1⟩, m, rfl, ht, hs⟩, fun he => (hr he).2, hh⟩
      exact Color.eq_black fun hx => by simp [hc hx] at he

/-- Key and data of a node: what the colours and links must not change. -/
def entry (v : NodeVal) : ℤ × Ptr := (v.key, v.data)

def entries (t : BinTree NodeVal) : List (ℤ × Ptr) := t.inorder.map entry

def entriesBefore (path : List (Frame NodeVal)) : List (ℤ × Ptr) := (before path).map entry

def entriesAfter (path : List (Frame NodeVal)) : List (ℤ × Ptr) := (after path).map entry

@[simp] theorem entry_paint (c : Color) : entry (v.paint c) = entry v := rfl

@[simp] theorem entry_topVal : entry (Shape.topVal path v) = entry v := by
  unfold Shape.topVal
  split <;> rfl

@[simp] theorem entries_nil : entries .nil = [] := rfl

theorem entries_fill :
    entries (fill path t) = entriesBefore path ++ entries t ++ entriesAfter path := by
  simp [entries, entriesBefore, entriesAfter, inorder_fill]

theorem entriesBefore_left (hd : f.side = .left) : entriesBefore (f :: fs) = entriesBefore fs := by
  simp [entriesBefore, before, hd]

theorem entriesBefore_right (hd : f.side = .right) :
    entriesBefore (f :: fs) = entriesBefore fs ++ entries f.sib ++ [entry f.v] := by
  simp [entriesBefore, before, hd, entries]

theorem entriesAfter_left (hd : f.side = .left) :
    entriesAfter (f :: fs) = entry f.v :: entries f.sib ++ entriesAfter fs := by
  simp [entriesAfter, after, hd, entries]

theorem entriesAfter_right (hd : f.side = .right) : entriesAfter (f :: fs) = entriesAfter fs := by
  simp [entriesAfter, after, hd]

theorem entries_node : entries (.node a v ch) =
    entries (ch .left) ++ entry v :: entries (ch .right) := by
  simp [entries, BinTree.inorder]

/-- Entries of a node written from side `d`. -/
theorem entries_pair : entries (.node a v (pair d x y)) = match d with
    | .left => entries x ++ entry v :: entries y
    | .right => entries y ++ entry v :: entries x := by
  cases d <;> simp [entries_node, pair]

theorem entries_node_congr {x' y' : BinTree NodeVal} {v' : NodeVal} (hx : entries x = entries x')
    (hy : entries y = entries y') (hv : entry v = entry v') :
    entries (.node a v (pair d x y)) = entries (.node b v' (pair d x' y')) := by
  cases d <;> simp [entries_pair, hx, hy, hv]

@[simp] theorem entries_paint (c : Color) :
    entries (.node a (v.paint c) ch) = entries (.node a v ch) := by
  simp [entries_node]

/-- Rotating keeps the symmetric order. -/
theorem entries_rotate {x y z : BinTree NodeVal} {v' w' : NodeVal} (hv : entry v' = entry v)
    (hw : entry w' = entry w) :
    entries (.node b w' (pair d (.node a v' (pair d x y)) z)) =
      entries (.node a v (pair d x (.node b w (pair d y z)))) := by
  cases d <;> simp [entries_pair, hv, hw]

theorem entries_congr (h : entries x = entries y) :
    entries (fill path x) = entries (fill path y) := by
  rw [entries_fill, entries_fill, h]

theorem entries_topTree : entries (Shape.topTree path t) = entries t := by
  cases t with
  | nil => rfl
  | node a v ch => simp [Shape.topTree, entries_node]

end YwStorage.RbTree
