import Mathlib

/-!
Binary trees stored in memory with child and parent links.

Address `0` stands for the shared sentinel that ends every branch. A tree value carries the
addresses of its nodes, so `Linked m p t` says which cells of the memory `m` hold `t` below the
parent `p`. Paths are lists of frames, innermost first.
-/
namespace LinkedTree

inductive Side
  | left
  | right
  deriving DecidableEq, Repr

def Side.other : Side → Side
  | .left => .right
  | .right => .left

@[simp] theorem Side.other_other (d : Side) : d.other.other = d := by cases d <;> rfl

@[simp] theorem Side.other_ne (d : Side) : d.other ≠ d := by cases d <;> decide

@[simp] theorem Side.ne_other (d : Side) : d ≠ d.other := by cases d <;> decide

theorem Side.eq_or_eq_other (d e : Side) : e = d ∨ e = d.other := by
  cases d <;> cases e <;> simp [Side.other]

structure Cell (β : Type*) where
  parent : ℕ
  child : Side → ℕ
  val : β

abbrev Mem (β : Type*) := ℕ → Cell β

variable {β : Type*}

/-- A tree whose nodes know their addresses. -/
inductive BinTree (β : Type*)
  | nil : BinTree β
  | node (a : ℕ) (v : β) (ch : Side → BinTree β) : BinTree β

/-- The two children, the first of them on side `d`. -/
def pair {γ : Type*} (d : Side) (x y : γ) : Side → γ := fun e => if e = d then x else y

@[simp] theorem pair_self {γ : Type*} (d : Side) (x y : γ) : pair d x y d = x := by simp [pair]

@[simp] theorem pair_other {γ : Type*} (d : Side) (x y : γ) : pair d x y d.other = y := by
  simp [pair]

theorem pair_flip {γ : Type*} (d : Side) (x y : γ) : pair d.other x y = pair d y x := by
  funext e
  rcases Side.eq_or_eq_other d e with rfl | rfl <;> simp [pair]

/-- Every child function is a pair, seen from either side. -/
theorem pair_eta {γ : Type*} (d : Side) (f : Side → γ) : pair d (f d) (f d.other) = f := by
  funext e
  rcases Side.eq_or_eq_other d e with rfl | rfl <;> simp

theorem forall_pair {γ : Type*} {d : Side} {x y : γ} (P : γ → Prop) :
    (∀ e, P (pair d x y e)) ↔ P x ∧ P y := by
  constructor
  · intro h
    exact ⟨by simpa using h d, by simpa using h d.other⟩
  · rintro ⟨hx, hy⟩ e
    rcases Side.eq_or_eq_other d e with rfl | rfl <;> simpa

@[simp] theorem update_pair_self {γ : Type*} (d : Side) (x y z : γ) :
    Function.update (pair d x y) d z = pair d z y := by
  funext e
  rcases Side.eq_or_eq_other d e with rfl | rfl <;> simp

@[simp] theorem update_pair_other {γ : Type*} (d : Side) (x y z : γ) :
    Function.update (pair d x y) d.other z = pair d x z := by
  funext e
  rcases Side.eq_or_eq_other d e with rfl | rfl <;> simp

theorem apply_pair {γ δ : Type*} (g : γ → δ) (d : Side) (x y : γ) :
    (fun e => g (pair d x y e)) = pair d (g x) (g y) := by
  funext e
  rcases Side.eq_or_eq_other d e with rfl | rfl <;> simp

namespace BinTree

def addr : BinTree β → ℕ
  | nil => 0
  | node a _ _ => a

def addrs : BinTree β → Multiset ℕ
  | nil => 0
  | node a _ ch => {a} + (addrs (ch .left) + addrs (ch .right))

/-- The values in symmetric order. -/
def inorder : BinTree β → List β
  | nil => []
  | node _ v ch => inorder (ch .left) ++ v :: inorder (ch .right)

@[simp] theorem addr_nil : (nil : BinTree β).addr = 0 := rfl
@[simp] theorem addr_node (a : ℕ) (v : β) (ch : Side → BinTree β) : (node a v ch).addr = a := rfl
@[simp] theorem addrs_nil : (nil : BinTree β).addrs = 0 := rfl
@[simp] theorem inorder_nil : (nil : BinTree β).inorder = [] := rfl

theorem addrs_node (a : ℕ) (v : β) (ch : Side → BinTree β) (d : Side) :
    (node a v ch).addrs = {a} + ((ch d).addrs + (ch d.other).addrs) := by
  cases d <;> simp only [addrs, Side.other]
  abel

theorem addrs_pair (a : ℕ) (v : β) (d : Side) (x y : BinTree β) :
    (node a v (pair d x y)).addrs = {a} + (x.addrs + y.addrs) := by
  rw [addrs_node _ _ _ d, pair_self, pair_other]

end BinTree

/-- The cells of `m` at the addresses of `t` hold `t`, linked below the parent `p`. -/
def Linked (m : Mem β) : ℕ → BinTree β → Prop
  | _, .nil => True
  | p, .node a v ch => a ≠ 0 ∧ m a = ⟨p, fun d => (ch d).addr, v⟩ ∧ ∀ d, Linked m a (ch d)

section Linked
variable {m m' : Mem β} {p q a : ℕ} {v : β} {ch : Side → BinTree β} {t : BinTree β}

@[simp] theorem linked_nil : Linked m p (.nil : BinTree β) := trivial

theorem linked_node : Linked m p (.node a v ch) ↔
    a ≠ 0 ∧ m a = ⟨p, fun d => (ch d).addr, v⟩ ∧ ∀ d, Linked m a (ch d) := Iff.rfl

theorem Linked.zero_notMem (h : Linked m p t) : 0 ∉ t.addrs := by
  induction t generalizing p with
  | nil => simp
  | node a v ch ih =>
    obtain ⟨ha, _, hch⟩ := h
    simp only [BinTree.addrs, Multiset.mem_add, Multiset.mem_singleton, not_or]
    exact ⟨ha.symm, ih _ (hch _), ih _ (hch _)⟩

/-- Only the cells of the tree matter. -/
theorem Linked.congr (h : Linked m p t) (hm : ∀ a ∈ t.addrs, m' a = m a) : Linked m' p t := by
  induction t generalizing p with
  | nil => trivial
  | node a v ch ih =>
    obtain ⟨ha, hma, hch⟩ := h
    refine ⟨ha, (hm a (by simp [BinTree.addrs])).trans hma, fun d => ih d (hch d) ?_⟩
    intro b hb
    apply hm
    rw [BinTree.addrs_node a v ch d]
    simp [hb]

theorem Linked.addr_mem (ht : t.addr ≠ 0) : t.addr ∈ t.addrs := by
  cases t with
  | nil => simp at ht
  | node a v ch => simp [BinTree.addrs]

theorem Linked.addr_eq_zero (h : Linked m p t) : t.addr = 0 ↔ t = .nil := by
  cases t with
  | nil => simp
  | node a v ch => simp [h.1]

/-- Parent links undo child links. -/
theorem Linked.parent_child (h : Linked m p t) {b : ℕ} (hb : b ∈ t.addrs) (d : Side)
    (hc : (m b).child d ≠ 0) : (m ((m b).child d)).parent = b := by
  induction t generalizing p with
  | nil => simp at hb
  | node a v ch ih =>
    obtain ⟨-, hm, hch⟩ := h
    rw [BinTree.addrs_node a v ch .left] at hb
    simp only [Multiset.mem_add, Multiset.mem_singleton] at hb
    rcases hb with rfl | hb | hb
    · have hd := hch d
      simp only [hm] at hc ⊢
      cases he : ch d with
      | nil => simp [he] at hc
      | node c w cch =>
        rw [he] at hd
        rw [BinTree.addr_node, hd.2.1]
    · exact ih .left (hch .left) hb
    · exact ih .right (hch .right) hb

/-- Moving a tree below another parent changes the parent link of its root only. -/
theorem Linked.reparent (h : Linked m p t) (ht : t.addrs.Nodup)
    (hroot : t ≠ .nil → m' t.addr = { m t.addr with parent := q })
    (hm : ∀ a ∈ t.addrs, a ≠ t.addr → m' a = m a) : Linked m' q t := by
  cases t with
  | nil => trivial
  | node a v ch =>
    obtain ⟨ha, hma, hch⟩ := h
    have hr := hroot (by simp)
    rw [BinTree.addr_node] at hr
    refine ⟨ha, by rw [hr, hma], fun d => ?_⟩
    apply (hch d).congr
    rw [BinTree.addrs_node a v ch d, Multiset.nodup_add, Multiset.singleton_disjoint] at ht
    intro b hb
    apply hm b
    · rw [BinTree.addrs_node a v ch d]
      simp [hb]
    · intro he
      exact ht.2.2 (by simp [← (show b = a from he), hb])

end Linked

/-- One step of a path: the node passed, the side taken and the subtree left aside. -/
structure Frame (β : Type*) where
  a : ℕ
  v : β
  side : Side
  sib : BinTree β

def Frame.attach (f : Frame β) (t : BinTree β) : BinTree β := .node f.a f.v (pair f.side t f.sib)

/-- Plug a tree into the hole of a path. -/
def fill : List (Frame β) → BinTree β → BinTree β
  | [], t => t
  | f :: fs, t => fill fs (f.attach t)

def holeParent : List (Frame β) → ℕ
  | [] => 0
  | f :: _ => f.a

def pathAddrs : List (Frame β) → Multiset ℕ
  | [] => 0
  | f :: fs => {f.a} + (f.sib.addrs + pathAddrs fs)

/-- Values before and after the hole in symmetric order. -/
def before : List (Frame β) → List β
  | [] => []
  | f :: fs => match f.side with
    | .left => before fs
    | .right => before fs ++ f.sib.inorder ++ [f.v]

def after : List (Frame β) → List β
  | [] => []
  | f :: fs => match f.side with
    | .left => f.v :: f.sib.inorder ++ after fs
    | .right => after fs

/-- The memory holds the path, its innermost frame pointing at `h` on its side. -/
def LinkedPath (m : Mem β) : List (Frame β) → ℕ → Prop
  | [], _ => True
  | f :: fs, h => f.a ≠ 0 ∧ m f.a = ⟨holeParent fs, pair f.side h f.sib.addr, f.v⟩ ∧
      Linked m f.a f.sib ∧ LinkedPath m fs f.a

section Path
variable {m m' : Mem β} {f : Frame β} {path fs : List (Frame β)} {t : BinTree β} {h h' : ℕ}

@[simp] theorem fill_nil : fill [] t = t := rfl
@[simp] theorem fill_cons : fill (f :: fs) t = fill fs (f.attach t) := rfl
@[simp] theorem holeParent_nil : holeParent ([] : List (Frame β)) = 0 := rfl
@[simp] theorem holeParent_cons : holeParent (f :: fs) = f.a := rfl
@[simp] theorem pathAddrs_nil : pathAddrs ([] : List (Frame β)) = 0 := rfl
@[simp] theorem before_nil : before ([] : List (Frame β)) = [] := rfl
@[simp] theorem after_nil : after ([] : List (Frame β)) = [] := rfl
@[simp] theorem Frame.addr_attach : (f.attach t).addr = f.a := rfl

theorem Frame.addrs_attach : (f.attach t).addrs = {f.a} + (t.addrs + f.sib.addrs) := by
  rw [attach, BinTree.addrs_pair]

theorem addrs_fill : (fill path t).addrs = t.addrs + pathAddrs path := by
  induction path generalizing t with
  | nil => simp
  | cons f fs ih =>
    rw [fill_cons, ih, Frame.addrs_attach, pathAddrs]
    abel

theorem inorder_fill : (fill path t).inorder = before path ++ t.inorder ++ after path := by
  induction path generalizing t with
  | nil => simp
  | cons f fs ih =>
    rw [fill_cons, ih, Frame.attach]
    cases hd : f.side <;> simp [BinTree.inorder, before, after, hd, pair]

theorem fill_node_ne_nil {a : ℕ} {v : β} {ch : Side → BinTree β} :
    fill path (.node a v ch) ≠ .nil := by
  induction path generalizing a v ch with
  | nil => simp
  | cons f fs ih => exact ih

theorem addr_fill_cons {u : BinTree β} : (fill (f :: fs) t).addr = (fill (f :: fs) u).addr := by
  induction fs generalizing f t u with
  | nil => rfl
  | cons g gs ih => exact ih

theorem addr_fill_congr {u : BinTree β} (hu : t.addr = u.addr) :
    (fill path t).addr = (fill path u).addr := by
  cases path with
  | nil => exact hu
  | cons f fs => exact addr_fill_cons

theorem linked_attach : Linked m h (f.attach t) ↔
    f.a ≠ 0 ∧ m f.a = ⟨h, pair f.side t.addr f.sib.addr, f.v⟩ ∧
      Linked m f.a t ∧ Linked m f.a f.sib := by
  rw [Frame.attach, linked_node, apply_pair]
  exact and_congr_right fun _ => and_congr_right fun _ => forall_pair fun t => Linked m f.a t

/-- A tree in a hole is linked iff the path and the tree are. -/
theorem linked_fill : Linked m 0 (fill path t) ↔
    Linked m (holeParent path) t ∧ LinkedPath m path t.addr := by
  induction path generalizing t with
  | nil => simp [LinkedPath]
  | cons f fs ih =>
    rw [fill_cons, ih, linked_attach, LinkedPath]
    simp only [holeParent_cons, Frame.addr_attach]
    tauto

theorem LinkedPath.congr (hp : LinkedPath m path h) (hm : ∀ a ∈ pathAddrs path, m' a = m a) :
    LinkedPath m' path h := by
  induction path generalizing h with
  | nil => trivial
  | cons f fs ih =>
    obtain ⟨ha, hma, hs, hfs⟩ := hp
    refine ⟨ha, (hm _ (by simp [pathAddrs])).trans hma, hs.congr ?_, ih hfs ?_⟩ <;>
    · intro b hb
      exact hm b (by simp [pathAddrs, hb])

/-- Redirecting the hole changes one child link of the innermost frame. -/
theorem LinkedPath.redirect (hp : LinkedPath m (f :: fs) h) (hd : (pathAddrs (f :: fs)).Nodup)
    (hf : m' f.a = { m f.a with child := pair f.side h' f.sib.addr })
    (hm : ∀ a ∈ pathAddrs (f :: fs), a ≠ f.a → m' a = m a) : LinkedPath m' (f :: fs) h' := by
  obtain ⟨ha, hma, hs, hfs⟩ := hp
  simp only [pathAddrs, Multiset.nodup_add, Multiset.singleton_disjoint, Multiset.mem_add,
    not_or] at hd
  refine ⟨ha, by rw [hf, hma], hs.congr ?_, hfs.congr ?_⟩
  · intro b hb
    exact hm b (by simp [pathAddrs, hb]) (fun he => hd.2.2.1 (he ▸ hb))
  · intro b hb
    exact hm b (by simp [pathAddrs, hb]) (fun he => hd.2.2.2 (he ▸ hb))

theorem LinkedPath.zero_notMem (hp : LinkedPath m path h) : 0 ∉ pathAddrs path := by
  induction path generalizing h with
  | nil => simp
  | cons f fs ih =>
    obtain ⟨ha, _, hs, hfs⟩ := hp
    simp only [pathAddrs, Multiset.mem_add, Multiset.mem_singleton, not_or]
    exact ⟨ha.symm, hs.zero_notMem, ih hfs⟩

theorem length_le_card_pathAddrs (path : List (Frame β)) :
    path.length ≤ (pathAddrs path).card := by
  induction path with
  | nil => simp
  | cons f fs ih =>
    simp only [List.length_cons, pathAddrs, Multiset.card_add, Multiset.card_singleton]
    omega

/-- A store to the value of the node in the hole. -/
theorem linked_setVal {a : ℕ} {v v' : β} {ch : Side → BinTree β}
    (hl : Linked m 0 (fill path (.node a v ch)))
    (hd : (fill path (.node a v ch)).addrs.Nodup)
    (ha : m' a = { m a with val := v' }) (hm : ∀ b, b ≠ a → m' b = m b) :
    Linked m' 0 (fill path (.node a v' ch)) := by
  obtain ⟨⟨h0, hma, hch⟩, hp⟩ := linked_fill.mp hl
  rw [addrs_fill, Multiset.nodup_add] at hd
  have hpath : a ∉ pathAddrs path :=
    Multiset.disjoint_left.mp hd.2.2 (by simp [BinTree.addrs])
  refine linked_fill.mpr ⟨⟨h0, by rw [ha, hma], fun d => (hch d).congr ?_⟩, hp.congr ?_⟩
  · rw [BinTree.addrs_node a v ch d, Multiset.nodup_add, Multiset.singleton_disjoint,
      Multiset.mem_add, not_or] at hd
    intro b hb
    exact hm b (fun he => hd.1.2.2.1 (he ▸ hb))
  · intro b hb
    exact hm b (fun he => hpath (he ▸ hb))

/-- The link updates of a rotation towards `d`: the child `b` of `a` takes its place. -/
theorem linked_rotate {a b : ℕ} {v w w' : β} {d : Side} {x y g : BinTree β}
    (hl : Linked m 0 (fill path (.node a v (pair d x (.node b w (pair d g y))))))
    (hd : (fill path (.node a v (pair d x (.node b w (pair d g y))))).addrs.Nodup)
    (hb : m' b = ⟨holeParent path, pair d a y.addr, w'⟩)
    (ha : m' a = ⟨b, pair d x.addr g.addr, v⟩)
    (hg : g ≠ .nil → m' g.addr = { m g.addr with parent := a })
    (hm : ∀ c ∈ x.addrs + g.addrs + y.addrs, c ≠ g.addr → m' c = m c)
    (hp : LinkedPath m' path b) :
    Linked m' 0 (fill path (.node b w' (pair d (.node a v (pair d x g)) y))) := by
  obtain ⟨⟨ha0, -, hch⟩, -⟩ := linked_fill.mp hl
  have hx : Linked m a x := by simpa using hch d
  obtain ⟨hb0, -, hch'⟩ : Linked m a (.node b w (pair d g y)) := by simpa using hch d.other
  have hg' : Linked m b g := by simpa using hch' d
  have hy : Linked m b y := by simpa using hch' d.other
  rw [addrs_fill, BinTree.addrs_pair, BinTree.addrs_pair] at hd
  simp only [Multiset.nodup_add, Multiset.disjoint_add_right] at hd
  obtain ⟨⟨-, ⟨-, ⟨-, ⟨hgn, -, hgy⟩, -⟩, -, hxg, -⟩, -⟩, -⟩ := hd
  have hne : ∀ {u : BinTree β} {e : ℕ}, Linked m e u → Disjoint u.addrs g.addrs →
      ∀ c ∈ u.addrs, c ≠ g.addr := by
    intro u e hu hug c hc he
    by_cases hz : g.addr = 0
    · exact hu.zero_notMem (hz ▸ he ▸ hc)
    · exact Multiset.disjoint_left.mp hug hc (he ▸ Linked.addr_mem hz)
  have hx' : Linked m' a x := hx.congr fun c hc => hm c (by simp [hc]) (hne hx hxg c hc)
  have hy' : Linked m' b y := hy.congr fun c hc => hm c (by simp [hc]) (hne hy hgy.symm c hc)
  have hga : Linked m' a g := hg'.reparent hgn hg fun c hc he => hm c (by simp [hc]) he
  refine linked_fill.mpr ⟨⟨hb0, by rw [hb, apply_pair]; rfl, fun e => ?_⟩, hp⟩
  rcases Side.eq_or_eq_other d e with rfl | rfl
  · rw [pair_self]
    refine ⟨ha0, by rw [ha, apply_pair], fun e' => ?_⟩
    rcases Side.eq_or_eq_other e e' with rfl | rfl <;> simpa
  · simpa using hy'

end Path
end LinkedTree
