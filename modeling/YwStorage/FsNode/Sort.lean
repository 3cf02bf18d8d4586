import YwStorage.FsNode.Basic

/-! `sort` on a node, and the number of keys up to which it works. -/
namespace YwStorage.FsNode
open Slots MergeRuns

namespace Node
variable {η κ α : Type*} [LinearOrder α] {key : κ → α} {n m : Node η κ}

theorem reads_contents (n : Node η κ) : Reads n.slot 0 n.contents := reads_map_range n.slot n.count

theorem length_contents (n : Node η κ) : n.contents.length = n.count := by simp [contents]

theorem contents_eq {l : List κ} (hreads : Reads n.slot 0 l) (hlen : l.length = n.count) :
    n.contents = l :=
  eq_of_reads (reads_contents n) hreads ((length_contents n).trans hlen.symm)

theorem reads_copy {count : ℕ} {src dst : ℕ → κ} {l : List κ} (hlen : l.length ≤ count)
    (h : Reads src 0 l) : Reads (copy count src dst) 0 l :=
  h.congr fun i _ hi => if_pos (by omega)

theorem sort_spec (key : κ → α) (hcount : 4 * n.count ≤ 2 ^ 32) {fuel : ℕ} (hfuel : n.count < fuel)
    (buf₀ buf₁ : ℕ → κ) : ∃ m, n.sort key fuel buf₀ buf₁ = some m ∧ m = { n with slot := m.slot } ∧
      (∀ i, n.count ≤ i → m.slot i = n.slot i) ∧ m.contents.Perm n.contents ∧ m.Sorted key := by
  have hlen := length_contents n
  obtain ⟨src, L, hloop, hreads, hperm, hsorted⟩ : ∃ src L,
      MergeSort.sortLoop (2 ^ 32) (fun x y => decide (key x < key y)) n.count fuel fuel 2
          (copy n.count n.slot buf₀) buf₁ = some src ∧ Reads src 0 L ∧
        L.Perm n.contents ∧ L.Pairwise fun x y => decide (key y < key x) = false := by
    refine MergeSort.sortLoop_spec (h := 1) ?_ ?_ _ (reads_copy hlen.le (reads_contents n)) hlen
      Nat.one_pos (runsSorted_one _) hcount le_rfl (by omega) (by omega) (by omega) buf₁
    · intro x y z hxy hyz
      simp only [decide_eq_false_iff_not, not_lt] at hxy hyz ⊢
      exact hxy.trans hyz
    · intro x y
      simp only [decide_eq_false_iff_not, not_lt]
      exact le_total _ _
  have hL : L.length = n.count := hperm.length_eq.trans hlen
  have hcontents : contents { n with slot := copy n.count src n.slot } = L :=
    contents_eq (reads_copy hL.le hreads) hL
  refine ⟨{ n with slot := copy n.count src n.slot }, ?_, rfl, fun i hi => ?_, ?_, ?_⟩
  · rw [sort, hloop]
    rfl
  · exact if_neg (by omega)
  · rw [hcontents]
    exact hperm
  · rw [Sorted, hcontents]
    exact hsorted.imp fun h => by simpa using h

theorem sort_diverges (hcount : 2 ^ 32 < 4 * n.count) (fuel : ℕ) (buf₀ buf₁ : ℕ → κ) :
    n.sort key fuel buf₀ buf₁ = none := by
  have hloop : MergeSort.sortLoop (2 ^ 32) (fun x y => decide (key x < key y)) n.count fuel fuel 2
      (copy n.count n.slot buf₀) buf₁ = none :=
    MergeSort.sortLoop_diverges rfl hcount fuel fuel (.inr ⟨1, by decide, rfl⟩) buf₁
  rw [sort, hloop]
  rfl

/-- A node is sorted, inside the first `count` places of the two buffers, if and only if it has at
most `2 ^ 30` keys. -/
theorem fsNode_sort_iff (key : κ → α) (n : Node η κ) (buf₀ buf₁ : ℕ → κ) :
    (∃ fuel m, n.sort key fuel buf₀ buf₁ = some m ∧ m = { n with slot := m.slot } ∧
      (∀ i, n.count ≤ i → m.slot i = n.slot i) ∧ m.contents.Perm n.contents ∧ m.Sorted key) ↔
    4 * n.count ≤ 2 ^ 32 := by
  constructor
  · rintro ⟨fuel, m, hsort, -⟩
    by_contra hfull
    rw [sort_diverges (not_le.mp hfull)] at hsort
    cases hsort
  · intro hcount
    obtain ⟨m, hm⟩ := sort_spec key hcount n.count.lt_succ_self buf₀ buf₁
    exact ⟨n.count + 1, m, hm⟩

/-- Keys of one byte on a page of 4 GB. -/
def byteConfig : Config := ⟨2 ^ 32, 1, Nat.one_pos, by decide, by decide⟩

/-- A node of such a page with `2 ^ 30 + 1` keys, all of them zero. -/
def longNode : Node Unit ℕ := ⟨(), 0, 2 ^ 30 + 1, 2 ^ 32 - 64, 0, fun _ => 0⟩

theorem longNode_sort_diverges :
    longNode.count ≤ byteConfig.maxSlotCount ∧
      ∀ fuel buf₀ buf₁, longNode.sort id fuel buf₀ buf₁ = none :=
  ⟨by decide, sort_diverges (by decide)⟩

end Node
end YwStorage.FsNode
