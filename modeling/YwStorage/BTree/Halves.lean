import YwStorage.BTree.Links
import YwStorage.Lib.Supply

/-!
The first part of `split_insert`: the halves of a node are copied to two new pages, and the record
goes to one of them.
-/
namespace YwStorage.BTree
open MultiTree Programs Supply

variable {α : Type} [LinearOrder α] {c : Config} {S : ℕ → Prop} {supply : Finset ℕ → Option ℕ}
  {s : Call α} {mem : ℕ → Page α} {n a b fuel : ℕ} {k : α} {E : Call α → Prop}

section Primitives
variable {Q : Unit → Call α → Prop}

theorem wp_alloc {Q : Option ℕ → Call α → Prop} (hfresh : FreshSupply supply)
    (hallocs : ∀ b ∈ s.allocStack, b ∈ s.tree.live) (hfrees : ∀ b ∈ s.freeStack, b ∈ s.tree.live)
    (hroom : s.allocStack.length < guardSize) (hnone : supply s.tree.live = none → Q none s)
    (hsome : ∀ b, supply s.tree.live = some b → Q (some b) (s.take b)) :
    Wp (Call.alloc supply) s Q E := by
  unfold Call.alloc
  simp only [wp_bind, wp_fetch]
  cases hs : supply s.tree.live with
  | none => exact hnone hs
  | some b =>
    have hb := hfresh _ _ hs
    simp only [wp_bind, wp_assert, hroom, if_true, wp_put, wp_pure]
    exact ⟨⟨fun h => hb (hallocs b h), fun h => hb (hfrees b h)⟩, hsome b hs⟩

theorem alloc_of_none (h : supply s.tree.live = none) :
    Call.alloc supply s = some (some none, s) := by
  refine Wp.run ?_
  unfold Call.alloc
  rw [wp_bind, wp_fetch, h]
  exact ⟨rfl, rfl⟩

theorem alloc_of_some (hfresh : FreshSupply supply)
    (hallocs : ∀ b ∈ s.allocStack, b ∈ s.tree.live) (hfrees : ∀ b ∈ s.freeStack, b ∈ s.tree.live)
    (hroom : s.allocStack.length < guardSize) (h : supply s.tree.live = some b) :
    Call.alloc supply s = some (some (some b), s.take b) := by
  refine (wp_alloc hfresh hallocs hfrees hroom (fun hnone => ?_) fun d hd => ?_).run
  · rw [hnone] at h
    cases h
  · rw [hd] at h
    cases h
    exact ⟨rfl, rfl⟩

theorem wp_free (hrcu : a ∉ s.tree.rcu) (halloc : a ∉ s.allocStack) (hfree : a ∉ s.freeStack)
    (hroom : s.freeStack.length < guardSize)
    (hQ : Q () { s with freeStack := a :: s.freeStack }) : Wp (Call.free a) s Q E := by
  simp only [Call.free, wp_bind, wp_fetch, wp_assert, wp_put]
  exact ⟨hrcu, ⟨halloc, hfree, hroom⟩, hQ⟩

theorem wp_lock_free (hroom : s.lockStack.length < maxDepth) (hlock : a ∉ s.tree.locked)
    (hQ : Q () (s.pushLock a)) : Wp (Call.lock a) s Q E := by
  rw [wp_lock, if_pos hroom]
  exact ⟨hlock, hQ⟩

theorem wp_lock_full (hroom : ¬ s.lockStack.length < maxDepth) (hE : E s) :
    Wp (Call.lock a) s Q E := by
  rw [wp_lock, if_neg hroom]
  exact hE

@[simp] theorem wp_initNode {isLeaf : Bool} :
    Wp (Call.initNode a isLeaf) s Q E ↔ Q () (s.blank a isLeaf) := Iff.rfl

theorem wp_insertLocked {us vs : List (α × ℕ)} {r : α × ℕ} (hlock : a ∈ s.tree.locked)
    (hp : (s.tree.mem a).entries = us ++ vs) (hu : ∀ e ∈ us, e.1 ≤ r.1) (hv : ∀ e ∈ vs, r.1 < e.1)
    (hfits : (s.tree.mem a).Fits c)
    (hQ : Q () (s.setPage a { s.tree.mem a with
      body := ⟨us ++ r :: vs, (s.tree.mem a).body.used + c.recordSize⟩ })) :
    Wp (Call.insertLocked c a r) s Q E := by
  simp only [Call.insertLocked, wp_bind, wp_fetch, wp_assert, insert_of_cut hp hu hv, hfits,
    if_true, wp_put]
  exact ⟨hlock, hQ⟩

theorem wp_getLeftMostKey {Q : α × ℕ → Call α → Prop} {r : α × ℕ}
    (h : Call.leftMostLoop s.tree.mem fuel a = some r) (hQ : Q r s) :
    Wp (Call.getLeftMostKey fuel a) s Q E := by
  simp only [Call.getLeftMostKey, wp_bind, wp_fetch, h, wp_pure]
  exact hQ

theorem getLeftMostKey_none (h : Call.leftMostLoop s.tree.mem fuel a = none) :
    Call.getLeftMostKey fuel a s = none := by
  unfold Call.getLeftMostKey
  rw [run_bind (rfl : Prog.fetch s = some (some s, s)), h]

end Primitives

/-- A page without the space of removed records. -/
def filled (c : Config) (isLeaf : Bool) (stamp : ℕ) (ws : List (α × ℕ)) : Page α :=
  ⟨isLeaf, stamp, ⟨ws, ws.length * c.recordSize⟩, none⟩

theorem filled_nil (isLeaf : Bool) (stamp : ℕ) :
    filled c isLeaf stamp [] = (Tree.blankPage stamp isLeaf : Page α) := by
  simp [filled, Tree.blankPage, OrderedNode.AbsPage.empty]

theorem fits_filled {isLeaf : Bool} {stamp : ℕ} {ws : List (α × ℕ)}
    (h : (ws.length + 1) * (c.recordSize + c.page.slotSize) ≤ c.page.bodySize) :
    (filled c isLeaf stamp ws).Fits c := by
  have hsum : ws.length * c.page.slotSize + ws.length * c.recordSize +
      (c.recordSize + c.page.slotSize) = (ws.length + 1) * (c.recordSize + c.page.slotSize) := by
    ring
  show ws.length * c.page.slotSize + ws.length * c.recordSize + _ ≤ _
  omega

theorem fits_of_filled {isLeaf : Bool} {stamp : ℕ} {p : Page α} {us vs : List (α × ℕ)} {r : α × ℕ}
    (hpage : p = filled c isLeaf stamp (us ++ vs))
    (hfit : (us ++ r :: vs).length * (c.recordSize + c.page.slotSize) ≤ c.page.bodySize) :
    p.Fits c := by
  have hlen : (us ++ r :: vs).length = (us ++ vs).length + 1 := by
    simp only [List.length_append, List.length_cons]
    omega
  rw [hpage]
  exact fits_filled (hlen ▸ hfit)

/-- A page without such space stays so when a record comes. -/
theorem grow_filled {isLeaf : Bool} {stamp : ℕ} {p : Page α} {us vs : List (α × ℕ)} {r : α × ℕ}
    (hpage : p = filled c isLeaf stamp (us ++ vs)) :
    ({ p with body := ⟨us ++ r :: vs, p.body.used + c.recordSize⟩ } : Page α) =
      filled c isLeaf stamp (us ++ r :: vs) := by
  have hlen : (us ++ r :: vs).length = (us ++ vs).length + 1 := by
    simp only [List.length_append, List.length_cons]
    omega
  rw [hpage, filled, filled, hlen, Nat.add_mul, Nat.one_mul]

theorem setPage_self {p : Page α} (h : s.tree.mem a = p) : s.setPage a p = s := by
  have hmem : Function.update s.tree.mem a p = s.tree.mem := by
    rw [← h, Function.update_eq_self]
  simp only [Call.setPage, Tree.setPage, hmem]

theorem setPage_setPage (p q : Page α) : (s.setPage a p).setPage a q = s.setPage a q := by
  simp [Call.setPage, Tree.setPage]

theorem mem_setPage_self (p : Page α) : (s.setPage a p).tree.mem a = p := Function.update_self ..

theorem mem_setPage_ne (p : Page α) (h : b ≠ a) : (s.setPage a p).tree.mem b = s.tree.mem b :=
  Function.update_of_ne h ..

/-- `copy_node` appends the records. -/
theorem wp_copyLoop {isLeaf : Bool} {stamp : ℕ} {ws rs : List (α × ℕ)} {Q : Unit → Call α → Prop}
    (hpage : s.tree.mem a = filled c isLeaf stamp ws) (hlock : a ∈ s.tree.locked)
    (hfit : (ws.length + rs.length) * (c.recordSize + c.page.slotSize) ≤ c.page.bodySize) :
    Wp (Call.copyLoop c a rs) s Q E ↔ Q () (s.setPage a (filled c isLeaf stamp (ws ++ rs))) := by
  induction rs generalizing s ws with
  | nil => simp only [Call.copyLoop, wp_pure, List.append_nil, setPage_self hpage]
  | cons r rs ih =>
    have hroom : (ws.length + 1) * (c.recordSize + c.page.slotSize) ≤ c.page.bodySize := by
      refine le_trans (Nat.mul_le_mul_right _ ?_) hfit
      simp
    have happend : (s.tree.mem a).append c r = (true, filled c isLeaf stamp (ws ++ [r])) := by
      rw [hpage, append_of_fits (fits_filled hroom)]
      simp [filled, Nat.add_mul]
    have hnext : Wp (Call.copyLoop c a rs) (s.setPage a (filled c isLeaf stamp (ws ++ [r])))
        Q E ↔ _ :=
      ih (mem_setPage_self _) hlock (by simpa [Nat.add_assoc, Nat.add_comm 1] using hfit)
    simp only [Call.copyLoop, wp_bind, wp_fetch, wp_assert, hlock, true_and, happend, wp_put]
    rw [hnext, setPage_setPage, List.append_assoc, List.singleton_append]

/-- `get_left_most_key` -/
theorem leftMostLoop_linked {x : Node α ℕ (n + 1)} (hl : Linked (Holds c S mem) x)
    (hread : Readable (mark mem) x) (hk : leftKey (mark mem) x = some k) (hfuel : n < fuel) :
    ∃ v, Call.leftMostLoop mem fuel (ptr x) = some (k, v) := by
  induction n generalizing fuel with
  | zero =>
    obtain ⟨a, es, rfl⟩ := exists_node x
    obtain ⟨fuel, rfl⟩ := Nat.exists_eq_add_of_lt hfuel
    have hpage : Holds c S mem 0 a (words es) := hl.1
    cases es with
    | nil =>
      have hmark : (mem a).old.map Prod.fst = some k := by
        have hnil : (mem a).entries = [] := hpage.entries
        have hold : mark mem a = some k := hk
        rwa [mark, if_pos hnil] at hold
      obtain ⟨r, hr, rfl⟩ := Option.map_eq_some_iff.mp hmark
      exact ⟨r.2, by simp [Call.leftMostLoop, hpage.isLeaf, Page.get, hpage.entries, hr]⟩
    | cons e es =>
      cases hk
      exact ⟨ptr e.2, by simp [Call.leftMostLoop, hpage.isLeaf, Page.get, hpage.entries]⟩
  | succ n ih =>
    obtain ⟨a, es, rfl⟩ := exists_node x
    obtain ⟨fuel, rfl⟩ := Nat.exists_eq_add_of_lt hfuel
    obtain ⟨hpage, hes⟩ := hl
    obtain ⟨hne, hread⟩ := hread
    cases es with
    | nil => exact absurd rfl hne
    | cons e es =>
      obtain ⟨v, hv⟩ : ∃ v, Call.leftMostLoop mem (n + 1 + fuel) (ptr e.2) = some (k, v) :=
        ih (hes e (by simp)) (hread e (by simp)) hk (by omega)
      refine ⟨v, ?_⟩
      have hget : (mem a).get 0 = some (e.1, ptr e.2) := by simp [Page.get, hpage.entries]
      rw [ptr_node, Call.leftMostLoop, hpage.isLeaf, hget]
      simpa using hv

/-- A list is cut in the middle, and the record goes to the half that its place is in. -/
def halves {β : Type} (us vs : List β) (x : β) : List β × List β :=
  if (us ++ vs).length / 2 < us.length then
    (us.take ((us ++ vs).length / 2), us.drop ((us ++ vs).length / 2) ++ x :: vs)
  else (us ++ x :: vs.take ((us ++ vs).length / 2 - us.length),
    vs.drop ((us ++ vs).length / 2 - us.length))

/-- Both halves get something. -/
def Splittable {β : Type} (us vs : List β) : Prop :=
  us ++ vs ≠ [] ∧ ((us ++ vs).length = 1 → us = [])

section Halves
variable {β γ : Type} {us vs : List β} {x : β}

theorem halves_append : (halves us vs x).1 ++ (halves us vs x).2 = us ++ x :: vs := by
  unfold halves
  split_ifs
  · rw [← List.append_assoc, List.take_append_drop]
  · simp

theorem halves_ne_nil (h : Splittable us vs) :
    (halves us vs x).1 ≠ [] ∧ (halves us vs x).2 ≠ [] := by
  obtain ⟨hne, hone⟩ := h
  have hpos : 0 < (us ++ vs).length := List.length_pos_iff.mpr hne
  unfold halves
  split_ifs with hm
  · have hlen : (us ++ vs).length ≠ 1 := by
      intro h1
      rw [hone h1] at hm
      simp at hm
    refine ⟨?_, by simp⟩
    rw [← List.length_pos_iff, List.length_take]
    omega
  · refine ⟨by simp, ?_⟩
    rw [← List.length_pos_iff, List.length_drop]
    rw [List.length_append] at hpos hm ⊢
    omega

/-- The record is not the first one of the right half. -/
theorem halves_head (h : Splittable us vs) : ∃ e es fs,
    (us ++ vs).drop ((us ++ vs).length / 2) = e :: es ∧ (halves us vs x).2 = e :: fs := by
  by_cases hm : (us ++ vs).length / 2 < us.length
  · rw [halves, if_pos hm, List.drop_append_of_le_length hm.le, List.drop_eq_getElem_cons hm]
    exact ⟨_, _, _, rfl, rfl⟩
  · have hne := (halves_ne_nil (x := x) h).2
    rw [halves, if_neg hm] at hne ⊢
    obtain ⟨e, es, hes⟩ := List.exists_cons_of_ne_nil hne
    refine ⟨e, es, es, ?_, hes⟩
    rw [List.drop_append, List.drop_eq_nil_of_le (by omega), List.nil_append]
    exact hes

/-- Only a single entry below the record cannot be split. -/
theorem eq_single_of_not_splittable (hne : us ++ vs ≠ []) (h : ¬ Splittable us vs) :
    ∃ e, us = [e] ∧ vs = [] := by
  have hone : (us ++ vs).length = 1 ∧ us ≠ [] := by
    by_contra hno
    refine h ⟨hne, fun hlen => ?_⟩
    by_contra hus
    exact hno ⟨hlen, hus⟩
  obtain ⟨hlen, hus⟩ := hone
  obtain ⟨e, us, rfl⟩ := List.exists_cons_of_ne_nil hus
  rw [List.cons_append, List.length_cons, Nat.add_eq_right, List.length_eq_zero_iff,
    List.append_eq_nil_iff] at hlen
  exact ⟨e, by rw [hlen.1], hlen.2⟩

/-- Each half has room for the record before it comes. -/
theorem length_halves_le (h : Splittable us vs) :
    (halves us vs x).1.length ≤ (us ++ vs).length ∧
      (halves us vs x).2.length ≤ (us ++ vs).length := by
  have hne := halves_ne_nil (x := x) h
  have happend : (halves us vs x).1 ++ (halves us vs x).2 = us ++ x :: vs := halves_append
  have hsum := congrArg List.length happend
  rw [← List.length_pos_iff, ← List.length_pos_iff] at hne
  simp only [List.length_append, List.length_cons] at hsum ⊢
  omega

end Halves

theorem holds_filled {stamp : ℕ} {ws : List (α × ℕ)} (hstamp : n ≠ 0 → S stamp)
    (hfit : ws.length * (c.recordSize + c.page.slotSize) ≤ c.page.bodySize)
    (hpage : mem a = filled c (decide (n = 0)) stamp ws) : Holds c S mem n a ws := by
  refine ⟨by rw [hpage, filled], by rw [hpage, filled], by rw [hpage, filled], ?_,
    by rwa [hpage, filled]⟩
  rw [hpage, filled]
  calc ws.length * c.page.slotSize + ws.length * c.recordSize
      = ws.length * (c.recordSize + c.page.slotSize) := by ring
    _ ≤ c.page.bodySize := hfit

theorem Holds.fit {ws : List (α × ℕ)} (h : Holds c S mem n a ws) :
    ws.length * (c.recordSize + c.page.slotSize) ≤ c.page.bodySize := by
  have hused := h.used
  have hspace := h.space
  have hsum : ws.length * (c.recordSize + c.page.slotSize) =
      ws.length * c.page.slotSize + ws.length * c.recordSize := by ring
  omega

/-- The first key of a part of a node that is copied to another page. -/
theorem leftMostLoop_part {mem' : ℕ → Page α} {es fs : List (α × Node α ℕ n)}
    (hpage : Holds c S mem' n b (words fs)) (hfs : fs ≠ []) (hsub : ∀ e ∈ fs, e ∈ es)
    (hm : ∀ d ∈ addrsOf es, mem' d = mem d) (hl : ∀ e ∈ es, Linked (Holds c S mem) e.2)
    (hread : Readable (mark mem) (node a es)) (hk : leftKey (mark mem) (node b fs) = some k)
    (hfuel : n < fuel) : ∃ v, Call.leftMostLoop mem' fuel b = some (k, v) := by
  have hmem : ∀ e ∈ fs, ∀ d ∈ addrs e.2, mem' d = mem d := fun e he d hd =>
    hm d (Multiset.mem_of_le (addrs_le_addrsOf (hsub e he)) hd)
  have hlinked : Linked (Holds c S mem') (node b fs) := by
    refine ⟨hpage, fun e he => (hl e (hsub e he)).congr fun d hd _ _ hold => ?_⟩
    exact hold.congr (hmem e he d hd)
  have hreadable : Readable (mark mem') (node b fs) := by
    cases n with
    | zero =>
      have hne : (mem' b).entries ≠ [] := by
        rw [hpage.entries]
        simpa [words] using hfs
      exact readable_leaf.mpr (iff_of_false hfs (by simp [mark_of_ne hne]))
    | succ n =>
      refine readable_inner.mpr ⟨hfs, fun e he => ?_⟩
      exact Readable.congr (hread.2 e (hsub e he)) fun d hd => mark_congr (hmem e he d hd)
  have hkey : leftKey (mark mem') (node b fs) = some k := by
    obtain ⟨e, fs, rfl⟩ := List.exists_cons_of_ne_nil hfs
    rw [← hk]
    exact leftKey_head fun d hd => mark_congr (hmem e (by simp) d hd)
  exact leftMostLoop_linked hlinked hreadable hkey hfuel

section Filled
variable {isLeaf : Bool} {stamp : ℕ} {us vs : List (α × ℕ)} {Q : Unit → Call α → Prop}

theorem setPage_comm {d : ℕ} (h : b ≠ d) (p q : Page α) :
    (s.setPage b p).setPage d q = (s.setPage d q).setPage b p := by
  simp only [Call.setPage, Tree.setPage, Function.update_comm h]

theorem wp_copyNode {first last : ℕ} (hlock : a ∈ s.tree.locked)
    (hpage : s.tree.mem b = filled c isLeaf stamp []) (hb : b ∈ s.tree.locked)
    (hfit : (s.tree.mem a).entries.length * (c.recordSize + c.page.slotSize) ≤ c.page.bodySize)
    (hQ : Q () (s.setPage b (filled c isLeaf stamp
      (((s.tree.mem a).entries.take last).drop first)))) :
    Wp (Call.copyNode c a b first last) s Q E := by
  have hlen : (((s.tree.mem a).entries.take last).drop first).length ≤
      (s.tree.mem a).entries.length := by
    rw [List.length_drop, List.length_take]
    omega
  have hcopy : ([] : List (α × ℕ)).length + (((s.tree.mem a).entries.take last).drop first).length ≤
      (s.tree.mem a).entries.length := by
    rw [List.length_nil, Nat.zero_add]
    exact hlen
  simp only [Call.copyNode, wp_bind, wp_fetch, wp_assert]
  refine ⟨hlock, ?_⟩
  rw [wp_copyLoop hpage hb (le_trans (Nat.mul_le_mul_right _ hcopy) hfit)]
  exact hQ

theorem wp_insertFilled {r : α × ℕ} (hlock : a ∈ s.tree.locked)
    (hpage : s.tree.mem a = filled c isLeaf stamp (us ++ vs)) (hu : ∀ e ∈ us, e.1 ≤ r.1)
    (hv : ∀ e ∈ vs, r.1 < e.1)
    (hfit : (us ++ r :: vs).length * (c.recordSize + c.page.slotSize) ≤ c.page.bodySize)
    (hQ : Q () (s.setPage a (filled c isLeaf stamp (us ++ r :: vs)))) :
    Wp (Call.insertLocked c a r) s Q E := by
  have hentries : (s.tree.mem a).entries = us ++ vs := by rw [hpage, filled]
  refine wp_insertLocked hlock hentries hu hv (fits_of_filled hpage hfit) ?_
  rw [grow_filled hpage]
  exact hQ

end Filled

namespace Call

/-- Two new pages for the halves of a node. -/
def opened (s : Call α) (a l r : ℕ) : Call α :=
  ((({ (s.take l).take r with freeStack := a :: s.freeStack }.blank l
    (s.tree.mem a).isLeaf).blank r (s.tree.mem a).isLeaf).pushLock l).pushLock r

/-- The two new pages with the halves. -/
def halved (c : Config) (s : Call α) (a l r : ℕ) (ls rs : List (α × ℕ)) : Call α :=
  ((s.opened a l r).setPage l (filled c (s.tree.mem a).isLeaf s.tree.smoSeq ls)).setPage r
    (filled c (s.tree.mem a).isLeaf s.tree.smoSeq rs)

end Call

section Opened
variable {l r : ℕ}

theorem left_mem_opened : l ∈ (s.opened a l r).tree.locked := by
  show l ∈ insert r (insert l _)
  simp

theorem right_mem_opened : r ∈ (s.opened a l r).tree.locked := by
  show r ∈ insert r _
  simp

theorem mem_opened (hl : b ≠ l) (hr : b ≠ r) : (s.opened a l r).tree.mem b = s.tree.mem b := by
  show Function.update (Function.update s.tree.mem l _) r _ b = _
  rw [Function.update_of_ne hr, Function.update_of_ne hl]

theorem mem_opened_left (hlr : l ≠ r) :
    (s.opened a l r).tree.mem l = filled c (s.tree.mem a).isLeaf s.tree.smoSeq [] := by
  show Function.update (Function.update s.tree.mem l _) r _ l = _
  rw [Function.update_of_ne hlr, Function.update_self, filled_nil]
  rfl

theorem mem_opened_right :
    (s.opened a l r).tree.mem r = filled c (s.tree.mem a).isLeaf s.tree.smoSeq [] := by
  show Function.update (Function.update s.tree.mem l _) r _ r = _
  rw [Function.update_self, filled_nil]
  rfl

variable {ls rs : List (α × ℕ)}

theorem mem_halved (hl : b ≠ l) (hr : b ≠ r) :
    (s.halved c a l r ls rs).tree.mem b = s.tree.mem b := by
  rw [Call.halved, mem_setPage_ne _ hr, mem_setPage_ne _ hl, mem_opened hl hr]

theorem mem_halved_left (hlr : l ≠ r) :
    (s.halved c a l r ls rs).tree.mem l = filled c (s.tree.mem a).isLeaf s.tree.smoSeq ls := by
  rw [Call.halved, mem_setPage_ne _ hlr, mem_setPage_self]

theorem mem_halved_right :
    (s.halved c a l r ls rs).tree.mem r = filled c (s.tree.mem a).isLeaf s.tree.smoSeq rs := by
  rw [Call.halved, mem_setPage_self]

end Opened

end YwStorage.BTree
