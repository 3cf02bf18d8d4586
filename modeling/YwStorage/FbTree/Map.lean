import YwStorage.FbTree.Remove
import YwStorage.Lib.Supply

/-! The fixed-size B-tree along whole runs of calls. -/
namespace YwStorage.FbTree
open MultiTree SortedMap Lts Supply

variable {alloc : Finset ℕ → ℕ} {s s' : Fb} {T : Σ N, Node ℕ ℕ N} {mem : ℕ → FbNode}
  {m : ℕ → Option ℕ} {e : Op ℕ ℕ × Reply ℕ} {es : List (Op ℕ ℕ × Reply ℕ)}

def opKey : Op ℕ ℕ → ℕ
  | .insert k _ => k
  | .remove k => k
  | .find k => k

/-- One call; `alloc` hands out the nodes. -/
def call (alloc : Finset ℕ → ℕ) (s : Fb) : Op ℕ ℕ → Option (Reply ℕ × Fb)
  | .insert k d => (fbInsert alloc s k d).map fun r => (.flag r.1, r.2)
  | .remove k => (fbRemove alloc s k).map fun r => (.flag r.1, r.2)
  | .find k => some (.value (fbFind s k), s)

/-- A call on a tree that stays within five levels. -/
def Step (s : Fb) (e : Op ℕ ℕ × Reply ℕ) (s' : Fb) : Prop :=
  ∃ alloc, Fresh alloc ∧ IsKey (opKey e.1) ∧ call alloc s e.1 = some (e.2, s') ∧ s'.level ≤ 5

/-- A search reports the data of a present key; for an absent key the source promises nothing. -/
def orAny (o : Option ℕ) (d : ℕ) : Prop := ∀ x ∈ o, d = x

/-- An insertion goes to a leaf that starts at or below its key. -/
def startsBelow (s : Fb) : Op ℕ ℕ → Bool
  | .insert k _ => leafCovers s k
  | _ => true

theorem Inv.sorted (h : Inv s T) : Sorted (whole T) := by
  obtain ⟨N, t⟩ := T
  cases N with
  | zero => exact List.Pairwise.nil
  | succ N => exact h.order.sorted

theorem inv_create : Inv (fbCreate mem) ⟨0, data fbNilNode⟩ :=
  ⟨⟨rfl, rfl, trivial, by simp [fbCreate]⟩, trivial, rfl⟩

/-- A call that meets the condition returns, keeps the invariant and answers as the map does. -/
theorem call_spec (h : Inv s T) (hm : Represents (whole T) m) (hfresh : Fresh alloc)
    (hlevel : s.level ≤ 5) (op : Op ℕ ℕ) (hk : IsKey (opKey op)) (hop : startsBelow s op = true) :
    ∃ r s' T', call alloc s op = some (r, s') ∧ Replies orAny m op r ∧ Inv s' T' ∧
      Represents (whole T') (next m op) := by
  cases op with
  | insert k d =>
    change IsKey k at hk
    obtain ⟨b, s', T', hr, hinv, hres⟩ := fbInsert_spec hfresh d h hk hop hlevel
    obtain ⟨hreply, hrep⟩ := hm.insert_reply hres
    exact ⟨_, s', T', by simp [call, hr], hreply, hinv, hrep⟩
  | remove k =>
    change IsKey k at hk
    obtain ⟨b, s', T', hr, hinv, hres⟩ := fbRemove_spec hfresh h hk (by omega)
    obtain ⟨hreply, hrep⟩ := hm.remove_reply h.sorted hres
    exact ⟨_, s', T', by simp [call, hr], hreply, hinv, hrep⟩
  | find k => exact ⟨_, s, T, rfl, ⟨_, rfl, fun d hd => fbFind_spec h hk ((hm k d).mp hd)⟩, h, hm⟩

/-- A node of the given height: growing keys, then the nil key, and nodes of the next height. -/
def ValidNode (s : Fb) : ℕ → ℕ → Prop
  | 0, _ => True
  | n + 1, a => a ∈ s.live ∧ ∃ cnt, 0 < cnt ∧ cnt ≤ fbSlotMax ∧
      (∀ i j, i < j → j < cnt → (s.mem a).key i < (s.mem a).key j) ∧
      (∀ i, i < cnt → (s.mem a).key i < fbNilKey) ∧
      (∀ i, cnt ≤ i → i < fbSlotMax → (s.mem a).key i = fbNilKey) ∧
      ∀ i, i < cnt → ValidNode s n ((s.mem a).child i)

/-- All leaves are `level` nodes below the root. -/
def Valid (s : Fb) : Prop := ValidNode s s.level s.root

theorem validNode_of_linked {n : ℕ} {t : Node ℕ ℕ n} {P : ℕ → Prop} (h : Linked (Holds s) t)
    (ho : Ordered True unmarked P t) (hP : ∀ k, P k → IsKey k) (hlive : ∀ a ∈ addrs t, a ∈ s.live) :
    ValidNode s n (ptr t) := by
  induction n generalizing P with
  | zero => trivial
  | succ n ih =>
    obtain ⟨a, es, rfl⟩ := exists_node t
    obtain ⟨⟨hf, hne⟩, hes⟩ := h
    rw [ptr_node]
    have hslot : ∀ i (hi : i < es.length), (s.mem a).key i = es[i].1 ∧
        (s.mem a).child i = ptr es[i].2 := fun i hi =>
      hf.slot i (es[i].1, ptr es[i].2) (by simp [words, hi])
    refine ⟨hlive a (by simp [addrs_node]), es.length, ?_, ?_, fun i j hij hj => ?_, fun i hi => ?_,
      fun i hi => ?_, fun i hi => ?_⟩
    · exact List.length_pos_of_ne_nil (by simpa [words] using hne)
    · simpa using hf.len
    · rw [(hslot i (by omega)).1, (hslot j hj).1]
      exact List.pairwise_iff_getElem.mp ho.keys_sorted i j (by omega) hj hij
    · rw [(hslot i hi).1]
      exact hP _ (ho.key_mem (List.getElem_mem hi))
    · exact hf.tail i (by simpa using hi)
    · rw [(hslot i hi).2]
      have hmem := List.getElem_mem hi
      obtain ⟨pre, post, hsplit⟩ := List.append_of_mem hmem
      refine ih (hes _ hmem) (ho.2.2 pre _ post hsplit).2 (fun k hk => hP k hk.inside)
        fun b hb => ?_
      exact hlive b (by simp [addrs_node, Multiset.mem_of_le (addrs_le_addrsOf hmem) hb])

theorem Inv.valid (h : Inv s T) : Valid s := by
  rw [Valid, h.shape.level, h.shape.root]
  exact validNode_of_linked h.shape.linked h.order (fun _ hk => hk) fun a ha => h.shape.mem_live ha

/-- The tree of `s` represents `m`. -/
def Represented (s : Fb) (m : ℕ → Option ℕ) : Prop :=
  s.level ≤ 5 ∧ ∃ T, Inv s T ∧ Represents (whole T) m

theorem step_represented (h : restrict Step (fun s e => startsBelow s e.1 = true) s e s')
    (hm : Represented s m) : Replies orAny m e.1 e.2 ∧ Represented s' (next m e.1) := by
  obtain ⟨⟨alloc, hfresh, hk, hcall, hlevel'⟩, hop⟩ := h
  obtain ⟨hlevel, T, hT, hrep⟩ := hm
  obtain ⟨r, s₁, T', hr, hans, hinv, hrep'⟩ := call_spec hT hrep hfresh hlevel e.1 hk hop
  rw [hcall, Option.some.injEq, Prod.mk.injEq] at hr
  rw [← hr.2] at hinv
  rw [hr.1]
  exact ⟨hans, hlevel', T', hinv, hrep'⟩

/-- As long as every insertion goes to a leaf that starts at or below its key, the tree answers as
a map, its nodes stay valid, and the next such call returns. -/
theorem fbTree_refines_map
    (h : Run (restrict Step fun s e => startsBelow s e.1 = true) (fbCreate mem) es s) :
    Answers orAny (fun _ => none) es ∧ Valid s ∧
      ∀ op alloc, Fresh alloc → IsKey (opKey op) → startsBelow s op = true →
        ∃ r s', call alloc s op = some (r, s') ∧ Replies orAny (after (fun _ => none) es) op r := by
  have hstart : Represented (fbCreate mem) fun _ => none :=
    ⟨by simp [fbCreate], _, inv_create, represents_nil⟩
  obtain ⟨hans, hlevel, T, hT, hrep⟩ := answers_run h hstart fun _ _ _ _ => step_represented
  refine ⟨hans, hT.valid, fun op alloc hfresh hk hop => ?_⟩
  obtain ⟨r, s', -, hr, hreply, -⟩ := call_spec hT hrep hfresh hlevel op hk hop
  exact ⟨r, s', hr, hreply⟩

/-- A call with `check` on the state it is made in. -/
def checkedCall (check : Fb → Op ℕ ℕ → Bool) (s : Fb) (op : Op ℕ ℕ) :
    Option ((Op ℕ ℕ × Reply ℕ) × Fb) :=
  if opKey op < fbNilKey ∧ check s op then
    (call nextNode s op).bind fun r => if r.2.level ≤ 5 then some ((op, r.1), r.2) else none
  else none

theorem step_of_checkedCall (check : Fb → Op ℕ ℕ → Bool) (s : Fb) (op : Op ℕ ℕ)
    (e : Op ℕ ℕ × Reply ℕ) (s' : Fb) (h : checkedCall check s op = some (e, s')) :
    restrict Step (fun s e => check s e.1 = true) s e s' := by
  unfold checkedCall at h
  split_ifs at h with hc
  obtain ⟨⟨r, u⟩, hr, he⟩ := Option.bind_eq_some_iff.mp h
  split_ifs at he with hlevel
  cases he
  exact ⟨⟨nextNode, fresh_nextNode, hc.1, hr, hlevel⟩, hc.2⟩

def growingHistory : List (Op ℕ ℕ × Reply ℕ) :=
  [(.insert 5 50, .flag true), (.insert 10 100, .flag true), (.insert 7 70, .flag true),
    (.insert 5 1, .flag false), (.remove 7, .flag true), (.find 10, .value 100)]

theorem growingHistory_answers :
    ∃ s, Run (restrict Step fun s e => startsBelow s e.1 = true)
      (fbCreate fun _ => ⟨fun _ => 0, fun _ => 0⟩) growingHistory s ∧
      Answers orAny (fun _ => none) growingHistory := by
  obtain ⟨s, h⟩ := exists_run (step_of_checkedCall startsBelow)
    (fbCreate fun _ => ⟨fun _ => 0, fun _ => 0⟩)
    [.insert 5 50, .insert 10 100, .insert 7 70, .insert 5 1, .remove 7, .find 10]
    (show _ = some growingHistory by decide +kernel)
  exact ⟨s, h, (fbTree_refines_map h).1⟩

/-- A key below the first key of its leaf is put behind it. -/
def fallingHistory : List (Op ℕ ℕ × Reply ℕ) :=
  [(.insert 10 100, .flag true), (.insert 5 50, .flag true), (.find 10, .value 50)]

theorem fallingHistory_not_answers :
    ∃ s, Run Step (fbCreate fun _ => ⟨fun _ => 0, fun _ => 0⟩) fallingHistory s ∧
      ¬ Answers orAny (fun _ => none) fallingHistory := by
  obtain ⟨s, h⟩ := exists_run (step_of_checkedCall fun _ _ => true)
    (fbCreate fun _ => ⟨fun _ => 0, fun _ => 0⟩) [.insert 10 100, .insert 5 50, .find 10]
    (show _ = some fallingHistory by decide +kernel)
  refine ⟨s, h.mono fun _ _ _ hs => hs.1, ?_⟩
  simp [fallingHistory, Answers, Replies, next, orAny, Function.update]

end YwStorage.FbTree
