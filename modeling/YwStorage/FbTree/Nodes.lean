import YwStorage.FbTree.Basic

/-! Single nodes: the entries that the slots hold, and what search, cloning and splitting do. -/
namespace YwStorage.FbTree
open MultiTree SortedMap

variable {nd dst : FbNode} {ws us vs : List (ℕ × ℕ)} {e : ℕ × ℕ} {key c k i : ℕ}

/-- The slots hold `ws` and are unused behind it. -/
structure Fits (nd : FbNode) (ws : List (ℕ × ℕ)) : Prop where
  len : ws.length ≤ 128
  slot : ∀ i e, ws[i]? = some e → nd.key i = e.1 ∧ nd.child i = e.2
  tail : ∀ i, ws.length ≤ i → i < 128 → nd.key i = fbNilKey

theorem Fits.key_at (h : Fits nd (us ++ e :: vs)) : nd.key us.length = e.1 :=
  (h.slot us.length e (by simp)).1

theorem Fits.child_at (h : Fits nd (us ++ e :: vs)) : nd.child us.length = e.2 :=
  (h.slot us.length e (by simp)).2

/-- The loop of `fb_search_in_node` where every read is checked, and the turns are counted. -/
def searchChecked (keyArray : ℕ → ℕ) (key : ℕ) : ℕ → ℕ → ℕ → Option ℕ
  | 0, _, _ => none
  | fuel + 1, size, idx =>
    let size₁ := size / 2
    let mid := idx + size₁
    if mid < fbSlotMax then
      let idx₁ := if key ≥ keyArray mid then mid else idx
      if size₁ ≥ 1 then searchChecked keyArray key fuel size₁ idx₁ else some idx₁
    else none

theorem searchLoop_of_checked {keyArray : ℕ → ℕ} {fuel size idx r : ℕ}
    (h : searchChecked keyArray key fuel size idx = some r) :
    searchLoop keyArray key fuel size idx = r := by
  induction fuel generalizing size idx with
  | zero => cases h
  | succ fuel ih =>
    simp only [searchChecked] at h
    simp only [searchLoop]
    split at h
    · split at h
      · rename_i hsize
        rw [if_pos hsize]
        exact ih h
      · rename_i hsize
        rw [if_neg hsize]
        exact Option.some.inj h
    · cases h

/-- The halving search ends at the last of the `cnt` slots that are not above the key. -/
theorem searchChecked_eq {keyArray : ℕ → ℕ} {cnt m : ℕ} (fuel : ℕ)
    (hc : ∀ i, i < 128 → (keyArray i ≤ key ↔ i < cnt)) (hm : m < fuel) (idx : ℕ)
    (hidx : idx + 2 ^ m ≤ 128) (hlo : idx = 0 ∨ idx < cnt) (hhi : cnt ≤ idx + 2 ^ m) :
    searchChecked keyArray key fuel (2 ^ m) idx = some (cnt - 1) := by
  induction fuel generalizing m idx with
  | zero => omega
  | succ fuel ih =>
    cases m with
    | zero =>
      have hmid : idx < fbSlotMax := show idx < 128 by omega
      simp only [searchChecked, pow_zero, Nat.reduceDiv, add_zero, ite_self]
      rw [if_pos hmid, if_neg (by decide)]
      exact congrArg some (by omega)
    | succ m =>
      have hpos : 0 < 2 ^ m := Nat.two_pow_pos m
      have hhalf : 2 ^ (m + 1) / 2 = 2 ^ m := by rw [pow_succ]; omega
      rw [pow_succ] at hidx hhi
      have hlt : idx + 2 ^ m < fbSlotMax := show idx + 2 ^ m < 128 by omega
      simp only [searchChecked, hhalf]
      rw [if_pos hlt, if_pos (by omega)]
      have hmid := hc (idx + 2 ^ m) (by omega)
      by_cases hle : keyArray (idx + 2 ^ m) ≤ key
      · rw [if_pos hle]
        exact ih (by omega) (idx + 2 ^ m) (by omega) (Or.inr (hmid.mp hle)) (by omega)
      · rw [if_neg hle]
        have := mt hmid.mpr hle
        exact ih (by omega) idx (by omega) hlo (by omega)

/-- In sorted slots those that are not above a key come first. -/
theorem exists_count {keyArray : ℕ → ℕ} (hsorted : ∀ i j, i ≤ j → j < 128 →
    keyArray i ≤ keyArray j) (key : ℕ) :
    ∃ cnt, cnt ≤ 128 ∧ ∀ i, i < 128 → (keyArray i ≤ key ↔ i < cnt) := by
  have hex : ∃ i, i = 128 ∨ key < keyArray i := ⟨128, .inl rfl⟩
  refine ⟨Nat.find hex, Nat.find_min' hex (.inl rfl), fun i hi => ⟨fun hle => ?_, fun hlt => ?_⟩⟩
  · by_contra hge
    rcases Nat.find_spec hex with hend | habove
    · omega
    · exact absurd (hsorted _ i (not_lt.mp hge) hi) (by omega)
  · have hmin := Nat.find_min hex hlt
    omega

/-- `fb_search_in_node` is a floor search: it ends after eight turns, reads only slots of the node
and finds the last one that is not above the key, or else the first. -/
theorem fbSearchInNode_floor {keyArray : ℕ → ℕ} (hsorted : ∀ i j, i ≤ j → j < 128 →
    keyArray i ≤ keyArray j) (key : ℕ) :
    (∀ fuel, 8 ≤ fuel →
      searchChecked keyArray key fuel fbSlotMax 0 = some (fbSearchInNode keyArray key)) ∧
    fbSearchInNode keyArray key < fbSlotMax ∧
    ((∃ i < fbSlotMax, keyArray i ≤ key) → keyArray (fbSearchInNode keyArray key) ≤ key) ∧
    (∀ i < fbSlotMax, keyArray i ≤ key → i ≤ fbSearchInNode keyArray key) ∧
    ((∀ i < fbSlotMax, key < keyArray i) → fbSearchInNode keyArray key = 0) := by
  obtain ⟨cnt, hle, hc⟩ := exists_count hsorted key
  have hchecked : ∀ fuel, 8 ≤ fuel →
      searchChecked keyArray key fuel fbSlotMax 0 = some (cnt - 1) := fun fuel hfuel =>
    searchChecked_eq (m := 7) fuel hc (by omega) 0 (by decide) (.inl rfl) (by omega)
  have hindex : fbSearchInNode keyArray key = cnt - 1 :=
    searchLoop_of_checked (hchecked fbSlotMax (by decide))
  rw [hindex]
  refine ⟨hchecked, show cnt - 1 < 128 by omega, ?_, ?_, ?_⟩
  · rintro ⟨i, hi, hbelow⟩
    have hlt := (hc i hi).mp hbelow
    exact (hc (cnt - 1) (by omega)).mpr (by omega)
  · intro i hi hbelow
    have hlt := (hc i hi).mp hbelow
    omega
  · intro habove
    have hzero := hc 0 (by decide)
    have hfirst := habove 0 (by decide)
    omega

/-- Three slots in use, two of them with the same key. -/
def threeSlots (i : ℕ) : ℕ := if i = 0 then 3 else if i < 3 then 5 else fbNilKey

theorem threeSlots_found : (∀ i j, i ≤ j → j < 128 → threeSlots i ≤ threeSlots j) ∧
    searchChecked threeSlots 5 8 fbSlotMax 0 = some 2 := by
  have hsorted : ∀ i j, i ≤ j → j < 128 → threeSlots i ≤ threeSlots j := by
    intro i j hij _
    unfold threeSlots fbNilKey
    split_ifs <;> omega
  have hindex : fbSearchInNode threeSlots 5 = 2 := rfl
  refine ⟨hsorted, ?_⟩
  rw [← hindex]
  exact (fbSearchInNode_floor hsorted 5).1 8 le_rfl

/-- Counting the slots that are not above a key. -/
theorem Fits.le_iff (h : Fits nd (us ++ vs)) (hk : key < fbNilKey) (hu : ∀ e ∈ us, e.1 ≤ key)
    (hv : ∀ e ∈ vs, key < e.1) (hi : i < 128) : nd.key i ≤ key ↔ i < us.length := by
  rcases lt_or_ge i (us ++ vs).length with hlt | hge
  · have hget : (us ++ vs)[i]? = some (us ++ vs)[i] := List.getElem?_eq_getElem hlt
    rw [(h.slot i _ hget).1]
    by_cases hiu : i < us.length
    · rw [List.getElem_append_left hiu]
      exact ⟨fun _ => hiu, fun _ => hu _ (List.getElem_mem hiu)⟩
    · rw [List.getElem_append_right (by omega)]
      exact ⟨fun hle => absurd hle (not_le.mpr (hv _ (List.getElem_mem _))), fun h => absurd h hiu⟩
  · rw [h.tail i hge hi]
    rw [List.length_append] at hge
    omega

/-- `fb_search_in_node` counts the entries that are not above the key. -/
theorem fbSearchInNode_eq (h : Fits nd (us ++ vs)) (hk : key < fbNilKey) (hu : ∀ e ∈ us, e.1 ≤ key)
    (hv : ∀ e ∈ vs, key < e.1) : fbSearchInNode nd.key key = us.length - 1 := by
  have hlen : us.length + vs.length ≤ 2 ^ 7 := by simpa using h.len
  exact searchLoop_of_checked (searchChecked_eq (m := 7) 128 (fun i hi => h.le_iff hk hu hv hi)
    (by decide) 0 (by decide) (by omega) (by omega))

/-- It finds the last entry not above the key, or else the first entry. -/
theorem fbSearchInNode_spec (h : Fits nd ws) (hs : Sorted ws) (hk : key < fbNilKey)
    (hne : ws ≠ []) :
    ∃ us e vs, ws = us ++ e :: vs ∧ fbSearchInNode nd.key key = us.length ∧
      (us ≠ [] → e.1 ≤ key) ∧ ∀ f ∈ vs, key < f.1 := by
  obtain ⟨us, vs, rfl, hle, hlt⟩ := hs.cut key
  have hidx := fbSearchInNode_eq h hk hle hlt
  rcases List.eq_nil_or_concat us with rfl | ⟨us, e, rfl⟩
  · obtain ⟨e, vs, rfl⟩ := List.exists_cons_of_ne_nil hne
    exact ⟨[], e, vs, rfl, hidx, by simp, fun f hf => hlt f (List.mem_cons_of_mem _ hf)⟩
  · refine ⟨us, e, vs, by simp, by simpa using hidx, fun _ => hle e (by simp), hlt⟩

/-- A slot is in use if and only if its key is not the nil key. -/
theorem Fits.key_eq_nil_iff (h : Fits nd ws) (hk : ∀ e ∈ ws, e.1 < fbNilKey) (hi : i < 128) :
    nd.key i = fbNilKey ↔ ws.length ≤ i := by
  constructor
  · intro he
    by_contra hlt
    have hget : ws[i]? = some ws[i] := List.getElem?_eq_getElem (by omega)
    rw [(h.slot i _ hget).1] at he
    exact (hk _ (List.getElem_mem _)).ne he
  · exact fun hge => h.tail i hge hi

theorem Fits.full_iff (h : Fits nd ws) (hk : ∀ e ∈ ws, e.1 < fbNilKey) :
    nd.isFullNode ↔ ws.length = 128 := by
  have hlen : ws.length ≤ 128 := h.len
  rw [FbNode.isFullNode, Ne, h.key_eq_nil_iff hk (by decide)]
  show ¬ ws.length ≤ 127 ↔ _
  omega

theorem Fits.remainOne_iff (h : Fits nd ws) (hk : ∀ e ∈ ws, e.1 < fbNilKey) (hne : ws ≠ []) :
    nd.remainOneKey ↔ ws.length = 1 := by
  have hpos : 0 < ws.length := List.length_pos_of_ne_nil hne
  rw [FbNode.remainOneKey, h.key_eq_nil_iff hk (by decide)]
  omega

theorem Fits.setChild (h : Fits nd (us ++ (k, c) :: vs)) (c' : ℕ) :
    Fits (nd.setChild us.length c') (us ++ (k, c') :: vs) := by
  refine ⟨by simpa using h.len, fun i e he => ?_, fun i hi => h.tail i (by simpa using hi)⟩
  rw [FbNode.setChild]
  by_cases hi : i = us.length
  · subst hi
    simp only [List.getElem?_append_right le_rfl, Nat.sub_self, List.getElem?_cons_zero,
      Option.some.injEq] at he
    simp [← he, h.key_at]
  · have hold : (us ++ (k, c) :: vs)[i]? = some e := by
      rw [← he, List.getElem?_append, List.getElem?_append]
      split_ifs with hlt
      · rfl
      · obtain ⟨j, hj⟩ : ∃ j, i - us.length = j + 1 := ⟨i - us.length - 1, by omega⟩
        rw [hj, List.getElem?_cons_succ, List.getElem?_cons_succ]
    simpa [hi] using h.slot i e hold

/-- A node whose slot `i` is new or a copy of slot `f i`. -/
theorem Fits.of_slots {ws' : List (ℕ × ℕ)} (h : Fits nd ws) {r : FbNode} (f : ℕ → ℕ)
    (hlen : ws'.length ≤ 128)
    (hslot : ∀ i e, ws'[i]? = some e → ws[f i]? = some e ∧ r.key i = nd.key (f i) ∧
      r.child i = nd.child (f i) ∨ r.key i = e.1 ∧ r.child i = e.2)
    (htail : ∀ i, ws'.length ≤ i → i < 128 → r.key i = fbNilKey) : Fits r ws' := by
  refine ⟨hlen, fun i e he => ?_, htail⟩
  rcases hslot i e he with ⟨hw, hk, hc⟩ | hnew
  · rw [hk, hc]
    exact h.slot _ e hw
  · exact hnew

/-- The node that `fb_cloning_and_insert` fills. -/
def insertSlot (nd dst : FbNode) (idx key child : ℕ) : FbNode :=
  (if 127 > idx then
      fbCopyNode nd idx (127 - idx) (fbCopyNode nd 0 idx dst 0) (idx + 1)
    else fbCopyNode nd 0 idx dst 0).setSlot idx key child

theorem insertSlot_key (nd dst : FbNode) (k c : ℕ) {idx : ℕ} (hi : i < 128) (hidx : idx < 128) :
    (insertSlot nd dst idx k c).key i =
        (if i < idx then nd.key i else if i = idx then k else nd.key (i - 1)) ∧
      (insertSlot nd dst idx k c).child i =
        if i < idx then nd.child i else if i = idx then c else nd.child (i - 1) := by
  have hsub : idx < i → idx + (i - (idx + 1)) = i - 1 := by omega
  unfold insertSlot FbNode.setSlot fbCopyNode
  rcases lt_trichotomy i idx with hlt | rfl | hgt
  · have hin : 0 ≤ i ∧ i < idx := ⟨Nat.zero_le i, hlt⟩
    have hout : ¬ (idx + 1 ≤ i ∧ i < idx + 1 + (127 - idx)) := by omega
    simp only [Function.update_of_ne hlt.ne, if_pos hlt]
    by_cases hlast : 127 > idx
    · simp only [if_pos hlast, if_neg hout, if_pos hin, Nat.sub_zero, Nat.zero_add, and_self]
    · simp only [if_neg hlast, if_pos hin, Nat.sub_zero, Nat.zero_add, and_self]
  · simp
  · rw [if_pos (show 127 > idx by omega)]
    simp only [Function.update_of_ne hgt.ne', if_neg (not_lt.mpr hgt.le), if_neg hgt.ne']
    have hin : idx + 1 ≤ i ∧ i < idx + 1 + (127 - idx) := ⟨hgt, by omega⟩
    simp only [if_pos hin, hsub hgt, and_self]

/-- Cloning with a new entry behind the entries `us`. -/
theorem Fits.insert (h : Fits nd (us ++ vs)) (dst : FbNode) (k c : ℕ)
    (hlen : (us ++ vs).length < 128) :
    Fits (insertSlot nd dst us.length k c) (us ++ (k, c) :: vs) := by
  rw [List.length_append] at hlen
  refine h.of_slots (fun i => if i < us.length then i else i - 1) ?_ (fun i e he => ?_) ?_
  · simp only [List.length_append, List.length_cons]
    omega
  · have hi : i < 128 := by
      have := (List.getElem?_eq_some_iff.mp he).1
      simp at this
      omega
    have hcl := insertSlot_key nd dst k c hi (show us.length < 128 by omega)
    rw [hcl.1, hcl.2]
    rcases lt_trichotomy i us.length with hlt | rfl | hgt
    · left
      simp only [if_pos hlt, and_true]
      rw [List.getElem?_append_left hlt] at he ⊢
      exact he
    · right
      simp at he
      simp [← he]
    · left
      simp only [if_neg (not_lt.mpr hgt.le), if_neg hgt.ne', and_self, and_true]
      rw [List.getElem?_append_right hgt.le] at he
      rw [List.getElem?_append_right (by omega)]
      obtain ⟨j, hj⟩ : ∃ j, i - us.length = j + 1 := ⟨i - us.length - 1, by omega⟩
      rw [hj, List.getElem?_cons_succ] at he
      rwa [show i - 1 - us.length = j by omega]
  · intro i hge hi
    simp only [List.length_append, List.length_cons] at hge
    rw [(insertSlot_key nd dst k c hi (by omega)).1, if_neg (by omega), if_neg (by omega)]
    exact h.tail (i - 1) (by rw [List.length_append]; omega) (by omega)

/-- The node that `fb_cloning_and_remove` fills. -/
def removeSlot (nd dst : FbNode) (idx : ℕ) : FbNode :=
  (if 127 > idx then
      fbCopyNode nd (idx + 1) (127 - idx) (if 0 < idx then fbCopyNode nd 0 idx dst 0 else dst) idx
    else if 0 < idx then fbCopyNode nd 0 idx dst 0 else dst).resetSlot 127

theorem removeSlot_key {idx : ℕ} (hi : i < 127) (hidx : idx < 128) :
    (removeSlot nd dst idx).key i = nd.key (if i < idx then i else i + 1) ∧
      (removeSlot nd dst idx).child i = nd.child (if i < idx then i else i + 1) := by
  have hsub : idx ≤ i → idx + 1 + (i - idx) = i + 1 := by omega
  unfold removeSlot FbNode.resetSlot fbCopyNode
  simp only [Function.update_of_ne hi.ne]
  rcases lt_or_ge i idx with hlt | hge
  · have hpos : 0 < idx := by omega
    have hin : 0 ≤ i ∧ i < idx := ⟨Nat.zero_le i, hlt⟩
    have hout : ¬ (idx ≤ i ∧ i < idx + (127 - idx)) := by omega
    simp only [if_pos hpos, if_pos hlt]
    by_cases hlast : 127 > idx
    · simp only [if_pos hlast, if_neg hout, if_pos hin, Nat.sub_zero, Nat.zero_add, and_self]
    · simp only [if_neg hlast, if_pos hin, Nat.sub_zero, Nat.zero_add, and_self]
  · have hin : idx ≤ i ∧ i < idx + (127 - idx) := ⟨hge, by omega⟩
    rw [if_pos (show 127 > idx by omega)]
    simp only [if_pos hin, hsub hge, if_neg (not_lt.mpr hge), and_self]

/-- Cloning without the entry behind `us`. -/
theorem Fits.remove (h : Fits nd (us ++ e :: vs)) (dst : FbNode) :
    Fits (removeSlot nd dst us.length) (us ++ vs) := by
  have hlen := h.len
  simp only [List.length_append, List.length_cons] at hlen
  refine h.of_slots (fun i => if i < us.length then i else i + 1) ?_ (fun i f he => Or.inl ?_) ?_
  · rw [List.length_append]
    omega
  · have hi := (List.getElem?_eq_some_iff.mp he).1
    rw [List.length_append] at hi
    refine ⟨?_, removeSlot_key (by omega) (by omega)⟩
    split_ifs with hlt
    · rw [List.getElem?_append_left hlt] at he ⊢
      exact he
    · rw [List.getElem?_append_right (by omega)] at he ⊢
      rwa [show i + 1 - us.length = i - us.length + 1 by omega, List.getElem?_cons_succ]
  · intro i hge hi
    rw [List.length_append] at hge
    rcases eq_or_ne i 127 with rfl | hne
    · simp [removeSlot, FbNode.resetSlot]
    · rw [(removeSlot_key (by omega) (by omega)).1, if_neg (by omega)]
      exact h.tail (i + 1) (by simp only [List.length_append, List.length_cons]; omega) (by omega)

/-- The left half of a split. -/
theorem Fits.left (h : Fits nd (us ++ vs)) (dst : FbNode) :
    Fits ((fbCopyNode nd 0 us.length dst 0).resetNode us.length) us := by
  have hlen := h.len
  rw [List.length_append] at hlen
  refine h.of_slots id (by omega) (fun i e he => Or.inl ?_) ?_
  · have hi := (List.getElem?_eq_some_iff.mp he).1
    refine ⟨by rwa [id, List.getElem?_append_left hi], ?_⟩
    simp [FbNode.resetNode, fbCopyNode, hi]
  · intro i hge hi
    simp [FbNode.resetNode, hge, hi]

/-- The right half of a full node. -/
theorem Fits.right (h : Fits nd (us ++ vs)) (dst : FbNode) (hlen : us.length + vs.length = 128) :
    Fits ((fbCopyNode nd us.length (128 - us.length) dst 0).resetNode (128 - us.length)) vs := by
  have hv : 128 - us.length = vs.length := by omega
  rw [hv]
  refine h.of_slots (us.length + ·) (by omega) (fun i e he => Or.inl ?_) ?_
  · have hi := (List.getElem?_eq_some_iff.mp he).1
    refine ⟨?_, by simp [FbNode.resetNode, fbCopyNode, hi]⟩
    rwa [List.getElem?_append_right (by omega), Nat.add_sub_cancel_left]
  · intro i hge hi
    simp [FbNode.resetNode, hge, hi]

/-- The slots that `fb_make_new_root` fills. -/
def rootSlots (dst : FbNode) (k₁ c₁ k₂ c₂ : ℕ) : FbNode :=
  ((dst.resetNode 2).setSlot 0 k₁ c₁).setSlot 1 k₂ c₂

theorem fits_rootSlots (dst : FbNode) (k₁ c₁ k₂ c₂ : ℕ) :
    Fits (rootSlots dst k₁ c₁ k₂ c₂) [(k₁, c₁), (k₂, c₂)] := by
  refine ⟨by simp, fun i e he => ?_, fun i hge hi => ?_⟩
  · match i, he with
    | 0, he =>
      cases he
      simp [rootSlots, FbNode.setSlot]
    | 1, he =>
      cases he
      simp [rootSlots, FbNode.setSlot]
  · simp only [List.length_cons, List.length_nil] at hge
    simp [rootSlots, FbNode.setSlot, FbNode.resetNode, show i ≠ 0 by omega, show i ≠ 1 by omega, hi]
    omega

theorem fits_firstSlot (dst : FbNode) (k₁ c₁ c₂ : ℕ) :
    Fits (rootSlots dst k₁ c₁ fbNilKey c₂) [(k₁, c₁)] := by
  have h := fits_rootSlots dst k₁ c₁ fbNilKey c₂
  refine ⟨by simp, fun i e he => h.slot i e ?_, fun i hge hi => ?_⟩
  · match i, he with
    | 0, he => exact he
  · rcases eq_or_ne i 1 with rfl | hne
    · exact (h.slot 1 _ rfl).1
    · exact h.tail i (by simp only [List.length_cons, List.length_nil] at hge ⊢; omega) hi

end YwStorage.FbTree
