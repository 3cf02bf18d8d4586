import YwStorage.BuffCache.Basic

/-! The slots that the searches, registrations and allocations look at. -/
namespace YwStorage.BuffCache

@[simp] theorem ok_bind {α β : Type} (a : α) (f : α → Except Fault β) : (.ok a >>= f) = f a := rfl

@[simp] theorem error_bind {α β : Type} (e : Fault) (f : α → Except Fault β) :
    (.error e >>= f) = .error e := rfl

@[simp] theorem pure_eq_ok {α : Type} (a : α) : (pure a : Except Fault α) = .ok a := rfl

variable {Con : Type} [DecidableEq Con] {c : Config Con}

namespace Cache
variable {s t : Cache Con} {conId : Con} {idx : ℕ}

theorem readHt_of_lt (h : idx < htLen c) : s.readHt c idx = .ok (s.ht idx) := if_pos h

theorem htLen_lt (c : Config Con) : htLen c < 2 ^ 32 := by
  have := c.htSize_lt
  unfold htLen
  split
  · omega
  · exact this

theorem htLen_eq (h : c.count ≠ 0) : htLen c = c.htSize := if_neg h

theorem getHt_lt (h : c.count ≠ 0) (conId : Con) : getHt c conId < htLen c := by
  have := c.count_le
  rw [htLen_eq h]
  exact Nat.mod_lt _ (by omega)

/-- The search stops at the first slot of the content. -/
theorem htFindLoop_found {i j b : ℕ} (hle : idx ≤ j) (hlt : j < idx + i) (hj : j < htLen c)
    (hb : s.ht j = some b) (hcon : (s.info b).conId = conId)
    (hfirst : ∀ k b', idx ≤ k → k < j → s.ht k = some b' → (s.info b').conId ≠ conId) :
    s.htFindLoop c conId i idx = .ok (some j) := by
  induction i generalizing idx with
  | zero => omega
  | succ i ih =>
    have hread : s.readHt c idx = .ok (s.ht idx) := readHt_of_lt (by omega)
    rcases Nat.eq_or_lt_of_le hle with rfl | hbefore
    · simp [htFindLoop, hread, hb, hcon]
    · have hnext : (idx + 1) % 2 ^ 32 = idx + 1 := Nat.mod_eq_of_lt (by
        have := htLen_lt c
        omega)
      have hmiss : (s.ht idx).any (fun b => (s.info b).conId = conId) = false := by
        cases hidx : s.ht idx with
        | none => rfl
        | some b' => simpa using hfirst idx b' (Nat.le_refl idx) hbefore hidx
      have hrest : s.htFindLoop c conId i (idx + 1) = .ok (some j) :=
        ih hbefore (by omega) fun k b' hk => hfirst k b' (by omega)
      rw [htFindLoop, hnext]
      simp [hread, hmiss, hrest]

theorem htFindLoop_absent {i : ℕ} (hlen : idx + i ≤ htLen c)
    (habs : ∀ k b, k < htLen c → s.ht k = some b → (s.info b).conId ≠ conId) :
    s.htFindLoop c conId i idx = .ok none := by
  induction i generalizing idx with
  | zero => rfl
  | succ i ih =>
    have hread : s.readHt c idx = .ok (s.ht idx) := readHt_of_lt (by omega)
    have hnext : (idx + 1) % 2 ^ 32 = idx + 1 := Nat.mod_eq_of_lt (by
      have := htLen_lt c
      omega)
    have hmiss : (s.ht idx).any (fun b => (s.info b).conId = conId) = false := by
      cases hidx : s.ht idx with
      | none => rfl
      | some b' => simpa using habs idx b' (by omega) hidx
    have hrest : s.htFindLoop c conId i (idx + 1) = .ok none := ih (by omega)
    rw [htFindLoop, hnext]
    simp [hread, hmiss, hrest]

theorem probe_spec (hc : c.count ≠ 0) (i : ℕ) (h : idx < htLen c) :
    ∃ j, s.probe c i idx = .ok j ∧ j < htLen c := by
  induction i generalizing idx with
  | zero => exact ⟨idx, rfl, h⟩
  | succ i ih =>
    have hnext : (if idx + 1 ≥ c.htSize then 0 else idx + 1) < htLen c := by
      rw [htLen_eq hc] at h ⊢
      split <;> omega
    generalize hn : (if idx + 1 ≥ c.htSize then 0 else idx + 1) = n at hnext
    obtain ⟨j, hj, hlt⟩ := ih hnext
    by_cases hfree : s.ht n = none
    · refine ⟨n, ?_, hnext⟩
      simp [probe, hn, readHt_of_lt hnext, hfree]
    · refine ⟨j, ?_, hlt⟩
      simp [probe, hn, readHt_of_lt hnext, hfree, hj]

/-- A registration looks only at slots of the table, and takes an empty one. -/
theorem placeLoop_spec (hc : c.count ≠ 0) (n : ℕ) (h : idx < htLen c) :
    ∃ r, s.placeLoop c n idx = .ok r ∧ ∀ j, r = some j → j < htLen c ∧ s.ht j = none := by
  induction n generalizing idx with
  | zero => exact ⟨none, rfl, by simp⟩
  | succ n ih =>
    by_cases hfree : s.ht idx = none
    · refine ⟨some idx, ?_, fun j hj => ?_⟩
      · simp [placeLoop, readHt_of_lt h, hfree]
      · cases hj
        exact ⟨h, hfree⟩
    · obtain ⟨j, hprobe, hlt⟩ := probe_spec (s := s) hc collisionRetryCount h
      by_cases hj : s.ht j = none
      · refine ⟨some j, ?_, fun k hk => ?_⟩
        · simp [placeLoop, readHt_of_lt h, readHt_of_lt hlt, hfree, hprobe, hj]
        · cases hk
          exact ⟨hlt, hj⟩
      · obtain ⟨r, hrest, hr⟩ := ih hlt
        refine ⟨r, ?_, hr⟩
        simp [placeLoop, readHt_of_lt h, readHt_of_lt hlt, hfree, hprobe, hj, hrest]

omit [DecidableEq Con] in
/-- Starting behind cache `bcid`, `fuel` turns reach the next `fuel` caches in cyclic order. -/
theorem scanUnused_exists (fuel bcid : ℕ) {b : ℕ} (hb : b < c.count)
    (hunused : (s.info b).status = .unused) (hbcid : bcid < c.count)
    (hreach : (bcid < b ∧ b ≤ bcid + fuel) ∨ (b ≤ bcid ∧ b + c.count ≤ bcid + fuel)) :
    ∃ b', s.scanUnused c fuel bcid = some b' := by
  induction fuel generalizing bcid with
  | zero => omega
  | succ fuel ih =>
    -- the next cache `n`, cyclically, is `b` or one turn closer to it
    obtain ⟨n, hn, hlt, hnext⟩ : ∃ n, (if bcid + 1 ≥ c.count then 0 else bcid + 1) = n ∧
        n < c.count ∧ (n = b ∨ (n < b ∧ b ≤ n + fuel) ∨ (b ≤ n ∧ b + c.count ≤ n + fuel)) := by
      by_cases hwrap : bcid + 1 ≥ c.count
      · exact ⟨0, if_pos hwrap, by omega, by omega⟩
      · exact ⟨bcid + 1, if_neg hwrap, by omega, by omega⟩
    by_cases hused : (s.info n).status = .unused
    · exact ⟨n, by simp [scanUnused, hn, hused]⟩
    · have hne : n ≠ b := fun h0 => hused (h0 ▸ hunused)
      obtain ⟨b', hb'⟩ := ih n hlt (hnext.resolve_left hne)
      exact ⟨b', by simp [scanUnused, hn, hused, hb']⟩

end Cache

end YwStorage.BuffCache
