import YwStorage.FbTree.Split

/-! The whole of `fb_insert`: lock, split and retry, and the insertion itself. -/
namespace YwStorage.FbTree
open MultiTree SortedMap

variable {alloc : Finset ℕ → ℕ} {s s' : Fb} {a k p key d : ℕ} {T : Σ N, Node ℕ ℕ N}
  {pre post : List (ℕ × Node ℕ ℕ 0)} {up : Path ℕ ℕ 1} {r : FbResult}

section Retry
variable (try' : Fb → Bool → Option (FbResult × Fb)) {smoLock : Bool}

theorem retryLoop_done (fuel : ℕ) (h : try' s smoLock = some (r, s')) (hsmo : r ≠ .smo)
    (hretry : r ≠ .retry) :
    retryLoop try' (fuel + 1) s smoLock = some (decide (r = .success), s') := by
  cases r <;> simp_all [retryLoop]

theorem retryLoop_smo (fuel : ℕ) (h : try' s false = some (.smo, s')) :
    retryLoop try' (fuel + 1) s false = retryLoop try' fuel s' true := by
  simp [retryLoop, h]

theorem retryLoop_retry (fuel : ℕ) (h : try' s smoLock = some (.retry, s')) :
    retryLoop try' (fuel + 1) s smoLock = retryLoop try' fuel s' smoLock := by
  simp [retryLoop, h]

/-- Asking for the lock makes no difference, apart from one more turn. -/
theorem retryLoop_unlocked (fuel : ℕ)
    (hlock : try' s false = some (.smo, s) ∨ try' s false = try' s true)
    (h : try' s true = some (r, s')) (hsmo : r ≠ .smo) (hretry : r ≠ .retry) :
    retryLoop try' (fuel + 2) s false = some (decide (r = .success), s') := by
  rcases hlock with hlock | hlock
  · rw [retryLoop_smo _ _ hlock, retryLoop_done _ _ h hsmo hretry]
  · exact retryLoop_done _ _ (hlock.trans h) hsmo hretry

end Retry

/-- The first key makes a root. -/
theorem fbInsertTry_empty (hfresh : alloc s.live ∉ s.live) (h : Sound s T) (hk : IsKey key)
    (hlevel : s.level = 0) :
    ∃ b s', fbInsertTry alloc s key d true = some (.success, s') ∧
      Sound s' ⟨1, node b [(key, data d)]⟩ ∧ lost s' ⟨1, node b [(key, data d)]⟩ = lost s T := by
  have hc : fbNilNode ::ₘ (0 + addrsOf [(key, data d)] + s.freeNode) ≤ s.live.val := by
    refine le_trans ?_ h.shape.count
    simp [h.free]
  obtain ⟨b, s₁, hroot, hshape, hfree, hlive, -⟩ := makeNewRoot_spec hfresh hlevel
    (fits_firstSlot _ key d fbNilNode) (by simp) (fun e _ => trivial) hc
  have hkeys : AllKeys IsKey (node b [(key, data d)]) := by
    rw [allKeys_node, List.forall_mem_singleton]
    exact ⟨hk, trivial⟩
  obtain ⟨s', hcommit, hsound, hlost⟩ := commit_sound hshape hkeys
  refine ⟨b, s', ?_, hsound, ?_⟩
  · simp [fbInsertTry, hlevel, hroot, hcommit]
  · obtain ⟨N, t⟩ := T
    obtain rfl : N = 0 := h.shape.level.symm.trans hlevel
    rw [hlost, lost, lost, hfree, hlive]
    simp only [addrs_node, addrs, addrsOf_cons, addrsOf_nil, addrs_data, Multiset.card_add,
      Multiset.card_singleton, Multiset.card_zero]
    push_cast
    omega

section Leaf
variable (h : Sound s (plug (.step a pre k post up) (data p)))
include h

theorem level_ne_zero : s.level ≠ 0 := by
  rw [h.shape.around.level, Path.length]
  omega

theorem key_at_cursor : (s.mem a).key pre.length = k := by
  rw [← length_words]
  exact h.shape.around.linked.1.1.key_at

theorem smoCheck_cursor : fbSmoCheck s ((a, pre.length) :: up.positions) p = false :=
  fbSmoCheck_eq h.shape.around

section Insert
variable (ht : fbTraverse s key = ((a, pre.length) :: up.positions, p))
include ht

theorem fbInsertTry_dup (hkey : k = key) : fbInsertTry alloc s key d true = some (.dup, s) := by
  simp [fbInsertTry, level_ne_zero h, ht, key_at_cursor h, hkey]

theorem fbInsertTry_lock (hfull : k ≠ key → ¬ (s.mem a).isFullNode) :
    fbInsertTry alloc s key d false = some (.smo, s) ∨
      fbInsertTry alloc s key d false = fbInsertTry alloc s key d true := by
  by_cases hlevel : s.level ≤ 1
  · left
    simp [fbInsertTry, hlevel]
  · right
    by_cases hkey : k = key
    · simp [fbInsertTry, level_ne_zero h, hlevel, ht, key_at_cursor h, hkey]
    · simp [fbInsertTry, level_ne_zero h, hlevel, ht, key_at_cursor h, hkey, smoCheck_cursor h,
        hfull hkey]

/-- A full leaf is split under the lock, and the call starts again. -/
theorem fbInsertTry_full (hfresh : ∀ live, alloc live ∉ live) (hkey : k ≠ key)
    (hwidth : pre.length + post.length + 1 = 128) (hlevel : s.level ≤ 5) :
    fbInsertTry alloc s key d false = some (.smo, s) ∧
      ∃ s₁ s' path', fbInsertTry alloc s key d true = some (.retry, s') ∧
        SplitTree s s₁ 0 (data p) (.step a pre k post up) path'
          (allFull (.step a pre k post up)).toNat ∧
        Sound s' (plug path' (data p)) ∧
        lost s' (plug path' (data p)) =
          lost s (plug (.step a pre k post up) (data p)) +
            (allFull (.step a pre k post up)).toNat := by
  have hfull := (full_iff_width h.shape h.keys).mpr hwidth
  refine ⟨?_, ?_⟩
  · by_cases hlevel : s.level ≤ 1
    · simp [fbInsertTry, hlevel]
    · simp [fbInsertTry, level_ne_zero h, hlevel, ht, key_at_cursor h, hkey, smoCheck_cursor h,
        hfull]
  · have hlen := h.shape.around.level
    obtain ⟨s₁, path', hsplit, hres, hlost₁, -⟩ := fbSplitNode_tree hfresh _ h.shape h.keys hwidth
      (by
        rw [h.free, List.length_nil]
        exact freeNode_room (.step a pre k post up) (by omega))
    obtain ⟨s', hcommit, hsound, hlost⟩ := commit_sound hres.shape hres.keys
    refine ⟨s₁, s', path', ?_, hres, hsound, hlost.trans hlost₁⟩
    rw [Path.positions] at hsplit
    simp [fbInsertTry, level_ne_zero h, ht, key_at_cursor h, hkey, smoCheck_cursor h, hfull, hsplit,
      hcommit]

/-- A leaf with a free slot gets the entry. -/
theorem fbInsertTry_leaf (hfresh : alloc s.live ∉ s.live) (d : ℕ) (hkey : k ≠ key)
    (hk : IsKey key) (hwidth : pre.length + post.length + 1 < 128) :
    ∃ b s', fbInsertTry alloc s key d true = some (.success, s') ∧
      Sound s' (plug (.step b (pre ++ [(k, data p)]) key post up) (data d)) ∧
      lost s' (plug (.step b (pre ++ [(k, data p)]) key post up) (data d)) =
        lost s (plug (.step a pre k post up) (data p)) := by
  have hfull : ¬ (s.mem a).isFullNode := by
    rw [full_iff_width h.shape h.keys]
    omega
  obtain ⟨b, s₁, s₂, s', hclone, hrep, hcommit, hsound, hlost⟩ := leaf_insert d hfresh h hk hwidth
  refine ⟨b, s', ?_, hsound, hlost⟩
  simp [fbInsertTry, level_ne_zero h, ht, key_at_cursor h, hkey, smoCheck_cursor h, hfull, hclone,
    hrep, hcommit]

end Insert
end Leaf

/-- A leaf that starts at or below the key has room for it. -/
theorem room_of_first (h : Inv s (plug (.step a pre k post up) (data p)))
    (hr : room False IsKey (.step a pre k post up) key)
    (hfirst : (s.mem a).key 0 ≤ key) : room True IsKey (.step a pre k post up) key := by
  have hf := h.shape.around.linked.1.1
  have hplug : Ordered True unmarked IsKey (plug up (node a (pre ++ (k, data p) :: post))).2 :=
    h.order
  cases pre with
  | nil =>
    rw [(hf.slot 0 (k, p) (by simp)).1] at hfirst
    have hkin := hplug.hole.key_mem (e := (k, data p)) (by simp)
    exact ⟨room_of_le hkin hr.inside hfirst, fun _ => hfirst, hr.upper⟩
  | cons e es =>
    rw [(hf.slot 0 (e.1, ptr e.2) (by simp)).1] at hfirst
    have hein := hplug.hole.key_mem (e := e) (by simp)
    exact ⟨room_of_le hein hr.inside hfirst, fun _ => hr.lower (Or.inr (by simp)), hr.upper⟩

/-- The data around a cursor. -/
theorem whole_cursor : whole (plug (.step a pre k post up) (data p)) =
    (Path.step a pre k post up).before ++ (k, p) :: (Path.step a pre k post up).after := by
  rw [whole_plug]
  simp [Path.inner]

theorem inserted_at_cursor {b : ℕ}
    (ho : Ordered True unmarked IsKey (plug (.step a pre k post up) (data p)).2)
    (hr : room True IsKey (.step a pre k post up) key) (hne : k ≠ key) :
    Inserted (whole (plug (.step a pre k post up) (data p)))
      (whole (plug (.step b (pre ++ [(k, data p)]) key post up) (data d))) key d := by
  obtain ⟨hbefore, hafter⟩ := ho.between hr
  have hkey : k < key := lt_of_le_of_ne (hr.lower (Or.inl trivial)) hne
  refine ⟨(Path.step a pre k post up).before ++ [(k, p)], (Path.step a pre k post up).after, ?_, ?_,
    ?_, hafter⟩
  · rw [whole_cursor]
    simp
  · rw [whole_cursor]
    simp [Path.before, Path.after]
  · simp only [List.forall_mem_append, List.forall_mem_singleton]
    exact ⟨hbefore, hkey⟩

/-- The leaf in which the key is searched starts at or below the key. -/
def leafCovers (s : Fb) (key : ℕ) : Bool :=
  match (fbTraverse s key).1 with
  | [] => true
  | (leaf, _) :: _ => (s.mem leaf).key 0 ≤ key

theorem fbInsert_of_try (hlock : fbInsertTry alloc s key d false = some (.smo, s) ∨
      fbInsertTry alloc s key d false = fbInsertTry alloc s key d true)
    (h : fbInsertTry alloc s key d true = some (r, s')) (hsmo : r ≠ .smo) (hretry : r ≠ .retry) :
    fbInsert alloc s key d = some (decide (r = .success), s') :=
  retryLoop_unlocked (fun s smoLock => fbInsertTry alloc s key d smoLock) 1 hlock h hsmo hretry

theorem Sited.whole_eq {path path' : Path ℕ ℕ 0} (h : Sited path path') :
    whole (plug path' (data p)) = whole (plug path (data p)) := by
  rw [whole_plug, whole_plug, h.before, h.after, h.inner]

/-- The key at the cursor stays with its data. -/
theorem Sited.key_eq {b k' : ℕ} {pre' post' : List (ℕ × Node ℕ ℕ 0)} {up' : Path ℕ ℕ 1}
    (h : Sited (.step a pre k post up) (.step b pre' k' post' up')) : k' = k := by
  have := h.inner (data 0)
  simpa [Path.inner] using this

theorem fbInsert_spec (hfresh : ∀ live, alloc live ∉ live) (d : ℕ) (h : Inv s T) (hk : IsKey key)
    (hcover : leafCovers s key = true) (hlevel : s.level ≤ 5) :
    ∃ b s' T', fbInsert alloc s key d = some (b, s') ∧ Inv s' T' ∧
      InsertResult (whole T) (whole T') key d b := by
  obtain ⟨path, p, rfl, hr, ht⟩ := fbTraverse_spec h.shape h.order hk
  cases path with
  | top =>
    have hlevel : s.level = 0 := h.shape.level
    obtain ⟨b, s', htry, hsound, -⟩ := fbInsertTry_empty (d := d) (hfresh _) h.sound hk hlevel
    have ho : Ordered True unmarked IsKey (node b [(key, data d)]) :=
      ordered_leaf.mpr ⟨List.pairwise_singleton _ _, by simp [unmarked], by simpa using hk⟩
    refine ⟨true, s', _, ?_, hsound.inv ho, Or.inr ⟨rfl, [], [], rfl, rfl, by simp, by simp⟩⟩
    refine fbInsert_of_try (Or.inl ?_) htry (by simp) (by simp)
    simp [fbInsertTry, hlevel]
  | step a pre k post up =>
    rw [Path.positions] at ht
    simp only [leafCovers, ht, decide_eq_true_eq] at hcover
    have hroom := room_of_first h hr hcover
    by_cases hkey : k = key
    · refine ⟨false, s, _, ?_, h, Or.inl ⟨rfl, rfl, p, ?_⟩⟩
      · exact fbInsert_of_try (fbInsertTry_lock h.sound ht fun hne => absurd hkey hne)
          (fbInsertTry_dup h.sound ht hkey) (by simp) (by simp)
      · rw [whole_cursor]
        simp [hkey]
    · by_cases hwidth : pre.length + post.length + 1 = 128
      · obtain ⟨hsmo, s₀, s₁, path', hretry, hres, hsound₁, -⟩ :=
          fbInsertTry_full (d := d) h.sound ht hfresh hkey hwidth hlevel
        obtain ⟨ho₁, hroomier⟩ := hres.order h.order
        cases path' with
        | top => exact absurd hres.used (by simp [Path.width])
        | step a' pre' k' post' up' =>
          obtain rfl : k' = k := hres.sited.key_eq
          have hroom' := hroomier True key hroom
          have ht' := fbTraverse_eq hsound₁.shape.around ho₁ (room_weaken hroom')
          obtain ⟨b, s', htry, hsound, -⟩ :=
            fbInsertTry_leaf hsound₁ ht' (hfresh _) d hkey hk hres.room
          refine ⟨true, s', _, ?_, hsound.inv (ordered_insert b d ho₁ hroom' hkey),
            Or.inr ⟨rfl, ?_⟩⟩
          · rw [fbInsert, retryLoop_smo _ 2 hsmo, retryLoop_retry _ 1 hretry]
            exact retryLoop_done (fun s smoLock => fbInsertTry alloc s key d smoLock) 0 htry
              (by simp) (by simp)
          · rw [← hres.sited.whole_eq]
            exact inserted_at_cursor ho₁ hroom' hkey
      · have hfull := mt (full_iff_width h.shape h.sound.keys).mp hwidth
        have hle := width_le h.shape.around
        obtain ⟨b, s', htry, hsound, -⟩ :=
          fbInsertTry_leaf h.sound ht (hfresh _) d hkey hk (by omega)
        refine ⟨true, s', _, ?_, hsound.inv (ordered_insert b d h.order hroom hkey),
          Or.inr ⟨rfl, inserted_at_cursor h.order hroom hkey⟩⟩
        exact fbInsert_of_try (fbInsertTry_lock h.sound ht fun _ => hfull) htry (by simp) (by simp)

end YwStorage.FbTree
