import YwStorage.FbTree.Accounts
import YwStorage.FbTree.Failure
import YwStorage.FbTree.Stale

/-!
What `fb_insert` and `fb_remove` do with `FB_NIL_KEY`, the key of the slots that are not in use.
The search for it ends at the last slot of every node.
-/
namespace YwStorage.FbTree
open Programs MultiTree SortedMap Supply

/-- The child word of a slot that is not in use is left over from an earlier use of the node. The
traversal follows no such word. -/
def Readable (s : Fb) (key : ℕ) : Prop :=
  ∀ pos ∈ (fbTraverse s key).1.tail, (s.mem pos.1).key pos.2 ≠ fbNilKey

instance (s : Fb) (key : ℕ) : Decidable (Readable s key) :=
  inferInstanceAs (Decidable (∀ pos ∈ _, _))

/-- `_fb_insert` of the key. It has no result if it follows a word that is left over. -/
def Fbt.insertNil (supply : Finset ℕ → Option ℕ) (d : ℕ) (t : Fbt) (smoLock : Bool) :
    Option (Option FbResult × Fbt) :=
  if Readable t.toFb fbNilKey then t.insertTry supply fbNilKey d smoLock else none

/-- `_fb_remove` of the key -/
def Fbt.removeNil (supply : Finset ℕ → Option ℕ) (t : Fbt) (smoLock : Bool) :
    Option (Option FbResult × Fbt) :=
  if Readable t.toFb fbNilKey then t.removeTry supply fbNilKey smoLock else none

/-- The call returns false and leaves the level, the pairs and the count of the keys as they are. -/
def Rejects (try' : Fbt → Bool → Option (Option FbResult × Fbt)) (t : Fbt) : Prop :=
  ∃ turns t', Fbt.retryLoop try' turns t false = some (false, t') ∧
    t'.level = t.level ∧ t'.toFb.pairs = t.toFb.pairs ∧ t'.keyCount = t.keyCount

variable {supply : Finset ℕ → Option ℕ} {t t' t₁ : Fbt} {s : Fb} {R : Multiset ℕ}
  {T : Σ N, Node ℕ ℕ N} {smoLock : Bool} {a k p key d n next idx fbn : ℕ}
  {es : List (ℕ × Node ℕ ℕ 0)} {up : Path ℕ ℕ 1}

section Traverse

/-- No key is above the key of an unused slot, so that the search always goes right. -/
theorem fbSearchInNode_nil {keyArray : ℕ → ℕ} (h : ∀ i, i < 128 → keyArray i ≤ fbNilKey) :
    fbSearchInNode keyArray fbNilKey = 127 := by
  have hloop : ∀ m fuel idx, m < fuel → idx + 2 ^ m ≤ 128 →
      searchLoop keyArray fbNilKey fuel (2 ^ m) idx = idx + 2 ^ m - 1 := by
    intro m
    induction m with
    | zero =>
      intro fuel idx hfuel hidx
      obtain ⟨f, rfl⟩ := Nat.exists_eq_succ_of_ne_zero (Nat.ne_of_gt hfuel)
      simp [searchLoop]
    | succ m ih =>
      intro fuel idx hfuel hidx
      obtain ⟨f, rfl⟩ := Nat.exists_eq_succ_of_ne_zero (show fuel ≠ 0 by omega)
      have hpos : 0 < 2 ^ m := Nat.two_pow_pos m
      have hhalf : 2 ^ (m + 1) / 2 = 2 ^ m := by rw [pow_succ]; omega
      rw [pow_succ] at hidx
      simp only [searchLoop, hhalf]
      rw [if_pos (by omega), if_pos (h _ (by omega)), ih f _ (by omega) (by omega), pow_succ]
      omega
  exact hloop 7 128 0 (by decide) (by decide)

theorem traverseLoop_front (s : Fb) (key i node : ℕ) (ps : List (ℕ × ℕ)) :
    ∃ front, (traverseLoop s key i node ps).1 = front ++ ps ∧ front.length = i := by
  induction i generalizing node ps with
  | zero => exact ⟨[], rfl, rfl⟩
  | succ i ih =>
    obtain ⟨front, hfront, hlen⟩ := ih _ ((node, fbSearchInNode (s.mem node).key key) :: ps)
    refine ⟨front ++ [(node, fbSearchInNode (s.mem node).key key)], ?_, by simp [hlen]⟩
    rw [traverseLoop, hfront, List.append_assoc, List.singleton_append]

theorem keys_le_nil {nd : FbNode} {ws : List (ℕ × ℕ)} (h : Fits nd ws)
    (hk : ∀ w ∈ ws, w.1 < fbNilKey) (i : ℕ) (hi : i < 128) : nd.key i ≤ fbNilKey := by
  rcases Nat.lt_or_ge i ws.length with hlt | hge
  · rw [(h.slot i _ (List.getElem?_eq_getElem hlt)).1]
    exact (hk _ (List.getElem_mem hlt)).le
  · exact (h.tail i hge hi).le

/-- The last slot of a node that is full. -/
theorem last_slot {path : Path ℕ ℕ (n + 1)} {es : List (ℕ × Node ℕ ℕ n)}
    (h : Shape s R (plug path (node a es))) (hk : AllKeys IsKey (plug path (node a es)).2)
    (hused : (s.mem a).isFullNode) :
    ∃ pre e, es = pre ++ [e] ∧ pre.length = 127 ∧ (s.mem a).child 127 = ptr e.2 := by
  have hfits := h.tree.1.1
  have hwidth : (words es).length = 128 := (hfits.full_iff (keys_lt_nil hk)).mp hused
  rw [length_words] at hwidth
  obtain ⟨pre, e, post, rfl, hpre⟩ := exists_cut (show 127 < es.length by omega)
  obtain rfl : post = [] := by
    rw [List.length_append, List.length_cons] at hwidth
    exact List.length_eq_zero_iff.mp (by omega)
  rw [words_append, words_cons] at hfits
  have hchild := hfits.child_at
  rw [length_words, hpre] at hchild
  exact ⟨pre, e, rfl, hpre, hchild⟩

/-- The way down along the last slots, as long as they are in use. -/
theorem traverseLoop_nil (path : Path ℕ ℕ (n + 1)) {x : Node ℕ ℕ (n + 1)}
    (h : Shape s R (plug path x)) (hk : AllKeys IsKey (plug path x).2) (hall : allFull path = true)
    (hread : ∀ pos ∈ (traverseLoop s fbNilKey (n + 1) (ptr x) path.positions).1.tail,
      (s.mem pos.1).key pos.2 ≠ fbNilKey) :
    ∃ a es, ∃ up : Path ℕ ℕ 1, plug up (node a es) = plug path x ∧ allFull up = true ∧
      traverseLoop s fbNilKey (n + 1) (ptr x) path.positions =
        ((a, 127) :: up.positions, (s.mem a).child 127) := by
  induction n with
  | zero =>
    obtain ⟨a, es, rfl⟩ := exists_node x
    have hfits := h.tree.1.1
    have hsearch := fbSearchInNode_nil (keys_le_nil hfits (keys_lt_nil hk))
    refine ⟨a, es, path, rfl, hall, ?_⟩
    rw [ptr_node, traverseLoop, traverseLoop, hsearch]
  | succ n ih =>
    obtain ⟨a, es, rfl⟩ := exists_node x
    have hfits := h.tree.1.1
    have hkeys := keys_lt_nil hk
    have hsearch := fbSearchInNode_nil (keys_le_nil hfits hkeys)
    rw [ptr_node, traverseLoop, hsearch] at hread ⊢
    have hused : (s.mem a).key 127 ≠ fbNilKey := by
      obtain ⟨front, hfront, hlen⟩ := traverseLoop_front s fbNilKey (n + 1) ((s.mem a).child 127)
        ((a, 127) :: path.positions)
      rw [hfront] at hread
      cases front with
      | nil => cases hlen
      | cons pos front => exact hread (a, 127) (by simp)
    obtain ⟨pre, e, rfl, hpre, hchild⟩ := last_slot h hk hused
    rw [hchild] at hread ⊢
    have hall' : allFull (.step a pre e.1 [] path) = true := by simp [allFull, hpre, hall]
    have hpos : (Path.step a pre e.1 [] path).positions = (a, 127) :: path.positions := by
      rw [Path.positions, hpre]
    rw [← hpos] at hread ⊢
    exact ih (.step a pre e.1 [] path) h hk hall' hread

/-- What the traversal for the key finds in a tree. -/
theorem nil_path (h : Sound s T) (hlevel : s.level ≠ 0) (hread : Readable s fbNilKey) :
    ∃ a es, ∃ up : Path ℕ ℕ 1, T = plug up (node a es) ∧ allFull up = true ∧
      fbTraverse s fbNilKey = ((a, 127) :: up.positions, (s.mem a).child 127) := by
  obtain ⟨N, x⟩ := T
  have hN : s.level = N := h.shape.level
  obtain ⟨m, rfl⟩ := Nat.exists_eq_succ_of_ne_zero (hN ▸ hlevel)
  have hroot : s.root = ptr x := h.shape.root
  rw [Readable, fbTraverse, hN, hroot] at hread
  obtain ⟨a, es, up, hplug, hall, ht⟩ := traverseLoop_nil (x := x) .top h.shape h.keys rfl hread
  exact ⟨a, es, up, hplug.symm, hall, by rw [fbTraverse, hN, hroot]; exact ht⟩

end Traverse

/-- The leaf that the traversal for the key comes to is full. -/
def LeafFull (s : Fb) : Prop :=
  ∀ pos ∈ (fbTraverse s fbNilKey).1.head?, (s.mem pos.1).isFullNode

section Leaf
variable (h : Sound s T) (hlevel : s.level ≠ 0) (hread : Readable s fbNilKey)
include h hlevel hread

theorem full_leaf (hfull : LeafFull s) :
    ∃ a pre k p, ∃ up : Path ℕ ℕ 1, Sound s (plug (.step a pre k [] up) (data p)) ∧
      fbTraverse s fbNilKey = ((a, pre.length) :: up.positions, p) ∧ k ≠ fbNilKey ∧
      allFull (.step a pre k [] up) = true := by
  obtain ⟨a, es, up, rfl, hall, ht⟩ := nil_path h hlevel hread
  have hused : (s.mem a).isFullNode := by
    rw [LeafFull, ht] at hfull
    exact hfull (a, 127) rfl
  obtain ⟨pre, ⟨k, x⟩, rfl, hpre, hchild⟩ := last_slot h.shape h.keys hused
  refine ⟨a, pre, k, ptr x, up, h, ?_, ?_, by simp [allFull, hpre, hall]⟩
  · rw [ht, hpre, hchild]
  · exact (keys_lt_nil h.keys (k, ptr x) (by simp [words])).ne

theorem unused_leaf (hfull : ¬ LeafFull s) :
    ∃ a es, ∃ up : Path ℕ ℕ 1, Sound s (plug up (node a es)) ∧ allFull up = true ∧
      fbTraverse s fbNilKey = ((a, 127) :: up.positions, (s.mem a).child 127) ∧
      (s.mem a).key 127 = fbNilKey := by
  obtain ⟨a, es, up, rfl, hall, ht⟩ := nil_path h hlevel hread
  refine ⟨a, es, up, h, hall, ht, ?_⟩
  by_contra hused
  refine hfull ?_
  rw [LeafFull, ht]
  rintro pos ⟨⟩
  exact hused

end Leaf

section Reading
variable {try' : Fbt → Bool → Option (Option FbResult × Fbt)}

theorem insertNil_eq (h : Readable t.toFb fbNilKey) :
    t.insertNil supply d smoLock = t.insertTry supply fbNilKey d smoLock := if_pos h

theorem removeNil_eq (h : Readable t.toFb fbNilKey) :
    t.removeNil supply smoLock = t.removeTry supply fbNilKey smoLock := if_pos h

theorem readable_empty (h : t.level = 0) : Readable t.toFb key := by
  have hlevel : t.toFb.level = 0 := h
  simp [Readable, fbTraverse, hlevel, traverseLoop]

theorem not_rejects_of_none (h : try' t false = none) : ¬ Rejects try' t := by
  rintro ⟨turns, t', hloop, -⟩
  cases turns with
  | zero => cases hloop
  | succ fuel =>
    rw [Fbt.retryLoop, h] at hloop
    cases hloop

/-- A call that finds nothing to do leaves the tree as it is. -/
theorem rejects_of_same (hlow : t.level ≤ 1 → try' t false = some (some .smo, t))
    (h : ∀ smoLock, smoLock = true ∨ 1 < t.level →
      try' t smoLock = some (some .dup, t) ∨ try' t smoLock = some (some .fail, t)) :
    Rejects try' t := by
  have hsame : ∀ smoLock, smoLock = true ∨ 1 < t.level →
      Fbt.retryLoop try' 1 t smoLock = some (false, t) := fun smoLock hgo =>
    loop_false (.inr (h smoLock hgo))
  by_cases hlevel : t.level ≤ 1
  · refine ⟨2, t, ?_, rfl, rfl, rfl⟩
    rw [loop_smo (hlow hlevel)]
    exact hsame true (.inl rfl)
  · exact ⟨1, t, hsame false (.inr (not_le.mp hlevel)), rfl, rfl, rfl⟩

/-- A call that is sent back takes its next turn alone. -/
theorem exclusive_turn {turns : ℕ} (hsmo : try' t false = some (some .smo, t))
    (hloop : Fbt.retryLoop try' turns t false = some (false, t')) :
    ∃ fuel, Fbt.retryLoop try' (fuel + 1) t true = some (false, t') := by
  cases turns with
  | zero => cases hloop
  | succ turns =>
    rw [loop_smo hsmo] at hloop
    cases turns with
    | zero => cases hloop
    | succ fuel => exact ⟨fuel, hloop⟩

end Reading

section Unused
variable (h : Sound t.toFb (plug up (node a es)))
include h

theorem level_ne_zero_node : t.level ≠ 0 := by
  have hlevel : t.level = 1 + up.length := h.shape.around.level
  omega

theorem address_ne_nil : a ≠ fbNilNode := h.shape.ne_nil (by rw [addrs_plug]; simp [addrs_node])

theorem smoCheck_unused :
    fbSmoCheck t.toFb ((a, 127) :: up.positions) ((t.mem a).child 127) = false := by
  have hup : fbSmoCheck t.toFb up.positions a = false := fbSmoCheck_eq h.shape.around
  have hchild : (t.toFb.mem a).child 127 = (t.mem a).child 127 := rfl
  simp [fbSmoCheck, hup, hchild]

end Unused

section Insert

/-- A slot that is not in use has the key, too. -/
theorem insertTry_unused (h : Sound t.toFb (plug up (node a es)))
    (ht : fbTraverse t.toFb fbNilKey = ((a, 127) :: up.positions, (t.mem a).child 127))
    (hkey : (t.mem a).key 127 = fbNilKey) (hgo : smoLock = true ∨ 1 < t.level) :
    t.insertTry supply fbNilKey d smoLock = some (some .dup, t) := by
  refine run_of_wp ((wp_insertAt (level_ne_zero_node h) hgo ht (smoCheck_unused h)).mpr ?_)
  rw [if_pos hkey]
  exact ⟨rfl, rollback_start t smoLock []⟩

variable {pre : List (ℕ × Node ℕ ℕ 0)}

/-- A split all the way up needs room for all nodes but the root. -/
theorem insertTry_deep (h : Sound t.toFb (plug (.step a pre k [] up) (data p)))
    (ht : fbTraverse t.toFb key = ((a, pre.length) :: up.positions, p))
    (hfresh : FreshSupply supply) (hkey : k ≠ key)
    (hall : allFull (.step a pre k [] up) = true) (hlow : 6 ≤ t.level) (hlevel : t.level ≤ 9) :
    ∃ t', t.insertTry supply key d true = some (none, t') ∧ Intact t t' ∧
      t'.keyCount = t.keyCount := by
  have hwidth : pre.length + ([] : List (ℕ × Node ℕ ℕ 0)).length + 1 = 128 := by
    rw [allFull, Bool.and_eq_true, beq_iff_eq] at hall
    exact hall.1
  have hfull : (t.mem a).isFullNode := (full_iff_width h.shape h.keys).mpr hwidth
  have hreach := reached_start h ht hwidth hlevel
  have hlen : t.level = 0 + (Path.step a pre k [] up).length := h.shape.around.level
  have hrun := fullRun_of_allFull hall
  have hwp : Wp (Fbs.fbInsertBody supply key d true) (.start t true) (fun _ _ => False)
      (fun s' => SplitFailed supply ((Fbs.start t true).lock a) s' (.step a pre k [] up) 0) := by
    refine (wp_fbInsertBody h ht (.inl rfl)).mpr ?_
    rw [if_neg hkey, if_pos hfull, if_neg (by simp)]
    refine (wp_fbSplitNode hfresh _ hreach).mono (fun stack' s' hd => ?_) fun _ hd => hd
    have hfree := hd.free
    have hfew := hd.few
    rw [hall, Bool.toNat_true] at hfree
    omega
  rcases run_cases hwp with ⟨_, _, hfalse, -⟩ | ⟨_, _, hfalse, -⟩ | ⟨s', hd, hcall⟩
  · exact hfalse.elim
  · exact hfalse.elim
  · have hlater := (later_lock a).trans hd.effect.later
    refine ⟨s'.rollback, hcall, intact_rollback hlater (hd.effect.kept (.inl ?_)) hd.effect.buf,
      hlater.keyCount⟩
    rw [List.getElem?_eq_none_iff, length_positions]
    omega

/-- A tree whose last slots are all in use grows. -/
theorem insertTry_grows (h : Sound t.toFb (plug (.step a pre k [] up) (data p)))
    (ht : fbTraverse t.toFb key = ((a, pre.length) :: up.positions, p)) (hkey : k ≠ key)
    (hall : allFull (.step a pre k [] up) = true) (hlevel : t.level ≤ 5) :
    ∃ t₁ T', t.insertTry endless key d true = some (some .retry, t₁) ∧ Sound t₁.toFb T' ∧
      t₁.level = t.level + 1 := by
  have hwidth : pre.length + ([] : List (ℕ × Node ℕ ℕ 0)).length + 1 = 128 := by
    rw [allFull, Bool.and_eq_true, beq_iff_eq] at hall
    exact hall.1
  rcases insertTry_full (d := d) h ht freshSupply_endless hkey hwidth (by omega) with
    ⟨-, t₁, htry, -, s₁, path', hcommit, htree, -⟩ | ⟨_, -, -, -, hnone⟩
  · obtain ⟨s', hcommit', hsound, -⟩ := commit_sound htree.shape htree.keys
    obtain rfl : t₁.toFb = s' := Option.some.inj (hcommit.symm.trans hcommit')
    have hlen : t.level = 0 + (Path.step a pre k [] up).length := h.shape.around.level
    have hlen' : t₁.level = 0 + path'.length := hsound.shape.around.level
    rw [htree.length, hall, Bool.toNat_true] at hlen'
    exact ⟨t₁, _, htry, hsound, by omega⟩
  · obtain ⟨live, hlive⟩ := hnone hlevel
    exact absurd hlive (total_endless live)

/-- The exclusive turns of `fb_insert` never take levels away. -/
theorem loop_level {fuel : ℕ} (h : Sound t.toFb T) (hpos : t.level ≠ 0) (hlevel : t.level ≤ 9)
    (hloop : Fbt.retryLoop (Fbt.insertNil endless d) fuel t true = some (false, t')) :
    t.level ≤ t'.level := by
  induction fuel generalizing t T with
  | zero => cases hloop
  | succ fuel ih =>
    by_cases hread : Readable t.toFb fbNilKey
    · by_cases hfull : LeafFull t.toFb
      · obtain ⟨a, pre, k, p, up, hs, ht, hkey, hall⟩ := full_leaf h hpos hread hfull
        by_cases hdeep : 6 ≤ t.level
        · obtain ⟨t₁, htry, hintact, -⟩ := insertTry_deep (d := d) hs ht freshSupply_endless hkey
            hall hdeep hlevel
          rw [loop_false (.inl ((insertNil_eq hread).trans htry))] at hloop
          cases hloop
          exact hintact.level.ge
        · obtain ⟨t₁, T', htry, hs₁, hlevel₁⟩ := insertTry_grows (d := d) hs ht hkey hall (by omega)
          rw [loop_retry ((insertNil_eq hread).trans htry)] at hloop
          have := ih hs₁ (by omega) (by omega) hloop
          omega
      · obtain ⟨a, es, up, hs, -, ht, hkey⟩ := unused_leaf h hpos hread hfull
        have htry : t.insertTry endless fbNilKey d true = some (some .dup, t) :=
          insertTry_unused hs ht hkey (.inl rfl)
        rw [loop_false (.inr (.inl ((insertNil_eq hread).trans htry)))] at hloop
        cases hloop
        exact le_rfl
    · rw [Fbt.retryLoop, Fbt.insertNil, if_neg hread] at hloop
      cases hloop

end Insert

section Remove
variable {pre : List (ℕ × Node ℕ ℕ 0)}

/-- Where the last slots above the leaf are all in use, the loop goes up one node at most. -/
theorem wp_removeUnused (h : Sound t.toFb (plug (.step a pre k [] up) (data p)))
    (hall : allFull up = true) (hgo : smoLock = true ∨ 1 < t.level ∧ ¬ (t.mem a).remainOneKey)
    (hlevel : t.level ≤ 9) :
    Wp (Fbs.fbRemoveLoop endless smoLock ((a, 127) :: up.positions))
      ((Fbs.start t smoLock).lock a)
      (fun _ s' => Later ((Fbs.start t smoLock).lock a) s' ∧ s'.freeNode.Nodup ∧
        ∀ b ∈ s'.freeNode, b ∈ s'.fbt.live)
      (fun _ => False) := by
  have hstart := freeing_start h hgo hlevel
  by_cases hone : (t.mem a).remainOneKey
  · have hsmo : smoLock = true := hgo.resolve_right fun hgo => hgo.2 hone
    subst hsmo
    obtain ⟨hnodup, -⟩ := hstart.nodup
    have hfree := hstart.free_live
    have halive := hstart.live a (by simp [Path.addrs])
    have hone' : (((Fbs.start t true).lock a).fbt.mem a).remainOneKey := hone
    obtain ⟨rfl, -⟩ := nil_of_no_entries ((remainOne_iff_width hstart.around hstart.keys).mp hone')
    rw [Fbs.fbRemoveLoop]
    simp only [wp_bind, wp_fetch, hone', if_true, wp_assert, true_and]
    refine Fbs.wp_fbFreeNode (mem_lock _ a) halive
      (fun hfull => absurd hfull (show ¬ 8 ≤ 0 by decide)) fun _ => ?_
    cases up with
    | top =>
      simp only [Path.positions, if_true, Fbs.fbChangeRoot, wp_bind, wp_fetch, wp_assert, wp_put,
        true_and]
      exact ⟨rfl, (later_push a).trans (later_setRoot _ _), hnodup, hfree⟩
    | step a' pre' k' post' up =>
      have hnext := hstart.next
      have hmore : ¬ (((((Fbs.start t true).lock a).push a).lock a').fbt.mem a').remainOneKey := by
        intro hlast
        have hw : pre'.length + post'.length = 0 :=
          (remainOne_iff_width hnext.around hnext.keys).mp hlast
        rw [allFull, Bool.and_eq_true, beq_iff_eq] at hall
        have hwide : pre'.length + post'.length + 1 = 128 := hall.1
        omega
      have hw := width_le hnext.around
      simp only [Path.positions, reduceCtorEq, if_false, wp_bind]
      refine Fbs.wp_wLock (fun hlocked => ?_) fun _ => ?_
      · have hlocked : 16 ≤ 1 := hlocked
        omega
      · refine (wp_removeSlot freshSupply_endless hnext hmore (by omega)).mono
          (fun _ s' hd => ⟨?_, hd.2.1, hd.2.2.1⟩) fun s' hd => ?_
        · exact (later_push a).trans ((later_lock a').trans hd.1)
        · obtain ⟨live, hlive⟩ := hd.2 (show 1 < 8 by decide)
          exact total_endless live hlive
  · refine (wp_removeSlot freshSupply_endless hstart hone (by decide)).mono
      (fun _ s' hd => ⟨hd.1, hd.2.1, hd.2.2.1⟩) fun s' hd => ?_
    obtain ⟨live, hlive⟩ := hd.2 (show 0 < 8 by decide)
    exact total_endless live hlive

/-- A slot that is not in use is removed. -/
theorem removeTry_unused (h : Sound t.toFb (plug up (node a es))) (hall : allFull up = true)
    (ht : fbTraverse t.toFb fbNilKey = ((a, 127) :: up.positions, (t.mem a).child 127))
    (hkey : (t.mem a).key 127 = fbNilKey)
    (hgo : smoLock = true ∨ 1 < t.level ∧ ¬ (t.mem a).remainOneKey) (hlevel : t.level ≤ 9) :
    ∃ t', t.removeTry endless fbNilKey smoLock = some (some .success, t') := by
  have hne : es ≠ [] := by
    have := h.shape.tree.1.2
    rintro rfl
    exact this rfl
  obtain ⟨pre, ⟨k, x⟩, rfl⟩ : ∃ pre e, es = pre ++ [e] := by
    simpa only [List.concat_eq_append] using (List.eq_nil_or_concat es).resolve_left hne
  have hone : ¬ (smoLock = false ∧ (t.mem a).remainOneKey) := by
    rintro ⟨rfl, hone⟩
    rcases hgo with hgo | hgo
    · cases hgo
    · exact hgo.2 hone
  have hwp : Wp (Fbs.fbRemoveBody endless fbNilKey smoLock) (.start t smoLock)
      (fun rc _ => rc = (.success, true)) (fun _ => False) := by
    refine (wp_removeAt (level_ne_zero_node h) (hgo.imp id And.left) (address_ne_nil h)
      ht (smoCheck_unused h)).mpr ?_
    rw [if_neg (by simp [hkey]), if_neg hone]
    have hs : Sound t.toFb (plug (.step a pre k [] up) (data (ptr x))) := h
    refine (wp_removeUnused hs hall hgo hlevel).mono (fun _ s' hd => ?_) fun _ hfalse => hfalse
    obtain ⟨hlater, hnodup, hlive⟩ := hd
    simp only [Fbs.finish, wp_bind, wp_fetch, wp_put, wp_pure]
    exact Fbs.wp_commit hnodup hlive trivial
  rcases run_cases hwp with ⟨_, s', ⟨⟩, hcall⟩ | ⟨_, _, ⟨⟩, -⟩ | ⟨_, hfalse, -⟩
  · exact ⟨s'.fbt, hcall⟩
  · exact hfalse.elim

end Remove

theorem rejects_of_intact {try' : Fbt → Bool → Option (Option FbResult × Fbt)}
    (h : Sound t.toFb T) (hsmo : try' t false = some (some .smo, t))
    (htry : try' t true = some (none, t')) (hintact : Intact t t')
    (hcount : t'.keyCount = t.keyCount) : Rejects try' t := by
  refine ⟨2, t', ?_, hintact.level, (unharmed_of_sound h (hintact.sound h) rfl).1, hcount⟩
  rw [loop_smo hsmo]
  exact loop_false (.inl htry)

theorem insert_rejected_iff (h : Sound t.toFb T) (hlevel : t.level ≤ 9) :
    (∀ supply, FreshSupply supply → Rejects (Fbt.insertNil supply d) t) ↔
      t.level ≠ 0 ∧ Readable t.toFb fbNilKey ∧ (LeafFull t.toFb → 6 ≤ t.level) := by
  constructor
  · intro hrej
    have hrej := hrej endless freshSupply_endless
    have hread : Readable t.toFb fbNilKey := by
      by_contra hread
      exact not_rejects_of_none (if_neg hread) hrej
    obtain ⟨turns, t', hloop, hlevel', -⟩ := hrej
    have hearly : t.level ≤ 1 → t.insertNil endless d false = some (some .smo, t) := fun hlow =>
      (insertNil_eq hread).trans (insertTry_early hlow)
    have hpos : t.level ≠ 0 := by
      intro hempty
      obtain ⟨fuel, hloop⟩ := exclusive_turn (hearly (by omega)) hloop
      have hcall : Outcome (t.insertTry endless fbNilKey d true) t _ .success 1 _ :=
        insertTry_empty freshSupply_endless h hempty
      rcases hcall with ⟨t₁, htry, -⟩ | ⟨_, -, hnone, -⟩
      · rw [loop_true ((insertNil_eq hread).trans htry)] at hloop
        cases hloop
      · exact total_endless _ hnone
    refine ⟨hpos, hread, fun hfull => ?_⟩
    by_contra hlow
    obtain ⟨a, pre, k, p, up, hs, ht, hkey, hall⟩ := full_leaf h hpos hread hfull
    obtain ⟨t₁, T', htry, hs₁, hlevel₁⟩ := insertTry_grows (d := d) hs ht hkey hall (by omega)
    have hsmo : t.insertNil endless d false = some (some .smo, t) := by
      by_cases hearly' : t.level ≤ 1
      · exact hearly hearly'
      · have hwide : (t.mem a).isFullNode := by
          rw [LeafFull, ht] at hfull
          exact hfull (a, pre.length) rfl
        exact (insertNil_eq hread).trans (insertTry_smo hs ht (by omega) hkey hwide)
    obtain ⟨fuel, hloop⟩ := exclusive_turn hsmo hloop
    rw [loop_retry ((insertNil_eq hread).trans htry)] at hloop
    have := loop_level hs₁ (by omega) (by omega) hloop
    omega
  · rintro ⟨hpos, hread, hdeep⟩ supply hfresh
    by_cases hfull : LeafFull t.toFb
    · obtain ⟨a, pre, k, p, up, hs, ht, hkey, hall⟩ := full_leaf h hpos hread hfull
      have hlow := hdeep hfull
      have hwide : (t.mem a).isFullNode := by
        rw [LeafFull, ht] at hfull
        exact hfull (a, pre.length) rfl
      obtain ⟨t', htry, hintact, hcount⟩ :=
        insertTry_deep (d := d) hs ht hfresh hkey hall hlow hlevel
      exact rejects_of_intact h
        ((insertNil_eq hread).trans (insertTry_smo hs ht (by omega) hkey hwide))
        ((insertNil_eq hread).trans htry) hintact hcount
    · obtain ⟨a, es, up, hs, -, ht, hkey⟩ := unused_leaf h hpos hread hfull
      refine rejects_of_same (fun hlow => (insertNil_eq hread).trans (insertTry_early hlow))
        fun smoLock hgo => .inl ?_
      exact (insertNil_eq hread).trans (insertTry_unused hs ht hkey hgo)

theorem remove_rejected_iff (h : Sound t.toFb T) (hlevel : t.level ≤ 9) :
    (∀ supply, FreshSupply supply → Rejects (Fbt.removeNil supply) t) ↔
      t.level = 0 ∨ Readable t.toFb fbNilKey ∧ LeafFull t.toFb := by
  constructor
  · intro hrej
    have hrej := hrej endless freshSupply_endless
    have hread : Readable t.toFb fbNilKey := by
      by_contra hread
      exact not_rejects_of_none (if_neg hread) hrej
    by_contra hcase
    rw [not_or, not_and] at hcase
    obtain ⟨hpos, hfull⟩ := hcase
    obtain ⟨a, es, up, hs, hall, ht, hkey⟩ := unused_leaf h hpos hread (hfull hread)
    obtain ⟨turns, t', hloop, -⟩ := hrej
    have hlock : t.removeNil endless false ≠ some (some .smo, t) := by
      intro hsmo
      obtain ⟨fuel, hloop⟩ := exclusive_turn hsmo hloop
      obtain ⟨t₁, htry⟩ := removeTry_unused hs hall ht hkey (.inl rfl) hlevel
      rw [loop_true ((removeNil_eq hread).trans htry)] at hloop
      cases hloop
    rw [removeNil_eq hread] at hlock
    have hlow : 1 < t.level := not_le.mp fun hlow => hlock (removeTry_early hlow)
    have hmore : ¬ (t.mem a).remainOneKey := fun hone =>
      hlock (removeTry_again hlow (address_ne_nil hs) ht (smoCheck_unused hs) hkey hone)
    obtain ⟨t₁, htry⟩ := removeTry_unused hs hall ht hkey (.inr ⟨hlow, hmore⟩) hlevel
    cases turns with
    | zero => cases hloop
    | succ fuel =>
      rw [loop_true ((removeNil_eq hread).trans htry)] at hloop
      cases hloop
  · rintro hcase supply hfresh
    have hread : Readable t.toFb fbNilKey := hcase.elim readable_empty And.left
    refine rejects_of_same (fun hlow => (removeNil_eq hread).trans (removeTry_early hlow))
      fun smoLock hgo => .inr ?_
    rw [removeNil_eq hread]
    by_cases hpos : t.level = 0
    · obtain rfl : smoLock = true := hgo.resolve_right (by omega)
      exact removeTry_empty hpos
    · obtain ⟨a, pre, k, p, up, hs, ht, hkey, -⟩ :=
        full_leaf h hpos hread (hcase.resolve_left hpos).2
      exact removeTry_absent hs ht hgo hkey

/-- The reserved key is inserted into an empty tree and splits a full tree of up to 5 levels; it is
removed from a leaf with a free slot. -/
theorem nilKey_rejected_iff (h : Sound t.toFb T) (hlevel : t.level ≤ 9) (d : ℕ) :
    ((∀ supply, FreshSupply supply → Rejects (Fbt.insertNil supply d) t) ↔
      t.level ≠ 0 ∧ Readable t.toFb fbNilKey ∧ (LeafFull t.toFb → 6 ≤ t.level)) ∧
    ((∀ supply, FreshSupply supply → Rejects (Fbt.removeNil supply) t) ↔
      t.level = 0 ∨ Readable t.toFb fbNilKey ∧ LeafFull t.toFb) :=
  ⟨insert_rejected_iff h hlevel, remove_rejected_iff h hlevel⟩

section Example

/-- A leaf with the key 5. -/
def oneKey : Fbt where
  mem _ := ⟨fun i => [5].getD i fbNilKey, fun _ => 7⟩
  rootBuf _ := (1, 1)
  rootPtr := false
  live := {0, 1}
  rcu := []
  keyCount := 1
  nodeCount := 1
  freeNodeCount := 0

theorem oneKey_sound : Sound oneKey.toFb ⟨1, node 1 [(5, data 7)]⟩ := by
  have hleaf : Fits ⟨fun i => [5].getD i fbNilKey, fun _ => 7⟩ [(5, 7)] :=
    fits_getD [5] [7] _ (by simp) rfl fun i hi => by
      match i, hi with
      | 0, _ => rfl
  refine ⟨⟨rfl, rfl, ⟨⟨hleaf, by simp [words]⟩, fun _ _ => trivial⟩, by decide⟩, ?_, rfl⟩
  simp [AllKeys, node, IsKey, data, fbNilKey]

theorem oneKey_insert_rejected : Rejects (Fbt.insertNil endless 3) oneKey := by
  refine (nilKey_rejected_iff oneKey_sound (by decide) 3).1.mpr ⟨by decide, by decide +kernel, ?_⟩
    endless freshSupply_endless
  intro hfull
  exact absurd (hfull (1, 127) (by decide +kernel)) (by decide +kernel)

/-- An empty tree takes the reserved key in, and a tree with one key is emptied by removing it. -/
theorem nilKey_accepted :
    ((Fbt.retryLoop (Fbt.insertNil endless 7) 2 (Fbt.create oneKey.mem) false).map fun r =>
      (r.1, r.2.level, r.2.keyCount)) = some (true, 1, 1) ∧
    ((Fbt.retryLoop (Fbt.removeNil endless) 2 oneKey false).map fun r =>
      (r.1, r.2.level, r.2.keyCount)) = some (true, 0, 0) := by
  constructor <;> decide +kernel

end Example

end YwStorage.FbTree
