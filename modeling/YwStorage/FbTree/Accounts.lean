import YwStorage.FbTree.Calls
import YwStorage.Lib.Run

/-!
The counts of the tree over whole runs. They are exact until a full root is split: `fb_split_node`
puts a new root above the halves and nobody frees the old one.
-/
namespace YwStorage.FbTree
open MultiTree SortedMap Lts Supply

inductive Update
  | insert (key data : ℕ)
  | remove (key : ℕ)

def Update.key : Update → ℕ
  | .insert key _ => key
  | .remove key => key

/-- `_fb_insert` or `_fb_remove` -/
def Update.attempt (supply : Finset ℕ → Option ℕ) (t : Fbt) (smoLock : Bool) :
    Update → Option (Option FbResult × Fbt)
  | .insert key data => t.insertTry supply key data smoLock
  | .remove key => t.removeTry supply key smoLock

/-- The stack of the key has full nodes only. -/
def fullStack (t : Fbt) (key : ℕ) : Bool :=
  (fbTraverse t.toFb key).1.all fun pos => (t.mem pos.1).isFullNode

/-- The loop of a call, with the number of roots that it splits. All allocations succeed, and the
tree has at most five levels when a turn starts. -/
inductive Call (u : Update) : Fbt → Bool → ℕ → Bool → Fbt → Prop
  | done {supply : Finset ℕ → Option ℕ} {t t' : Fbt} {smoLock : Bool} {r : FbResult} :
      FreshSupply supply → (∀ live, supply live ≠ none) → t.level ≤ 5 →
      u.attempt supply t smoLock = some (some r, t') → r ≠ .smo → r ≠ .retry →
      Call u t smoLock 0 (r = .success) t'
  | smo {supply : Finset ℕ → Option ℕ} {t t₁ t' : Fbt} {n : ℕ} {b : Bool} :
      FreshSupply supply → (∀ live, supply live ≠ none) → t.level ≤ 5 →
      u.attempt supply t false = some (some .smo, t₁) → Call u t₁ true n b t' →
      Call u t false n b t'
  | retry {supply : Finset ℕ → Option ℕ} {t t₁ t' : Fbt} {smoLock b : Bool} {n : ℕ} :
      FreshSupply supply → (∀ live, supply live ≠ none) → t.level ≤ 5 →
      u.attempt supply t smoLock = some (some .retry, t₁) → Call u t₁ smoLock n b t' →
      Call u t smoLock ((fullStack t u.key).toNat + n) b t'

/-- A completed call: what was asked for, the answer and the number of roots it has split. -/
def CallStep (t : Fbt) (e : Update × Bool × ℕ) (t' : Fbt) : Prop :=
  IsKey e.1.key ∧ Call e.1 t false e.2.2 e.2.1 t'

/-- `fb_create` -/
def Fbt.create (mem : ℕ → FbNode) : Fbt :=
  ⟨mem, fun _ => (fbNilNode, 0), false, {fbNilNode}, [], 0, 0, 0⟩

/-- The counts of nodes and of keys are those of the tree. -/
def Exact (t : Fbt) : Prop :=
  t.nodeCount = Multiset.card t.toFb.nodes ∧ t.keyCount = t.toFb.pairs.length

/-- The nodes that the tree has lost are registered once. -/
def Registered (t t' : Fbt) : Prop :=
  ∀ a ∈ t.toFb.nodes, a ∉ t'.toFb.nodes → t'.rcu.count a = 1

/-- The books of a tree that has lost `n` roots. -/
structure Account (n : ℕ) (t : Fbt) (T : Σ N, Node ℕ ℕ N) : Prop where
  sound : Sound t.toFb T
  lost : lost t.toFb T = 1 + n
  keyCount : t.keyCount = (whole T).length
  nodeCount : t.nodeCount + 1 = t.live.card
  clean : Clean t

variable {supply : Finset ℕ → Option ℕ} {t t' : Fbt} {T T' : Σ N, Node ℕ ℕ N}
  {smoLock : Bool} {a k p key d n g : ℕ}

/-- One step of the books: `d` keys more and `g` roots lost. -/
theorem Account.step {d : ℤ} (h : Account n t T) (hb : Booked t t' d) (hs : Sound t'.toFb T')
    (hlost : FbTree.lost t'.toFb T' = FbTree.lost t.toFb T + g)
    (hd : ((whole T').length : ℤ) = (whole T).length + d) : Account (n + g) t' T' := by
  have hn := h.lost
  have hnodes := h.nodeCount
  have hnodes' := hb.nodeCount
  refine ⟨hs, ?_, ?_, ?_, hb.clean h.clean⟩
  · rw [hlost, hn]
    push_cast
    omega
  · rw [hb.keyCount, h.keyCount, hd]
  · omega

/-- A turn of a call that has ended. It has lost a root if it has split all nodes of its stack. -/
def Turn (n : ℕ) (t : Fbt) (key : ℕ) (r : Option FbResult) (t' : Fbt) : Prop :=
  ∃ r' T', r = some r' ∧ (∀ a, Known t a → Known t' a) ∧
    Account (n + if r' = .retry then (fullStack t key).toNat else 0) t' T'

section Turn
variable {call : Option (Option FbResult × Fbt)} {r : Option FbResult}

theorem turn_of_same {r' : FbResult} (h : Account n t T) (hsame : call = some (some r', t))
    (hne : r' ≠ .retry) (hcall : call = some (r, t')) : Turn n t key r t' := by
  obtain ⟨rfl, rfl⟩ := Prod.mk.inj (Option.some.inj (hcall.symm.trans hsame))
  refine ⟨r', T, rfl, fun _ => id, ?_⟩
  rw [if_neg hne]
  exact h

/-- The turn has ended with success. -/
def Succeeds (call : Option (Option FbResult × Fbt)) (n : ℕ) (t : Fbt) (T' : Σ N, Node ℕ ℕ N) :
    Prop :=
  ∃ t', call = some (some .success, t') ∧ Account n t' T' ∧ ∀ a, Known t a → Known t' a

theorem turn_of_succeeds (h : Succeeds call n t T') (hcall : call = some (r, t')) :
    Turn n t key r t' := by
  obtain ⟨t₁, hcall₁, hacc, hknown⟩ := h
  obtain ⟨rfl, rfl⟩ := Prod.mk.inj (Option.some.inj (hcall.symm.trans hcall₁))
  exact ⟨.success, T', rfl, hknown, hacc⟩

theorem succeeds_of_outcome {plain : Option (FbResult × Fb)} {s' : Fb} {c : ℤ} {why : Fbt → Prop}
    (h : Account n t T) (hout : Outcome call t plain .success c why) (hwhy : ∀ t', ¬ why t')
    (hplain : ∀ s₁, plain = some (.success, s₁) → s₁ = s') (hs : Sound s' T')
    (hlost : lost s' T' = lost t.toFb T)
    (hlen : ((whole T').length : ℤ) = (whole T).length + c) : Succeeds call n t T' := by
  rcases hout with ⟨t₁, hcall, hp, hb⟩ | ⟨t₁, -, hfail⟩
  · obtain rfl := hplain _ hp
    have hlost' : lost t₁.toFb T' = lost t.toFb T + (0 : ℕ) := by
      rw [hlost, Nat.cast_zero, add_zero]
    exact ⟨t₁, hcall, h.step hb hs hlost' hlen, hb.known⟩
  · exact absurd hfail (hwhy t₁)

end Turn

theorem success_unique {f : Bool → Option (FbResult × Fb)} {s s₁ s' : Fb}
    (h : f false = some (.smo, s) ∨ f false = f true) (hs : f true = some (.success, s'))
    (hs₁ : f smoLock = some (.success, s₁)) : s₁ = s' := by
  have hsame : f true = some (.success, s₁) := by
    cases smoLock with
    | true => exact hs₁
    | false =>
      rcases h with hsmo | heq
      · rw [hsmo] at hs₁
        cases hs₁
      · exact heq.symm.trans hs₁
  exact (Prod.mk.inj (Option.some.inj (hsame.symm.trans hs))).2

theorem fullStack_eq {path : Path ℕ ℕ 0} (h : Sound t.toFb (plug path (data p)))
    (ht : fbTraverse t.toFb key = (path.positions, p)) : fullStack t key = allFull path := by
  rw [Bool.eq_iff_iff, allFull_iff h.shape h.keys, fullStack, ht, List.all_eq_true]
  simp only [decide_eq_true_eq]
  rfl

section Attempt
variable {r : Option FbResult} (hfresh : FreshSupply supply) (htotal : ∀ live, supply live ≠ none)
include hfresh htotal

theorem empty_succeeds (h : Account n t T) (hkey : IsKey key) (hlevel : t.level = 0) :
    ∃ b, Succeeds (t.insertTry supply key d true) n t ⟨1, node b [(key, data d)]⟩ := by
  have hempty : whole T = [] := by
    obtain ⟨N, x⟩ := T
    obtain rfl : N = 0 := h.sound.shape.level.symm.trans hlevel
    rfl
  obtain ⟨b, s', hplain, hs, hlost⟩ :=
    fbInsertTry_empty (d := d) (fresh_total hfresh _) h.sound hkey hlevel
  refine ⟨b, succeeds_of_outcome h (insertTry_empty hfresh h.sound hlevel)
    (fun _ hfail => htotal _ hfail.1)
    (fun _ hp => (Prod.mk.inj (Option.some.inj (hp.symm.trans hplain))).2) hs hlost ?_⟩
  rw [hempty]
  rfl

section Leaf
variable {pre post : List (ℕ × Node ℕ ℕ 0)} {up : Path ℕ ℕ 1}
  (h : Account n t (plug (.step a pre k post up) (data p)))
  (ht : fbTraverse t.toFb key = ((a, pre.length) :: up.positions, p))
  (hgo : smoLock = true ∨ 1 < t.level)
include h ht hgo

theorem leaf_succeeds (hk : k ≠ key) (hkey : IsKey key)
    (hwidth : pre.length + post.length + 1 < 128) :
    ∃ b, Succeeds (t.insertTry supply key d smoLock) n t
      (plug (.step b (pre ++ [(k, data p)]) key post up) (data d)) := by
  have hfull : ¬ (t.toFb.mem a).isFullNode := by
    rw [full_iff_width h.sound.shape h.sound.keys]
    omega
  obtain ⟨b, s', hplain, hs, hlost⟩ :=
    fbInsertTry_leaf h.sound ht (fresh_total hfresh _) d hk hkey hwidth
  refine ⟨b, succeeds_of_outcome h (insertTry_leaf h.sound ht hfresh hgo hk hwidth)
    (fun _ hfail => htotal _ hfail.1)
    (fun _ => success_unique (fbInsertTry_lock h.sound ht fun _ => hfull) hplain) hs hlost ?_⟩
  rw [whole_cursor, whole_cursor]
  simp [Path.before, Path.after]
  omega

end Leaf

theorem insertTry_turn (h : Account n t T) (hkey : IsKey key) (hlevel : t.level ≤ 5)
    (htry : t.insertTry supply key d smoLock = some (r, t')) : Turn n t key r t' := by
  obtain ⟨path, p, rfl, ht⟩ := fbTraverse_path h.sound.shape hkey
  by_cases hgo : smoLock = true ∨ 1 < t.level
  swap
  · rw [not_or, Bool.not_eq_true, not_lt] at hgo
    obtain ⟨rfl, hlow⟩ := hgo
    exact turn_of_same h (insertTry_early hlow) (by simp) htry
  cases path with
  | top =>
    have hzero : t.level = 0 := h.sound.shape.level
    obtain rfl : smoLock = true := hgo.resolve_right (by omega)
    obtain ⟨b, hsucc⟩ := empty_succeeds hfresh htotal h hkey hzero
    exact turn_of_succeeds hsucc htry
  | step a pre k post up =>
    rw [Path.positions] at ht
    by_cases hk : k = key
    · exact turn_of_same h (insertTry_dup h.sound ht hgo hk) (by simp) htry
    by_cases hwidth : pre.length + post.length + 1 = 128
    · have hfull : (t.mem a).isFullNode := (full_iff_width h.sound.shape h.sound.keys).mpr hwidth
      cases smoLock with
      | false =>
        have hlow := hgo.resolve_left (by simp)
        exact turn_of_same h (insertTry_smo h.sound ht hlow hk hfull) (by simp) htry
      | true =>
        rcases insertTry_full h.sound ht hfresh hk hwidth (by omega) with
          ⟨-, t₁, hcall, hb, s₁, path', hcommit, htree, hlost⟩ | ⟨t₁, -, -, -, hnone⟩
        · obtain ⟨rfl, rfl⟩ := Prod.mk.inj (Option.some.inj (htry.symm.trans hcall))
          obtain ⟨s₂, hcommit₂, hs, hlost₂⟩ := commit_sound htree.shape htree.keys
          obtain rfl := Option.some.inj (hcommit₂.symm.trans hcommit)
          have hstack : fullStack t key = allFull (.step a pre k post up) :=
            fullStack_eq h.sound ht
          refine ⟨.retry, plug path' (data p), rfl, hb.known, ?_⟩
          rw [if_pos rfl, hstack]
          exact h.step hb hs (hlost₂.trans hlost) (by rw [htree.sited.whole_eq, add_zero])
        · obtain ⟨live, hnone⟩ := hnone hlevel
          exact absurd hnone (htotal live)
    · have hle := width_le h.sound.shape.around
      obtain ⟨b, hsucc⟩ := leaf_succeeds hfresh htotal h ht hgo hk hkey (by omega)
      exact turn_of_succeeds hsucc htry

theorem removeTry_turn (h : Account n t T) (hkey : IsKey key) (hlevel : t.level ≤ 5)
    (htry : t.removeTry supply key smoLock = some (r, t')) : Turn n t key r t' := by
  obtain ⟨path, p, rfl, ht⟩ := fbTraverse_path h.sound.shape hkey
  by_cases hgo : smoLock = true ∨ 1 < t.level
  swap
  · rw [not_or, Bool.not_eq_true, not_lt] at hgo
    obtain ⟨rfl, hlow⟩ := hgo
    exact turn_of_same h (removeTry_early hlow) (by simp) htry
  cases path with
  | top =>
    have hzero : t.level = 0 := h.sound.shape.level
    obtain rfl : smoLock = true := hgo.resolve_right (by omega)
    exact turn_of_same h (removeTry_empty hzero) (by simp) htry
  | step a pre k post up =>
    rw [Path.positions] at ht
    by_cases hk : k = key
    swap
    · exact turn_of_same h (removeTry_absent h.sound ht hgo hk) (by simp) htry
    by_cases hone : smoLock = false ∧ (t.mem a).remainOneKey
    · obtain ⟨rfl, hone⟩ := hone
      have hlow := hgo.resolve_left (by simp)
      exact turn_of_same h (removeTry_smo h.sound ht hlow hk hone) (by simp) htry
    have hgo' : smoLock = true ∨ 1 < t.level ∧ ¬ (t.mem a).remainOneKey := by
      cases smoLock with
      | true => exact .inl rfl
      | false => exact .inr ⟨hgo.resolve_left (by simp), fun h1 => hone ⟨rfl, h1⟩⟩
    have hlevel' : t.toFb.level ≤ 8 := le_trans hlevel (by omega)
    obtain ⟨s', hplain, hs, hlost⟩ :=
      fbRemoveTry_present h.sound ht (fresh_total hfresh) hk hlevel'
    refine turn_of_succeeds (succeeds_of_outcome h
      (removeTry_present h.sound ht hfresh hgo' hk (by omega)) (fun _ hfail => ?_) ?_ hs hlost ?_)
      htry
    · obtain ⟨live, hnone⟩ := hfail.2 (by omega)
      exact htotal live hnone
    · exact fun _ => success_unique (fbRemoveTry_lock h.sound ht) hplain
    · rw [whole_cursor, whole_prune]
      simp [Path.before, Path.after]
      omega

theorem attempt_turn {u : Update} (h : Account n t T) (hkey : IsKey u.key) (hlevel : t.level ≤ 5)
    (htry : u.attempt supply t smoLock = some (r, t')) : Turn n t u.key r t' := by
  cases u with
  | insert key data => exact insertTry_turn hfresh htotal h hkey hlevel htry
  | remove key => exact removeTry_turn hfresh htotal h hkey hlevel htry

end Attempt

theorem Call.account {u : Update} {b : Bool} (hcall : Call u t smoLock g b t')
    (hkey : IsKey u.key) :
    ∀ {n : ℕ} {T : Σ N, Node ℕ ℕ N}, Account n t T →
      ∃ T', Account (n + g) t' T' ∧ ∀ a, Known t a → Known t' a := by
  induction hcall with
  | done hfresh htotal hlevel htry _ hretry =>
    intro n T h
    obtain ⟨r', T', hr, hknown, h'⟩ := attempt_turn hfresh htotal h hkey hlevel htry
    obtain rfl := Option.some.inj hr
    rw [if_neg hretry] at h'
    exact ⟨T', h', hknown⟩
  | smo hfresh htotal hlevel htry _ ih =>
    intro n T h
    obtain ⟨r', T₁, hr, hknown, h₁⟩ := attempt_turn hfresh htotal h hkey hlevel htry
    obtain rfl := Option.some.inj hr
    rw [if_neg (by simp)] at h₁
    obtain ⟨T', h', hknown'⟩ := ih h₁
    exact ⟨T', h', fun a ha => hknown' a (hknown a ha)⟩
  | retry hfresh htotal hlevel htry _ ih =>
    intro n T h
    obtain ⟨r', T₁, hr, hknown, h₁⟩ := attempt_turn hfresh htotal h hkey hlevel htry
    obtain rfl := Option.some.inj hr
    rw [if_pos rfl] at h₁
    obtain ⟨T', h', hknown'⟩ := ih h₁
    rw [add_assoc] at h'
    exact ⟨T', h', fun a ha => hknown' a (hknown a ha)⟩

theorem account_create (mem : ℕ → FbNode) : Account 0 (Fbt.create mem) ⟨0, data fbNilNode⟩ := by
  refine ⟨⟨⟨rfl, rfl, trivial, ?_⟩, trivial, rfl⟩, ?_, rfl, rfl, ?_⟩
  · simp [Fbt.create, Fbt.toFb]
  · simp [lost, Fbt.create, Fbt.toFb]
  · simp [Clean, Fbt.create]

/-- The number of roots that the calls of a history have split. -/
def splits (es : List (Update × Bool × ℕ)) : ℕ := (es.map fun e => e.2.2).sum

theorem splits_eq_zero {es : List (Update × Bool × ℕ)} :
    splits es = 0 ↔ ∀ e ∈ es, e.2.2 = 0 := by
  induction es with
  | nil => simp [splits]
  | cons e es ih =>
    rw [List.forall_mem_cons, ← ih]
    simp [splits]

theorem run_account {mem : ℕ → FbNode} {es : List (Update × Bool × ℕ)}
    (h : Run CallStep (Fbt.create mem) es t) : ∃ T, Account (splits es) t T := by
  have hstart : ∃ T, Account (splits []) (Fbt.create mem) T := ⟨_, account_create mem⟩
  refine h.history (P := fun es t => ∃ T, Account (splits es) t T) ?_ hstart
  rintro ys s e s' ⟨hkey, hcall⟩ ⟨T, hs⟩
  obtain ⟨T', h', -⟩ := hcall.account hkey hs
  refine ⟨T', ?_⟩
  simpa [splits] using h'

theorem Account.exact_iff (h : Account n t T) : Exact t ↔ n = 0 := by
  have htree := h.sound.shape.tree_eq h.sound.keys
  have hlost := h.lost
  have hnodes := h.nodeCount
  rw [FbTree.lost, h.sound.free, List.length_nil] at hlost
  rw [Exact, Fb.nodes, Fb.pairs, htree, h.keyCount]
  have : t.toFb.live = t.live := rfl
  rw [this] at hlost
  constructor
  · rintro ⟨hcard, -⟩
    push_cast at hlost
    omega
  · rintro rfl
    push_cast at hlost
    exact ⟨by omega, rfl⟩

/-- Without a lost root, the nodes in use are those of the tree. -/
theorem Account.live_eq (h : Account 0 t T) : t.live.val = fbNilNode ::ₘ t.toFb.nodes := by
  have hlost := h.lost
  have hcount := h.sound.shape.count
  rw [FbTree.lost, h.sound.free, List.length_nil] at hlost
  rw [h.sound.free, zero_add, Multiset.coe_nil, add_zero] at hcount
  rw [Fb.nodes, h.sound.shape.tree_eq h.sound.keys]
  refine (Multiset.eq_of_le_of_card_le hcount ?_).symm
  have : (Multiset.card t.toFb.live.val : ℤ) = t.toFb.live.card := rfl
  rw [Multiset.card_cons]
  push_cast at hlost
  omega

theorem Account.registered (h : Account 0 t T) (h' : Account 0 t' T')
    (hknown : ∀ a, Known t a → Known t' a) : Registered t t' := by
  intro a ha hgone
  have hlive : a ∈ t.live := by
    rw [← Finset.mem_val, h.live_eq]
    exact Multiset.mem_cons_of_mem ha
  have hnil : a ≠ fbNilNode := by
    rintro rfl
    have hnodup := t.live.nodup
    rw [h.live_eq, Multiset.nodup_cons] at hnodup
    exact hnodup.1 ha
  rcases hknown a (.inl hlive) with hlive' | hrcu
  · rw [← Finset.mem_val, h'.live_eq, Multiset.mem_cons] at hlive'
    rcases hlive' with hlive' | hlive'
    · exact absurd hlive' hnil
    · exact absurd hlive' hgone
  · exact List.count_eq_one_of_mem h'.clean.1 hrcu

/-- The books of the tree are exact after a call as long as no call has split a root. -/
theorem accounting_exact_iff {mem : ℕ → FbNode} {es : List (Update × Bool × ℕ)}
    {e : Update × Bool × ℕ} (h : Run CallStep (Fbt.create mem) es t) (hstep : CallStep t e t') :
    Exact t' ∧ Registered t t' ↔ ∀ e' ∈ es ++ [e], e'.2.2 = 0 := by
  obtain ⟨T, hs⟩ := run_account h
  obtain ⟨T', hs', hknown⟩ := hstep.2.account hstep.1 hs
  have hzero : splits es + e.2.2 = 0 ↔ ∀ e' ∈ es ++ [e], e'.2.2 = 0 := by
    rw [← splits_eq_zero]
    simp [splits]
  rw [hs'.exact_iff, ← hzero, and_iff_left_iff_imp]
  intro hsplits
  obtain ⟨hes, he⟩ := Nat.add_eq_zero_iff.mp hsplits
  rw [hes] at hs hs'
  rw [he] at hs'
  exact hs.registered hs' hknown

section Example

theorem call_success {u : Update} (hlevel : t.level ≤ 5)
    (htry : u.attempt endless t smoLock = some (some .success, t')) : Call u t smoLock 0 true t' :=
  .done freshSupply_endless total_endless hlevel htry (by simp) (by simp)

theorem call_early (hlevel : t.level ≤ 1) {b : Bool} (h : Call (.insert key d) t true n b t') :
    Call (.insert key d) t false n b t' :=
  .smo freshSupply_endless total_endless (by omega) (insertTry_early hlevel) h

/-- A tree of one leaf, with `m` keys up to `m`. -/
def OneLeaf (m : ℕ) (t : Fbt) : Prop :=
  ∃ a es, Account 0 t ⟨1, node a es⟩ ∧ Ordered True unmarked IsKey (node a es) ∧
    es.length = m ∧ ∀ e ∈ es, e.1 ≤ m

/-- Where the next key goes. -/
theorem OneLeaf.cursor {m : ℕ} (h : OneLeaf m t) (hkey : IsKey (m + 1)) :
    ∃ a pre k post p, Account 0 t (plug (.step a pre k post .top) (data p)) ∧
      Ordered True unmarked IsKey (plug (.step a pre k post .top) (data p)).2 ∧
      room True IsKey (.step a pre k post .top) (m + 1) ∧
      fbTraverse t.toFb (m + 1) = ([(a, pre.length)], p) ∧ k ≤ m ∧
      pre.length + post.length + 1 = m ∧ ∀ e ∈ pre ++ (k, data p) :: post, e.1 ≤ m := by
  obtain ⟨a, es, hacc, ho, hlen, hle⟩ := h
  obtain ⟨path, p, hplug, hr, ht⟩ := fbTraverse_spec hacc.sound.shape ho hkey
  cases path with
  | top => cases hplug
  | step a' pre k post up =>
    cases up with
    | top =>
      obtain ⟨rfl, rfl⟩ : a' = a ∧ pre ++ (k, data p) :: post = es := by
        cases hplug
        exact ⟨rfl, rfl⟩
      have hk : k ≤ m := hle (k, data p) (by simp)
      refine ⟨a', pre, k, post, p, hacc, ho, ⟨hkey, fun _ => ?_, hr.upper⟩, ht, hk, ?_, hle⟩
      · omega
      · rw [← hlen, List.length_append, List.length_cons]
        omega
    | step b pre' k' post' up' =>
      have hheight := congrArg Sigma.fst hplug
      rw [height_plug] at hheight
      simp [Path.length] at hheight

/-- The next key goes into the leaf. -/
theorem OneLeaf.insert {m : ℕ} (h : OneLeaf m t) (hpos : 0 < m) (hroom : m < 128) :
    ∃ t', CallStep t (.insert (m + 1) 0, true, 0) t' ∧ OneLeaf (m + 1) t' := by
  have hkey : IsKey (m + 1) := show m + 1 < 4294967295 by omega
  obtain ⟨a, pre, k, post, p, hacc, ho, hr, ht, hk, hlen, hle⟩ := h.cursor hkey
  have hlevel : t.level = 1 := hacc.sound.shape.level
  obtain ⟨b, t', htry, hacc', -⟩ := leaf_succeeds (d := 0) freshSupply_endless total_endless hacc ht
    (.inl rfl) (by omega) hkey (by omega)
  refine ⟨t', ⟨hkey, call_early (by omega) (call_success (by omega) htry)⟩, b, _, hacc',
    ordered_insert b 0 ho hr (by omega), ?_, ?_⟩
  · simp
    omega
  · intro e he
    simp only [List.mem_append, List.mem_cons, List.not_mem_nil, or_false] at he
    rcases he with (he | rfl) | rfl | he
    · exact (hle e (by simp [he])).trans (by omega)
    · exact hk.trans (by omega)
    · exact le_rfl
    · exact (hle e (by simp [he])).trans (by omega)

/-- The first insertion. -/
theorem create_insert (mem : ℕ → FbNode) :
    ∃ t', CallStep (Fbt.create mem) (.insert 1 0, true, 0) t' ∧ OneLeaf 1 t' := by
  have hkey : IsKey 1 := show 1 < 4294967295 by omega
  have hlevel : (Fbt.create mem).level = 0 := rfl
  obtain ⟨b, t', htry, hacc', -⟩ := empty_succeeds (d := 0) freshSupply_endless total_endless
    (account_create mem) hkey hlevel
  refine ⟨t', ⟨hkey, call_early (by omega) (call_success (by omega) htry)⟩, b, _, hacc',
    ordered_leaf.mpr ⟨List.pairwise_singleton _ _, by simp [unmarked], by simpa using hkey⟩, rfl,
    by simp⟩

theorem run_inserts (mem : ℕ → FbNode) {m : ℕ} (hm : m < 128) :
    ∃ t, Run CallStep (Fbt.create mem)
      ((List.range (m + 1)).map fun i => (.insert (i + 1) 0, true, 0)) t ∧ OneLeaf (m + 1) t := by
  induction m with
  | zero =>
    obtain ⟨t, hstep, hone⟩ := create_insert mem
    exact ⟨t, .single hstep, hone⟩
  | succ m ih =>
    obtain ⟨t, hrun, hone⟩ := ih (by omega)
    obtain ⟨t', hstep, hone'⟩ := hone.insert (by omega) (by omega)
    refine ⟨t', ?_, hone'⟩
    rw [List.range_succ, List.map_append]
    exact hrun.snoc hstep

/-- With a full leaf, the next insertion splits the root. -/
theorem OneLeaf.split (h : OneLeaf 128 t) : ∃ t', CallStep t (.insert 129 0, true, 1) t' := by
  have hkey : IsKey (128 + 1) := show 128 + 1 < 4294967295 by omega
  obtain ⟨a, pre, k, post, p, hacc, ho, hr, ht, hk, hlen, hle⟩ := h.cursor hkey
  have hlevel : t.level = 1 := hacc.sound.shape.level
  rcases insertTry_full (d := 0) hacc.sound ht freshSupply_endless (by omega) hlen (by omega) with
    ⟨-, t₁, htry, -, s₁, path', hcommit, htree, -⟩ | ⟨t₁, -, -, -, hnone⟩
  · have hall : allFull (.step a pre k post .top) = true := by
      rw [allFull, allFull, hlen]
      rfl
    have hfull : fullStack t (128 + 1) = true := (fullStack_eq hacc.sound ht).trans hall
    obtain ⟨s₂, hcommit₂, hs, -⟩ := commit_sound htree.shape htree.keys
    obtain rfl : t₁.toFb = s₂ := Option.some.inj (hcommit.symm.trans hcommit₂)
    obtain ⟨ho₁, hroomier⟩ := htree.order ho
    have ht₁ := fbTraverse_eq hs.shape.around ho₁ (room_weaken (hroomier True _ hr))
    have hlevel₁ : t₁.level = 0 + path'.length := hs.shape.around.level
    rw [htree.length, hall] at hlevel₁
    cases path' with
    | top => exact absurd htree.used (by simp [Path.width])
    | step a' pre' k' post' up' =>
      obtain rfl : k' = k := htree.sited.key_eq
      have hne : k' ≠ 128 + 1 := by omega
      rcases insertTry_leaf (d := 0) hs ht₁ freshSupply_endless (.inl rfl) hne htree.room with
        ⟨t', htry', -⟩ | ⟨_, -, hnone, -⟩
      · refine ⟨t', hkey, call_early (by omega) ?_⟩
        have hcall : Call (.insert (128 + 1) 0) t true ((fullStack t (128 + 1)).toNat + 0) true
            t' :=
          .retry freshSupply_endless total_endless (by omega) htry
            (call_success (by simp [Path.length] at hlevel₁; omega) htry')
        rw [hfull] at hcall
        exact hcall
      · exact absurd hnone (total_endless _)
  · obtain ⟨live, hnone⟩ := hnone (by omega)
    exact absurd hnone (total_endless live)

/-- After 129 insertions there is one node more in the books than in the tree. -/
theorem rootSplit_miscounted :
    ∃ t t', Run CallStep (Fbt.create fun _ => ⟨fun _ => fbNilKey, fun _ => 0⟩)
        ((List.range 128).map fun i => (.insert (i + 1) 0, true, 0)) t ∧
      CallStep t (.insert 129 0, true, 1) t' ∧ ¬ (Exact t' ∧ Registered t t') := by
  obtain ⟨t, hrun, hone⟩ := run_inserts (fun _ => ⟨fun _ => fbNilKey, fun _ => 0⟩)
    (show 127 < 128 by omega)
  obtain ⟨t', hstep⟩ := hone.split
  refine ⟨t, t', hrun, hstep, fun hexact => ?_⟩
  obtain ⟨T, hacc⟩ := run_account (hrun.snoc hstep)
  have hzero := hacc.exact_iff.mp hexact.1
  have hlast := splits_eq_zero.mp hzero (.insert 129 0, true, 1) (by simp)
  cases hlast

/-- The books are exact after 128 insertions. -/
theorem fullLeaf_exact :
    ∃ t t', Run CallStep (Fbt.create fun _ => ⟨fun _ => fbNilKey, fun _ => 0⟩)
        ((List.range 127).map fun i => (.insert (i + 1) 0, true, 0)) t ∧
      CallStep t (.insert 128 0, true, 0) t' ∧ Exact t' ∧ Registered t t' := by
  obtain ⟨t, hrun, hone⟩ := run_inserts (fun _ => ⟨fun _ => fbNilKey, fun _ => 0⟩)
    (show 126 < 128 by omega)
  obtain ⟨t', hstep, -⟩ := hone.insert (by omega) (by omega)
  refine ⟨t, t', hrun, hstep, (accounting_exact_iff hrun hstep).mpr fun e he => ?_⟩
  simp only [List.mem_append, List.mem_map, List.mem_singleton] at he
  rcases he with ⟨i, -, rfl⟩ | rfl
  · rfl
  · rfl

end Example

end YwStorage.FbTree
