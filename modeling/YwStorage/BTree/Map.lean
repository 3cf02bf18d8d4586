import YwStorage.BTree.Leaf
import YwStorage.BTree.Quiet

/-!
The tree as a map, over every run of calls by one thread. A leaf can be without space although most
of its records have been removed; whether it can be split then decides if the next insertion works.
-/
namespace YwStorage.BTree
open MultiTree SortedMap Supply Lts

variable {α : Type} [LinearOrder α] {c : Config} {S : ℕ → Prop} {I : ℕ → Prop} {t t' : Tree α}
  {T : Σ N, Node α ℕ N} {m : α → Option ℕ} {n a fuel value : ℕ} {key : α} {op : Op α ℕ}
  {us vs : List (α × Node α ℕ 0)} {supply : Finset ℕ → Option ℕ}

/-- Both halves of the records get something when `key` comes to them. -/
def Divides (es : List (α × ℕ)) (key : α) : Prop := es ≠ [] ∧ ∀ e, es = [e] → key < e.1

/-- The leaf for the key of an insertion has space, or it can be split. -/
def Placeable (c : Config) (t : Tree α) : Op α ℕ → Prop
  | .insert key _ => ∀ fuel a, t.findLeaf fuel key = some a →
      (t.mem a).Fits c ∨ Divides (t.mem a).entries key
  | _ => True

/-- The tree has at most five levels. -/
def Low (t : Tree α) : Prop := ∀ n, Leveled t n t.root → n < 5

/-- Only keys that are not there are inserted. -/
def Absent (m : α → Option ℕ) : Op α ℕ → Prop
  | .insert key _ => m key = none
  | _ => True

/-- A search reports the value of a present key; for an absent key nothing is promised. -/
def found (o r : Option ℕ) : Prop := ∀ v ∈ o, r = some v

/-- A call that gets all its pages. -/
def Runs (c : Config) (t : Tree α) (op : Op α ℕ) (r : Reply (Option ℕ)) (t' : Tree α) : Prop :=
  ∃ supply fuel, FreshSupply supply ∧ (∀ live, supply live ≠ none) ∧ 5 ≤ fuel ∧
    t.call c supply fuel op = some (r, t')

/-- A call on a tree of at most five levels, beside the map that the user has in mind. -/
def MapStep (c : Config) (s : Tree α × (α → Option ℕ)) (e : Op α ℕ × Reply (Option ℕ))
    (s' : Tree α × (α → Option ℕ)) : Prop :=
  Absent s.2 e.1 ∧ Low s.1 ∧ Runs c s.1 e.1 e.2 s'.1 ∧ s'.2 = next s.2 e.1

/-- The tree holds the map, and no call is running. -/
def Represented (c : Config) (t : Tree α) (m : α → Option ℕ) : Prop :=
  ∃ I T, Rests c I t ∧ WellFormed c (fun _ => True) t T ∧ Represents (whole T) m

theorem findLoop_unique {fuel' a' cursor : ℕ} (h : t.findLoop key fuel cursor = some a)
    (h' : t.findLoop key fuel' cursor = some a') : a = a' := by
  induction fuel generalizing fuel' cursor with
  | zero => cases h
  | succ fuel ih =>
    cases fuel' with
    | zero => cases h'
    | succ fuel' =>
      rw [Tree.findLoop] at h h'
      rcases hleaf : (t.mem cursor).isLeaf with _ | _
      · simp only [hleaf, Bool.false_eq_true, if_false] at h h'
        rcases hget : (t.mem cursor).get ((t.mem cursor).floor key) with _ | e
        · simp [hget] at h
        · simp only [hget] at h h'
          split_ifs at h h' <;> exact ih h h'
      · simp only [hleaf, if_true, Option.some.injEq] at h h'
        exact h.symm.trans h'

/-- The loop of `get_depth`, which counts the pages on the first way down. -/
def Tree.getDepth (t : Tree α) : ℕ → ℕ → Option ℕ
  | 0, _ => none
  | fuel + 1, cursor =>
    if (t.mem cursor).isLeaf then some 1
    else ((t.mem cursor).get 0).bind fun e => (t.getDepth fuel e.2).map (· + 1)

omit [LinearOrder α] in
theorem Leveled.getDepth_eq (h : Leveled t n a) :
    t.getDepth fuel a = if n < fuel then some (n + 1) else none := by
  induction fuel generalizing n a with
  | zero => rfl
  | succ fuel ih =>
    rw [Tree.getDepth]
    cases n with
    | zero => exact if_pos h
    | succ n =>
      obtain ⟨hinner, hne, hbelow⟩ := h
      obtain ⟨e, es, hes⟩ := List.exists_cons_of_ne_nil hne
      have hchild := (hbelow e (by simp [hes])).2
      simp [hinner, Page.get, hes, ih hchild, apply_ite]

omit [LinearOrder α] in
/-- In the pages of a tree all ways down have the same length. -/
theorem leveled_of_linked {x : Node α ℕ (n + 1)} (hl : Linked (Holds c S t.mem) x)
    (hr : 0 < n → Readable (mark t.mem) x) (hz : ∀ b ∈ addrs x, b ≠ 0) : Leveled t n (ptr x) := by
  induction n with
  | zero =>
    obtain ⟨b, es, rfl⟩ := exists_node x
    exact hl.1.isLeaf
  | succ n ih =>
    obtain ⟨b, es, rfl⟩ := exists_node x
    obtain ⟨hpage, hsub⟩ := hl
    obtain ⟨hne, hread⟩ := readable_inner.mp (hr (Nat.succ_pos n))
    refine ⟨hpage.isLeaf, ?_, fun e he => ?_⟩
    · rw [ptr_node, hpage.entries]
      simpa [words] using hne
    · rw [ptr_node, hpage.entries] at he
      obtain ⟨f, hf, rfl⟩ := List.mem_map.mp he
      have hz' : ∀ d ∈ addrs f.2, d ≠ 0 := fun d hd => hz d (by
        rw [addrs_node]
        exact Multiset.mem_add.mpr (.inr (mem_addrsOf.mpr ⟨f, hf, hd⟩)))
      exact ⟨hz' _ (ptr_mem_addrs f.2), ih (hsub f hf) (fun _ => hread f hf) hz'⟩

theorem WellFormed.leveled (h : WellFormed c S t T) : Leveled t (T.1 - 1) t.root := by
  obtain ⟨N, x⟩ := T
  obtain ⟨n, rfl⟩ := Nat.exists_eq_succ_of_ne_zero h.height.ne'
  rw [(h.root : t.root = ptr x)]
  show Leveled t n _
  exact leveled_of_linked h.linked (fun hn => h.readable (show 1 < n + 1 by omega)) fun b hb =>
    h.ne_zero hb

theorem WellFormed.height_le (h : WellFormed c S t T) (hlow : Low t) : T.1 ≤ 5 := by
  have hlt := hlow _ h.leveled
  omega

theorem splittable_iff (hus : ∀ e ∈ us, e.1 < key) (hvs : ∀ e ∈ vs, key < e.1) :
    Splittable us vs ↔ Divides (words (us ++ vs)) key := by
  refine and_congr (not_congr List.map_eq_nil_iff.symm) ⟨fun h e he => ?_, fun h hlen => ?_⟩
  · obtain ⟨f, hf, rfl⟩ := List.map_eq_singleton_iff.mp he
    obtain rfl := h (by rw [hf]; rfl)
    exact hvs f (by rw [List.nil_append] at hf; simp [hf])
  · by_contra hcons
    obtain ⟨f, us, rfl⟩ := List.exists_cons_of_ne_nil hcons
    obtain ⟨g, hg⟩ := List.length_eq_one_iff.mp hlen
    have hlt := h (g.1, ptr g.2) (by rw [hg]; rfl)
    obtain ⟨rfl, -⟩ := List.cons.inj hg
    exact lt_asymm hlt (hus f List.mem_cons_self)

namespace Represented

/-- A search comes to the leaf that has the record of the key, if there is one. -/
theorem search (h : Represented c t m) (key : α) : ∃ n a r, (Low t → n ≤ 5) ∧
    (∀ fuel, n ≤ fuel → t.findLeaf fuel key = some a ∧ t.find fuel key = some r) ∧
      found (m key) r ∧ ∀ v, (key, v) ∈ (t.mem a).entries ↔ m key = some v := by
  obtain ⟨I, T, hI, hT, hm⟩ := h
  have hs := hT.searchable hI.settled
  obtain ⟨a, es, up, hplug, hroom⟩ := hT.exists_leaf hT.height hT.readable key
  have hleaf : ∀ v, (key, v) ∈ (t.mem a).entries ↔ m key = some v := by
    intro v
    rw [(hT.leaf_page hplug).entries, hm key v]
    constructor
    · intro hv
      obtain ⟨e, he, heq⟩ := List.mem_map.mp hv
      rw [hplug, whole_plug, inner_node]
      exact List.mem_append_left _ (List.mem_append_right _
        (List.mem_flatMap.mpr ⟨e, he, List.mem_singleton.mpr heq.symm⟩))
    · exact fun hv => List.mem_map.mpr ⟨_, Searchable.mem_leaf hT.toStands hplug hroom hv, rfl⟩
  have hfind : ∀ fuel, T.1 ≤ fuel → t.findLeaf fuel key = some a := fun fuel hfuel =>
    hs.findLeaf hplug hroom hfuel
  have hfound : ∃ r, (∀ fuel, T.1 ≤ fuel → t.find fuel key = some r) ∧ found (m key) r := by
    rcases hkey : m key with _ | v
    · by_cases hnil : (t.mem a).entries = []
      · refine ⟨none, fun fuel hfuel => ?_, by simp [found]⟩
        simp [Tree.find, hfind fuel hfuel, hnil]
      · have hlt : (t.mem a).floor key < (t.mem a).entries.length := floor_lt hnil
        refine ⟨(t.mem a).entries[(t.mem a).floor key].2, fun fuel hfuel => ?_, by simp [found]⟩
        simp [Tree.find, hfind fuel hfuel, hnil, hT.unlocked, Page.get, hlt]
    · exact ⟨some v, fun fuel hfuel => hs.find_eq ((hm key v).mp hkey) hfuel, by simp [found]⟩
  obtain ⟨r, hr, hfound⟩ := hfound
  exact ⟨T.1, a, r, hT.height_le, fun fuel hfuel => ⟨hfind fuel hfuel, hr fuel hfuel⟩, hfound,
    hleaf⟩

/-- The place of a key that is not there. -/
theorem place (hs : Settled c t) (hT : WellFormed c (fun _ => True) t T)
    (hm : Represents (whole T) m) (habsent : m key = none) (hfind : t.findLeaf fuel key = some a) :
    ∃ (up : Path α ℕ 1) (us vs : _), T = plug up (node a (us ++ vs)) ∧
      room False (fun _ => True) up key ∧ (∀ e ∈ us, e.1 < key) ∧ ∀ e ∈ vs, key < e.1 := by
  have hno : ∀ v, (key, v) ∉ whole T := fun v hv => by simp [hm.eq_some hv] at habsent
  obtain ⟨b, us, vs, up, hplug, hroom, hus, hvs⟩ := hT.exists_place hno
  obtain rfl := findLoop_unique ((hT.searchable hs).findLeaf hplug hroom le_rfl) hfind
  exact ⟨up, us, vs, hplug, hroom, hus, hvs⟩

/-- A new record comes to the leaf for its key. -/
theorem leafInsert (h : Represented c t m) (habsent : m key = none)
    (hfind : t.findLeaf fuel key = some a) {p : Page α}
    (hp : (t.mem a).insert c (key, value) = (true, p)) :
    Represented c (t.setPage a p) (Function.update m key (some value)) := by
  obtain ⟨I, T, hI, hT, hm⟩ := h
  obtain ⟨up, us, vs, hplug, hroom, hus, hvs⟩ := place hI.settled hT hm habsent hfind
  have hpage := hT.leaf_page hplug
  rw [words_append] at hpage
  have hfits : (t.mem a).Fits c := insert_iff_fits.mp (congrArg Prod.fst hp)
  have hleaf : ((t.mem a).insert c (key, value)).2.isLeaf = true := findLoop_leaf hfind
  have hinsert : (t.mem a).insert c (key, value) = _ := insert_of_cut hpage.entries
    (List.forall_mem_map.mpr fun e he => (hus e he).le) (List.forall_mem_map.mpr hvs)
  rw [if_pos hfits, hp, Prod.mk.injEq] at hinsert
  rw [hp] at hleaf
  exact ⟨I, _, hI.setPage hleaf, hT.addRecord hplug hroom hus hvs hfits hinsert.2,
    hm.insert (hT.inserted hplug hroom hus hvs)⟩

/-- The leaf for a key removes it just if it is there. -/
theorem leafRemove (h : Represented c t m) (hfind : t.findLeaf fuel key = some a) {ok : Bool}
    {p : Page α} (hp : (t.mem a).remove key = (ok, p)) : ok = (m key).isSome ∧
      (ok = true → Represented c (t.setPage a p) (Function.update m key none)) := by
  obtain ⟨I, T, hI, hT, hm⟩ := h
  rcases hkey : m key with _ | value
  · obtain ⟨up, us, vs, hplug, -, hus, hvs⟩ := place hI.settled hT hm hkey hfind
    have hremove := (hT.leaf_page hplug).remove_of_not_mem hus hvs
    rw [hp] at hremove
    exact ⟨hremove, fun hok => absurd (hremove.symm.trans hok) Bool.false_ne_true⟩
  · obtain ⟨b, es, up, hplug, hroom⟩ := hT.exists_leaf hT.height hT.readable key
    obtain rfl := findLoop_unique ((hT.searchable hI.settled).findLeaf hplug hroom le_rfl) hfind
    obtain ⟨us, vs, rfl⟩ := List.append_of_mem
      (Searchable.mem_leaf hT.toStands hplug hroom ((hm key value).mp hkey))
    have hremove := (hT.leaf_page hplug).remove_of_mem (hT.leaf_records hplug).1
    have hleaf : ((t.mem b).remove key).2.isLeaf = true := findLoop_leaf hfind
    rw [hp] at hleaf hremove
    obtain ⟨rfl, heq⟩ := Prod.mk.inj hremove
    refine ⟨rfl, fun _ => ⟨I, _, hI.setPage hleaf, hT.dropRecord hplug heq, ?_⟩⟩
    refine hm.remove (d := value) hT.sorted ?_
    rw [hplug]
    exact removed_leaf

end Represented

section Pool
variable (hcap : 2 * (c.recordSize + c.page.slotSize) ≤ c.page.bodySize)
  (hfresh : FreshSupply supply) (htotal : ∀ live, supply live ≠ none)
include hcap hfresh htotal

/-- A leaf that cannot be split makes an assertion fail. -/
theorem WellFormed.smoInsert_unsplittable (h : WellFormed c (fun _ => True) t T)
    (hfuel : T.1 ≤ fuel) (hlow : T.1 ≤ 5) {up : Path α ℕ 1}
    (hT : T = plug up (node a (us ++ vs))) (hroom : room False (fun _ => True) up key)
    (hus : ∀ e ∈ us, e.1 < key) (hvs : ∀ e ∈ vs, key < e.1) (hsplit : ¬ Splittable us vs) :
    t.smoInsert c supply fuel (key, value) = none := by
  have hdepth : up.length < maxDepth := by
    have hlen := hlow
    rw [hT, height_plug] at hlen
    exact lt_of_le_of_lt (show up.length ≤ 4 by omega) (by decide)
  by_cases hnil : us ++ vs = []
  · exact smoInsert_of_none h.even (h.smoInsert_empty hT hroom hnil hdepth)
  · refine smoInsert_single h hT hroom hfresh hus hvs hcap hfuel hdepth hnil (fun hnone => ?_)
      hsplit
    obtain ⟨live, hlive⟩ := exists_failure hnone
    exact htotal live hlive

variable (h : Represented c t m) (hlow : Low t) (hfuel : 5 ≤ fuel)
include h hlow hfuel

/-- The part under `smo_guard` works just if the leaf can be split. -/
theorem Represented.smoInsert (habsent : m key = none) (hfind : t.findLeaf n key = some a) :
    (Divides (t.mem a).entries key → ∃ t', t.smoInsert c supply fuel (key, value) =
      some (true, t') ∧ (t.smoSeq + 2 < 2 ^ 32 →
        Represented c t' (Function.update m key (some value)))) ∧
    (¬ Divides (t.mem a).entries key → t.smoInsert c supply fuel (key, value) = none) := by
  obtain ⟨I, T, hI, hT, hm⟩ := h
  have hheight := hT.height_le hlow
  obtain ⟨up, us, vs, hplug, hroom, hus, hvs⟩ := place hI.settled hT hm habsent hfind
  rw [(hT.leaf_page hplug).entries, ← splittable_iff hus hvs]
  refine ⟨fun hsplit => ?_, hT.smoInsert_unsplittable hcap hfresh htotal (hheight.trans hfuel)
    hheight hplug hroom hus hvs⟩
  obtain ⟨t', T', hrun, hT', hins⟩ : ∃ t' T', t.smoInsert c supply fuel (key, value) = _ ∧ _ :=
    hT.smoInsert_inserted hI.settled hplug hroom hus hvs hsplit hfresh htotal hcap
      (hheight.trans hfuel) hheight
  refine ⟨t', hrun, fun hcount => ?_⟩
  obtain ⟨I', hI'⟩ := hI.smoInsert hcount hrun
  exact ⟨I', T', hI', hT', hm.insert hins⟩

/-- What a call does to a tree that holds a map. -/
theorem Represented.call (habsent : Absent m op) :
    (Placeable c t op → ∃ r t', t.call c supply fuel op = some (r, t') ∧ Replies found m op r ∧
      (Counted c t op → Represented c t' (next m op))) ∧
    (¬ Placeable c t op → t.call c supply fuel op = none) := by
  have hunlocked : t.locked = ∅ := by
    obtain ⟨I, T, hI, -⟩ := h
    exact hI.unlocked
  cases op with
  | insert key value =>
    obtain ⟨n, a, r, hn, hsearch, -⟩ := h.search key
    have hfind := (hsearch fuel ((hn hlow).trans hfuel)).1
    obtain ⟨hyes, hno⟩ : (_ → ∃ t', t.smoInsert c supply fuel (key, value) = _ ∧ _) ∧ _ :=
      h.smoInsert hcap hfresh htotal hlow hfuel habsent hfind
    have hplace : Placeable c t (.insert key value) ↔
        (t.mem a).Fits c ∨ Divides (t.mem a).entries key :=
      ⟨fun hp => hp fuel a hfind, fun hp _ b hb => by rwa [findLoop_unique hb hfind]⟩
    have hnext : next m (.insert key value) = Function.update m key (some value) := if_pos habsent
    have hreply : Replies found m (.insert key value) (.flag true) := by
      rw [Replies, (habsent : m key = none)]
      rfl
    rw [hplace, hnext, Tree.call, Tree.insert, hfind, Option.bind_some, hunlocked,
      if_neg (Finset.notMem_empty a)]
    rcases hp : (t.mem a).insert c (key, value) with ⟨_ | _, p⟩
    · have hfull : ¬ (t.mem a).Fits c := fun hfits =>
        Bool.false_ne_true ((congrArg Prod.fst hp).symm.trans (insert_iff_fits.mpr hfits))
      rw [or_iff_right hfull]
      refine ⟨fun hdivides => ?_, fun hdivides => congrArg _ (hno hdivides)⟩
      obtain ⟨t', hrun, hrep⟩ := hyes hdivides
      exact ⟨_, t', congrArg _ hrun, hreply, fun hcount => hrep (hcount fuel a hfind hfull)⟩
    · exact ⟨fun _ => ⟨_, _, rfl, hreply, fun _ => h.leafInsert habsent hfind hp⟩, fun hno =>
        absurd (.inl (insert_iff_fits.mp (congrArg Prod.fst hp))) hno⟩
  | remove key =>
    obtain ⟨n, a, r, hn, hsearch, -⟩ := h.search key
    have hfind := (hsearch fuel ((hn hlow).trans hfuel)).1
    refine ⟨fun _ => ?_, fun hplace => absurd trivial hplace⟩
    rw [Tree.call, Tree.remove, hfind, Option.map_some, hunlocked, if_neg (Finset.notMem_empty a)]
    rcases hp : (t.mem a).remove key with ⟨_ | _, p⟩
    · obtain ⟨hok, -⟩ := h.leafRemove hfind hp
      refine ⟨_, t, rfl, congrArg _ hok, fun _ => ?_⟩
      have hnone : m key = none := by simpa using hok
      rwa [next, ← hnone, Function.update_eq_self]
    · obtain ⟨hok, hrep⟩ := h.leafRemove hfind hp
      exact ⟨_, _, rfl, congrArg _ hok, fun _ => hrep rfl⟩
  | find key =>
    obtain ⟨n, a, r, hn, hsearch, hfound, -⟩ := h.search key
    refine ⟨fun _ => ⟨.value r, t, ?_, ⟨r, rfl, hfound⟩, fun _ => h⟩, fun hplace =>
      absurd trivial hplace⟩
    rw [Tree.call, (hsearch fuel ((hn hlow).trans hfuel)).2]
    rfl

end Pool

theorem represented_create {mem : ℕ → Page α} {root : ℕ} (hroot : root ≠ 0) :
    Represented c (Tree.create mem root) fun _ => none :=
  ⟨_, _, Rests.create mem root, wellFormed_create mem hroot, represents_nil⟩

/-- A run of calls that all find a place and do not bring `smo_seq` to its end. -/
theorem represented_run {mem : ℕ → Page α} {root : ℕ} {es : List (Op α ℕ × Reply (Option ℕ))}
    (hcap : 4 * (c.recordSize + c.page.slotSize) ≤ c.page.bodySize) (hroot : root ≠ 0)
    (h : Run (restrict (MapStep c) fun s e => Placeable c s.1 e.1 ∧ Counted c s.1 e.1)
      (Tree.create mem root, fun _ => none) es (t, m)) :
    Answers found (fun _ => none) es ∧ m = after (fun _ => none) es ∧ Represented c t m := by
  obtain ⟨hans, hm, hend⟩ : Answers found (fun _ => none) es ∧
      (t, m).2 = after (fun _ => none) es ∧ Represented c (t, m).1 (after (fun _ => none) es) := by
    refine answers_run (R := fun s m => s.2 = m ∧ Represented c s.1 m) h
      ⟨rfl, represented_create hroot⟩ ?_
    rintro s m e s' ⟨⟨habsent, hlow, ⟨supply, fuel, hfresh, htotal, hfuel, hrun⟩, hnext⟩, hplace,
      hcount⟩ ⟨rfl, hrep⟩
    obtain ⟨r, t', hcall, hreply, hrep'⟩ :=
      (hrep.call (by omega) hfresh htotal hlow hfuel habsent).1 hplace
    rw [hrun] at hcall
    cases hcall
    exact ⟨hreply, hnext, hrep' hcount⟩
  rw [← hm] at hend
  exact ⟨hans, hm, hend⟩

/-- The tree answers as a map as long as every insertion finds a place and `smo_seq` does not come
to its end. In every tree reached so, the next call is answered just if it finds a place. -/
theorem btree_refines_map {mem : ℕ → Page α} {root : ℕ} {es : List (Op α ℕ × Reply (Option ℕ))}
    (hcap : 4 * (c.recordSize + c.page.slotSize) ≤ c.page.bodySize) (hroot : root ≠ 0)
    (h : Run (restrict (MapStep c) fun s e => Placeable c s.1 e.1 ∧ Counted c s.1 e.1)
      (Tree.create mem root, fun _ => none) es (t, m)) :
    Answers found (fun _ => none) es ∧ m = after (fun _ => none) es ∧
      ∀ op supply fuel, Absent m op → Low t → FreshSupply supply → (∀ live, supply live ≠ none) →
        5 ≤ fuel → ((∃ r t', t.call c supply fuel op = some (r, t') ∧ Replies found m op r) ↔
          Placeable c t op) := by
  obtain ⟨hans, hm, hrep⟩ := represented_run hcap hroot h
  refine ⟨hans, hm, fun op supply fuel habsent hlow hfresh htotal hfuel => ?_⟩
  obtain ⟨hyes, hno⟩ := hrep.call (by omega) hfresh htotal hlow hfuel habsent
  constructor
  · rintro ⟨r, t', hcall, -⟩
    by_contra hplace
    rw [hno hplace] at hcall
    cases hcall
  · intro hplace
    obtain ⟨r, t', hcall, hreply, -⟩ := hyes hplace
    exact ⟨r, t', hcall, hreply⟩

section Example

/-- What an insertion needs, checked on the leaf for its key. -/
def ready (c : Config) (t : Tree ℕ) (m : ℕ → Option ℕ) : Op ℕ ℕ → Bool
  | .insert key _ => m key = none ∧ t.smoSeq + 2 < 2 ^ 32 ∧ (t.findLeaf 5 key).any fun a =>
      (t.mem a).Fits c ∨ 1 < (t.mem a).entries.length
  | _ => true

def checkedCall (c : Config) (s : Tree ℕ × (ℕ → Option ℕ)) (op : Op ℕ ℕ) :
    Option ((Op ℕ ℕ × Reply (Option ℕ)) × Tree ℕ × (ℕ → Option ℕ)) :=
  if ready c s.1 s.2 op ∧ (s.1.getDepth 5 s.1.root).isSome then
    (s.1.call c endless 5 op).map fun r => ((op, r.1), r.2, next s.2 op)
  else none

theorem low_of_getDepth {t : Tree ℕ} (h : (t.getDepth 5 t.root).isSome) : Low t := by
  intro n hn
  by_contra hle
  simp [hn.getDepth_eq, hle] at h

theorem step_of_checkedCall (c : Config) (s : Tree ℕ × (ℕ → Option ℕ)) (op : Op ℕ ℕ)
    (e : Op ℕ ℕ × Reply (Option ℕ)) (s' : Tree ℕ × (ℕ → Option ℕ))
    (h : checkedCall c s op = some (e, s')) :
    restrict (MapStep c) (fun s e => Placeable c s.1 e.1 ∧ Counted c s.1 e.1) s e s' := by
  unfold checkedCall at h
  split_ifs at h with hcond
  obtain ⟨hready, hlow⟩ := hcond
  obtain ⟨⟨r, t'⟩, hr, heq⟩ := Option.map_eq_some_iff.mp h
  cases heq
  have hruns : Runs c s.1 op r t' :=
    ⟨endless, 5, freshSupply_endless, total_endless, le_rfl, hr⟩
  have hlow := low_of_getDepth hlow
  cases op with
  | insert key value =>
    obtain ⟨habsent, hseq, hleaf⟩ := of_decide_eq_true hready
    refine ⟨⟨habsent, hlow, hruns, rfl⟩, fun fuel a ha => ?_, fun _ _ _ _ => hseq⟩
    obtain ⟨b, hb, hplace⟩ := (Option.any_eq_true _ _).mp hleaf
    rw [findLoop_unique ha hb]
    refine (of_decide_eq_true hplace).imp_right fun hlen => ⟨?_, fun e he => ?_⟩
    · exact List.ne_nil_of_length_pos (Nat.lt_of_succ_lt hlen)
    · simp [he] at hlen
  | remove key => exact ⟨⟨trivial, hlow, hruns, rfl⟩, trivial, trivial⟩
  | find key => exact ⟨⟨trivial, hlow, hruns, rfl⟩, trivial, trivial⟩

/-- An empty leaf whose space is used up. -/
def drainedHistory : List (Op ℕ ℕ × Reply (Option ℕ)) :=
  [(.insert 1 10, .flag true), (.insert 2 20, .flag true), (.insert 3 30, .flag true),
    (.insert 4 40, .flag true), (.remove 1, .flag true), (.remove 2, .flag true),
    (.remove 3, .flag true), (.remove 4, .flag true)]

/-- The leaf for `key` is as after such a history. -/
def drained (key : ℕ) (s : Tree ℕ × (ℕ → Option ℕ)) : Bool :=
  s.2 key = none ∧ (s.1.getDepth 5 s.1.root).isSome ∧ (s.1.findLeaf 5 key).any fun a =>
    ¬ (s.1.mem a).Fits fourRecords ∧ (s.1.mem a).entries = []

/-- After the last record has gone, an insertion fails an assertion. -/
theorem drained_leaf_fails : 4 * (fourRecords.recordSize + fourRecords.page.slotSize) ≤
    fourRecords.page.bodySize ∧ ∃ t m, Run (MapStep fourRecords) (emptyTree, fun _ => none)
      drainedHistory (t, m) ∧ Low t ∧ Absent m (.insert 5 50) ∧
        ∀ supply fuel, FreshSupply supply → (∀ live, supply live ≠ none) → 5 ≤ fuel →
          t.call fourRecords supply fuel (.insert 5 50) = none := by
  obtain ⟨⟨t, m⟩, hrun, hend⟩ := exists_run_end (step_of_checkedCall fourRecords)
    (emptyTree, fun _ => none) (drainedHistory.map Prod.fst) (drained 5)
    (show _ = some (drainedHistory, true) by decide +kernel)
  obtain ⟨hm, hdepth, hleaf⟩ := of_decide_eq_true hend
  obtain ⟨a, ha, hpage⟩ := (Option.any_eq_true _ _).mp hleaf
  obtain ⟨hfull, hempty⟩ := of_decide_eq_true hpage
  have hplace : ¬ Placeable fourRecords t (.insert 5 50) := by
    intro hplace
    rcases hplace 5 a ha with hfits | hdivides
    · exact hfull hfits
    · exact hdivides.1 hempty
  have hlow := low_of_getDepth hdepth
  have habsent : Absent m (.insert 5 50) := hm
  obtain ⟨-, -, hrep⟩ := represented_run (by decide) one_ne_zero hrun
  refine ⟨by decide, t, m, hrun.mono fun _ _ _ h => h.1, hlow, habsent, ?_⟩
  intro supply fuel hfresh htotal hfuel
  exact (hrep.call (by decide) hfresh htotal hlow hfuel habsent).2 hplace

/-- Insertions that split a leaf, removals and searches. -/
def mixedHistory : List (Op ℕ ℕ × Reply (Option ℕ)) :=
  [(.insert 1 10, .flag true), (.insert 3 30, .flag true), (.insert 5 50, .flag true),
    (.insert 7 70, .flag true), (.remove 3, .flag true), (.insert 4 40, .flag true),
    (.find 7, .value (some 70)), (.remove 3, .flag false), (.insert 3 31, .flag true),
    (.find 3, .value (some 31))]

theorem mixedHistory_answers : ∃ t m, Run (restrict (MapStep fourRecords) fun s e =>
    Placeable fourRecords s.1 e.1 ∧ Counted fourRecords s.1 e.1) (emptyTree, fun _ => none)
      mixedHistory (t, m) ∧ Answers found (fun _ => none) mixedHistory := by
  obtain ⟨⟨t, m⟩, hrun⟩ := exists_run (step_of_checkedCall fourRecords)
    (emptyTree, fun _ => none) (mixedHistory.map Prod.fst)
    (show _ = some mixedHistory by decide +kernel)
  exact ⟨t, m, hrun, (btree_refines_map (by decide) one_ne_zero hrun).1⟩

end Example
end YwStorage.BTree
