import YwStorage.BTree.Stamps
import YwStorage.BTree.Failure
import YwStorage.Lib.SortedMap

/-!
Runs of whole calls. Between the calls a search goes down to a leaf and never begins again, until
`smo_seq` has come back to 0.
-/
namespace YwStorage.BTree
open Programs Lts OrderedNode MultiTree SortedMap

variable {α : Type} {c : Config} {I : ℕ → Prop} {t t' : Tree α} {key : α}
  {fuel n a : ℕ} {supply : Finset ℕ → Option ℕ} {r : α × ℕ} {ok : Bool}

/-- No call is running, and the inner pages were made by earlier ones. -/
structure Rests (c : Config) (I : ℕ → Prop) (t : Tree α) : Prop where
  root : I t.root
  inner : ∀ a, I a → (t.mem a).isLeaf = false → Inner c t.smoSeq I (t.mem a)
  unlocked : t.locked = ∅
  even : t.smoSeq % 2 = 0

namespace Rests

theorem reach (h : Rests c I t) (ha : Reach t a) : I a := by
  induction ha with
  | root => exact h.root
  | child ha hinner he ih => exact (h.inner _ ih hinner).children _ he

theorem settled (h : Rests c I t) : Settled c t :=
  ⟨fun a ha hinner => (h.inner a (h.reach ha) hinner).stamp, fun a ha hinner =>
    (h.inner a (h.reach ha) hinner).dense⟩

/-- Only a leaf is written. -/
theorem setPage (h : Rests c I t) {p : Page α} (hp : p.isLeaf = true) :
    Rests c I (t.setPage a p) := by
  refine ⟨h.root, fun b hI hb => ?_, h.unlocked, h.even⟩
  by_cases hba : b = a
  · simp [Tree.setPage, hba, hp] at hb
  · simp only [Tree.setPage, Function.update_of_ne hba] at hb ⊢
    exact h.inner b hI hb

theorem create (mem : ℕ → Page α) (root : ℕ) :
    Rests c (fun a => a = root) (Tree.create mem root) := by
  refine ⟨rfl, ?_, rfl, rfl⟩
  rintro a rfl hinner
  simp [Tree.create, Tree.blankPage] at hinner

theorem begin (h : Rests c I t) : Grounded c (t.smoSeq + 2) I t.begin := by
  refine ⟨rfl, h.root, fun a ha hinner => ?_, ?_⟩
  · have hin := h.inner a ha hinner
    exact ⟨hin.stamp.trans_le (Nat.le_add_right _ _), hin.dense, hin.old, hin.children⟩
  · show t.locked ⊆ _
    rw [h.unlocked]
    exact Finset.empty_subset _

end Rests

/-- A call ends below the end of `smo_seq`. -/
theorem Grounded.rests {s : Call α} {q : ℕ} (h : Grounded c q I s) (hq : q % 2 = 0)
    (hlt : q < 2 ^ 32) (ok : Bool) : Rests c I (s.finish ok) := by
  have hseq : (s.finish ok).smoSeq = q := by
    show (s.tree.smoSeq + 1) % 2 ^ 32 = q
    rw [h.seq, Nat.mod_eq_of_lt hlt]
  refine ⟨h.root, ?_, Finset.sdiff_eq_empty_iff_subset.mpr h.locks, ?_⟩
  · rw [hseq]
    exact h.inner
  · rwa [hseq]

variable [LinearOrder α]

/-- The calls of a user. -/
def Tree.call (c : Config) (supply : Finset ℕ → Option ℕ) (fuel : ℕ) (t : Tree α) :
    Op α ℕ → Option (Reply (Option ℕ) × Tree α)
  | .insert key value => (t.insert c supply fuel key value).map fun r => (.flag r.1, r.2)
  | .remove key => (t.remove fuel key).map fun r => (.flag r.1, r.2)
  | .find key => (t.find fuel key).map fun r => (.value r, t)

/-- A call from its start to its end, with any pool of pages. -/
def Step (c : Config) (t : Tree α) (e : Op α ℕ × Reply (Option ℕ)) (t' : Tree α) : Prop :=
  ∃ supply fuel, t.call c supply fuel e.1 = some (e.2, t')

theorem step_of_insert {value : ℕ} (h : t.insert c supply fuel key value = some (ok, t')) :
    t.call c supply fuel (.insert key value) = some (.flag ok, t') := by
  rw [Tree.call, h]
  rfl

/-- `find_leaf` without the branch that begins again. -/
def Tree.descend (t : Tree α) (key : α) : ℕ → ℕ → Option ℕ
  | 0, _ => none
  | fuel + 1, cursor =>
    let p := t.mem cursor
    if p.isLeaf then some cursor
    else if cursor ∈ t.locked then none
    else
      match p.get (p.floor key) with
      | none => none
      | some e => if e.2 = 0 then none else descend t key fuel e.2

/-- All ways down from `a` have the length `n`. -/
def Leveled (t : Tree α) : ℕ → ℕ → Prop
  | 0, a => (t.mem a).isLeaf = true
  | n + 1, a => (t.mem a).isLeaf = false ∧ (t.mem a).entries ≠ [] ∧
      ∀ e ∈ (t.mem a).entries, e.2 ≠ 0 ∧ Leveled t n e.2

/-- Searches do not begin again, and they come to a leaf where the pages form a tree. -/
structure Quiet (t : Tree α) : Prop where
  stamp : ∀ a, Reach t a → (t.mem a).isLeaf = false → (t.mem a).smoSeq < t.smoSeq
  direct : ∀ key fuel, t.findLeaf fuel key = t.descend key fuel t.root
  ends : ∀ n, Leveled t n t.root → ∀ key fuel, n < fuel →
    ∃ a, t.findLeaf fuel key = some a ∧ (t.mem a).isLeaf = true

/-- `smo_seq` does not come to its end. -/
def Counted (c : Config) (t : Tree α) : Op α ℕ → Prop
  | .insert key _ => ∀ fuel a, t.findLeaf fuel key = some a → ¬ (t.mem a).Fits c →
      t.smoSeq + 2 < 2 ^ 32
  | _ => True

theorem findLoop_leaf {cursor : ℕ} (h : t.findLoop key fuel cursor = some a) :
    (t.mem a).isLeaf = true := by
  induction fuel generalizing cursor with
  | zero => cases h
  | succ fuel ih =>
    rw [Tree.findLoop] at h
    rcases hleaf : (t.mem cursor).isLeaf with _ | _
    · simp only [hleaf, Bool.false_eq_true, if_false] at h
      rcases hget : (t.mem cursor).get ((t.mem cursor).floor key) with _ | e
      · simp [hget] at h
      · simp only [hget] at h
        split_ifs at h
        · exact ih h
        · exact ih h
    · simp only [hleaf, if_true, Option.some.injEq] at h
      rw [← h]
      exact hleaf

theorem insert_iff_fits {p : Page α} : (p.insert c r).1 = true ↔ p.Fits c := by
  change _ ↔ p.body.Fits c.page (fun _ => c.recordSize) r
  unfold Page.insert AbsPage.insert
  split_ifs with hfits <;> simp [hfits]

/-- An inner page has no record that it has lost. -/
theorem Inner.mem_of_get {q : ℕ} {p : Page α} {e : α × ℕ} (h : Inner c q I p)
    (hget : p.get (p.floor key) = some e) : e ∈ p.entries := by
  by_cases hnil : p.entries = []
  · rw [Page.get, if_pos hnil, h.old] at hget
    split_ifs at hget
  · exact BTree.mem_of_get (floor_lt hnil) hget

namespace Rests

theorem smoInsert (h : Rests c I t) (hlt : t.smoSeq + 2 < 2 ^ 32)
    (hrun : t.smoInsert c supply fuel r = some (ok, t')) : ∃ I', Rests c I' t' := by
  have hwlp : Wlp (Call.smoInsert c supply fuel r) t.begin _ _ := wlp_smoInsert h.begin
  have heven : (t.smoSeq + 2) % 2 = 0 := by have := h.even; omega
  unfold Wlp at hwlp
  rcases hm : Call.smoInsert c supply fuel r t.begin with _ | ⟨_ | u, s⟩
  · cases (smoInsert_of_none h.even hm).symm.trans hrun
  all_goals
    rw [hm] at hwlp
    obtain ⟨I', -, hg, -⟩ := hwlp
  · cases (smoInsert_of_failed h.even hm).symm.trans hrun
    exact ⟨I', hg.rests heven hlt false⟩
  · cases (smoInsert_of_done h.even hm).symm.trans hrun
    exact ⟨I', hg.rests heven hlt true⟩

theorem insert {value : ℕ} (h : Rests c I t) (hcount : Counted c t (.insert key value))
    (hrun : t.insert c supply fuel key value = some (ok, t')) : ∃ I', Rests c I' t' := by
  obtain ⟨a, hfind, hrun⟩ := Option.bind_eq_some_iff.mp hrun
  rw [h.unlocked, if_neg (Finset.notMem_empty a)] at hrun
  have hleaf : ((t.mem a).insert c (key, value)).2.isLeaf = true := findLoop_leaf hfind
  rcases hp : (t.mem a).insert c (key, value) with ⟨_ | _, p⟩
  · rw [hp] at hrun
    refine h.smoInsert (hcount fuel a hfind fun hfits => ?_) hrun
    cases (congrArg Prod.fst hp).symm.trans (insert_iff_fits.mpr hfits)
  · rw [hp] at hrun hleaf
    cases hrun
    exact ⟨I, h.setPage hleaf⟩

theorem remove (h : Rests c I t) (hrun : t.remove fuel key = some (ok, t')) : Rests c I t' := by
  obtain ⟨a, hfind, hrun⟩ := Option.map_eq_some_iff.mp hrun
  rw [h.unlocked, if_neg (Finset.notMem_empty a)] at hrun
  have hleaf : ((t.mem a).remove key).2.isLeaf = true := findLoop_leaf hfind
  rcases hp : (t.mem a).remove key with ⟨_ | _, p⟩
  · rw [hp] at hrun
    cases hrun
    exact h
  · rw [hp] at hrun hleaf
    cases hrun
    exact h.setPage hleaf

theorem call {op : Op α ℕ} {reply : Reply (Option ℕ)} (h : Rests c I t)
    (hcount : Counted c t op) (hrun : t.call c supply fuel op = some (reply, t')) :
    ∃ I', Rests c I' t' := by
  cases op
  all_goals obtain ⟨r, hr, ⟨⟩⟩ := Option.map_eq_some_iff.mp hrun
  · exact h.insert hcount hr
  · exact ⟨I, h.remove hr⟩
  · exact ⟨I, h⟩

/-- From a page of the tree `find_leaf` goes down. -/
theorem findLoop_eq {cursor : ℕ} (h : Rests c I t) (hcursor : I cursor) :
    t.findLoop key fuel cursor = t.descend key fuel cursor := by
  induction fuel generalizing cursor with
  | zero => rfl
  | succ fuel ih =>
    rw [Tree.findLoop, Tree.descend]
    rcases hleaf : (t.mem cursor).isLeaf with _ | _
    · rcases hget : (t.mem cursor).get ((t.mem cursor).floor key) with _ | e
      · rfl
      · have hin := h.inner cursor hcursor hleaf
        have hchild := hin.children e (hin.mem_of_get hget)
        simp only [hin.stamp, if_true, ih hchild]
    · rfl

theorem descend_leveled {cursor : ℕ} (h : Rests c I t) (hlevel : Leveled t n cursor)
    (hfuel : n < fuel) : ∃ a, t.descend key fuel cursor = some a ∧ (t.mem a).isLeaf = true := by
  induction n generalizing cursor fuel with
  | zero =>
    obtain ⟨fuel, rfl⟩ := Nat.exists_eq_succ_of_ne_zero hfuel.ne'
    refine ⟨cursor, ?_, hlevel⟩
    rw [Tree.descend]
    exact if_pos hlevel
  | succ n ih =>
    obtain ⟨fuel, rfl⟩ : ∃ m, fuel = m + 1 := ⟨fuel - 1, by omega⟩
    obtain ⟨hinner, hne, hbelow⟩ := hlevel
    have hlt : (t.mem cursor).floor key < (t.mem cursor).entries.length := floor_lt hne
    have hget : (t.mem cursor).get ((t.mem cursor).floor key) =
        some ((t.mem cursor).entries[(t.mem cursor).floor key]) := by
      rw [Page.get, if_neg hne, List.getElem?_eq_getElem hlt]
    obtain ⟨hzero, hlevel⟩ := hbelow _ (List.getElem_mem hlt)
    rw [Tree.descend]
    simp only [hinner, Bool.false_eq_true, if_false, h.unlocked, Finset.notMem_empty, hget, hzero]
    exact ih hlevel (by omega)

theorem quiet (h : Rests c I t) : Quiet t := by
  have hdirect : ∀ key fuel, t.findLeaf fuel key = t.descend key fuel t.root := fun key fuel =>
    h.findLoop_eq h.root
  refine ⟨h.settled.1, hdirect, ?_⟩
  intro n hlevel key fuel hfuel
  rw [hdirect]
  exact h.descend_leveled hlevel hfuel

end Rests

/-! ### Coming round to 0 -/

/-- A leaf that has records and no space for the key. -/
structure Clogged (c : Config) (t : Tree α) (up : Path α ℕ 1) (a : ℕ) (key : α) : Prop where
  leads : Leads t.mem key up a
  root : t.root = up.root a
  ne_zero : ∀ b ∈ a :: up.nodes, b ≠ 0
  depth : up.length < maxDepth
  isLeaf : (t.mem a).isLeaf = true
  floor : (t.mem a).floor key < (t.mem a).entries.length
  full : ¬ (t.mem a).Fits c
  unlocked : t.locked = ∅

namespace Clogged
variable {value : ℕ} {up : Path α ℕ 1}

theorem findLeaf (h : Clogged c t up a key)
    (hstamp : ∀ b ∈ up.nodes, (t.mem b).smoSeq < t.smoSeq) :
    t.findLeaf (up.length + 1) key = some a := by
  obtain ⟨ha, hup⟩ := List.forall_mem_cons.mp h.ne_zero
  rw [Tree.findLeaf, h.root, findLoop_path up h.leads h.unlocked ha hup hstamp, Tree.findLoop]
  exact if_pos h.isLeaf

/-- Without a page to take the call gives up, and it has used `smo_seq` twice. -/
theorem insert (h : Clogged c t up a key) (heven : t.smoSeq % 2 = 0)
    (hstamp : ∀ b ∈ up.nodes, (t.mem b).smoSeq < t.smoSeq) :
    t.insert c (fun _ => none) (up.length + 1) key value =
      some (false, { t with smoSeq := (t.smoSeq + 2) % 2 ^ 32 }) := by
  obtain ⟨ha, hup⟩ := List.forall_mem_cons.mp h.ne_zero
  have hlock : a ∉ t.begin.tree.locked := by
    show a ∉ t.locked
    simp [h.unlocked]
  have htraverse : Call.traverseLoop key maxDepth t.begin.tree.root [] t.begin =
      some (some (a :: up.nodes), t.begin.pushLock a) :=
    (wp_traverse h.leads h.root ha hup h.depth h.isLeaf rfl hlock h.floor ⟨rfl, rfl⟩).run
  have hcall : Call.smoInsert c (fun _ => none) (up.length + 1) (key, value) t.begin =
      some (none, t.begin.pushLock a) := by
    refine (run_bind rfl).trans ((run_bind htraverse).trans ?_)
    cases up.nodes <;> rfl
  have hpage : (t.mem a).insert c (key, value) = (false, t.mem a) := by
    have hfits : ¬ (t.mem a).body.Fits c.page (fun _ => c.recordSize) (key, value) := h.full
    unfold Page.insert AbsPage.insert
    rw [if_neg hfits]
  rw [Tree.insert, h.findLeaf hstamp, Option.bind_some, h.unlocked,
    if_neg (Finset.notMem_empty _), hpage]
  show t.smoInsert c _ _ (key, value) = _
  rw [smoInsert_of_failed heven hcall]
  simp [Call.finish, Call.pushLock, Tree.begin, h.unlocked]

/-- The same leaf under another sequence. -/
theorem congr (h : Clogged c t up a key) (seq : ℕ) :
    Clogged c { t with smoSeq := seq } up a key :=
  ⟨h.leads, h.root, h.ne_zero, h.depth, h.isLeaf, h.floor, h.full, h.unlocked⟩

/-- Insertions that give up bring `smo_seq` back to 0. -/
theorem exists_wrap (h : Clogged c t up a key) (heven : t.smoSeq % 2 = 0)
    (hstamp : ∀ b ∈ up.nodes, (t.mem b).smoSeq < t.smoSeq) {k : ℕ}
    (hk : t.smoSeq + 2 * k + 2 = 2 ^ 32) :
    Run (Step c) t (List.replicate (k + 1) (.insert key value, .flag false))
      { t with smoSeq := 0 } := by
  induction k generalizing t with
  | zero =>
    have hstep : t.insert c _ _ key value = _ := h.insert heven hstamp
    rw [show (t.smoSeq + 2) % 2 ^ 32 = 0 by omega] at hstep
    exact .single ⟨_, _, step_of_insert hstep⟩
  | succ k ih =>
    have hstep : t.insert c _ _ key value = _ := h.insert heven hstamp
    rw [show (t.smoSeq + 2) % 2 ^ 32 = t.smoSeq + 2 by omega] at hstep
    refine .stepL ⟨_, _, step_of_insert hstep⟩ (ih (h.congr _) ?_ (fun b hb => ?_) ?_)
    · show (t.smoSeq + 2) % 2 = 0
      omega
    · show (t.mem b).smoSeq < t.smoSeq + 2
      exact (hstamp b hb).trans_le (Nat.le_add_right _ _)
    · show t.smoSeq + 2 + 2 * k + 2 = 2 ^ 32
      omega

end Clogged

section Runs
variable {mem : ℕ → Page α} {root : ℕ} {es : List (Op α ℕ × Reply (Option ℕ))}
  (h : Run (restrict (Step c) fun t e => Counted c t e.1) (Tree.create mem root) es t)
include h

theorem exists_rests : ∃ I, Rests c I t := by
  refine h.invariant (P := fun t => ∃ I, Rests c I t) ?_ ⟨_, Rests.create mem root⟩
  rintro t e t' ⟨⟨supply, fuel, hrun⟩, hcount⟩ ⟨I, hI⟩
  exact hI.call hcount hrun

/-- Every call gives back its locks, also one that fails. -/
theorem locks_given_back : t.locked = ∅ ∧ t.smoSeq % 2 = 0 ∧ Settled c t := by
  obtain ⟨I, hI⟩ := exists_rests h
  exact ⟨hI.unlocked, hI.even, hI.settled⟩

end Runs

section Example

def emptyTree : Tree ℕ := Tree.create (fun _ => Tree.blankPage 0 true) 1

/-- Pages are given out in order. -/
def nextPage (live : Finset ℕ) : Option ℕ := some live.card

/-- The way to the leaf for 5 below a new root. -/
def wayToFive : Path ℕ ℕ 1 := .step 4 [(1, MultiTree.node 2 [])] 3 [] .top

/-- The tree after an insertion that returns. -/
def inserted (t : Tree ℕ) (key value : ℕ) : Tree ℕ :=
  ((t.insert twoRecordPages nextPage 2 key value).map Prod.snd).getD t

def fullLeaf : Tree ℕ := inserted (inserted emptyTree 1 10) 3 30

def splitTree : Tree ℕ := inserted fullLeaf 4 40

theorem step_inserted {t : Tree ℕ} {key value : ℕ}
    (h : (t.insert twoRecordPages nextPage 2 key value).map Prod.fst = some true)
    (hseq : t.smoSeq + 2 < 2 ^ 32) :
    restrict (Step twoRecordPages) (fun t e => Counted twoRecordPages t e.1) t
      (.insert key value, .flag true) (inserted t key value) := by
  obtain ⟨r, hr, hok⟩ := Option.map_eq_some_iff.mp h
  have hrun : t.insert twoRecordPages nextPage 2 key value =
      some (true, inserted t key value) := by
    rw [inserted, hr, ← hok]
    rfl
  exact ⟨⟨_, _, step_of_insert hrun⟩, fun _ _ _ _ => hseq⟩

theorem splitTree_reached :
    Run (restrict (Step twoRecordPages) fun t e => Counted twoRecordPages t e.1) emptyTree
      [(.insert 1 10, .flag true), (.insert 3 30, .flag true), (.insert 4 40, .flag true)]
      splitTree := by
  have hfirst : (emptyTree.insert twoRecordPages nextPage 2 1 10).map Prod.fst = some true := rfl
  have hsecond : ((inserted emptyTree 1 10).insert twoRecordPages nextPage 2 3 30).map Prod.fst =
      some true := rfl
  have hthird : (fullLeaf.insert twoRecordPages nextPage 2 4 40).map Prod.fst = some true := by
    decide +kernel
  exact .stepL (step_inserted hfirst (by decide)) (.stepL (step_inserted hsecond (by decide))
    (.single (step_inserted hthird (by decide))))

theorem splitTree_stamps : splitTree.smoSeq = 2 ∧ (splitTree.mem 4).smoSeq = 1 := by
  decide +kernel

theorem splitTree_clogged : Clogged twoRecordPages splitTree wayToFive 3 5 := by
  have hpages : splitTree.root = 4 ∧ splitTree.locked = ∅ ∧ (splitTree.mem 4).isLeaf = false ∧
      (splitTree.mem 4).entries = [(1, 2), (3, 3)] ∧ (splitTree.mem 3).isLeaf = true ∧
      (splitTree.mem 3).entries = [(3, 30), (4, 40)] ∧ ¬ (splitTree.mem 3).Fits twoRecordPages := by
    decide +kernel
  obtain ⟨hroot, hlocked, hinner, hentries, hleaf, hrecords, hfull⟩ := hpages
  refine ⟨⟨hinner, ?_, ?_, ?_, trivial⟩, hroot, by decide, by decide, hleaf, ?_, hfull, hlocked⟩
  · simp [hentries]
  · simp [Page.floor, hentries, below]
  · simp [Page.get, hentries]
  · simp [Page.floor, hrecords, below]

theorem splitTree_inner : (splitTree.mem splitTree.root).isLeaf = false := by
  rw [splitTree_clogged.root]
  exact splitTree_clogged.leads.1

theorem splitTree_unlocked : splitTree.locked = ∅ ∧ splitTree.smoSeq % 2 = 0 ∧
    Settled twoRecordPages splitTree := locks_given_back splitTree_reached

end Example
end YwStorage.BTree
