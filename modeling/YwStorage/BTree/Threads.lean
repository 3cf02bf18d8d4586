import YwStorage.BTree.Map
import YwStorage.Lib.Fuel

/-!
Several threads on one tree. A search of `find_leaf`, an operation on a leaf and the part of
`insert` under `smo_guard` are single steps. A leaf may be split and given to the RCU between the
search and the operation on it.
-/
namespace YwStorage.BTree
open SortedMap Supply Lts

/-- Where a thread is in `insert` or `remove`. A removal is late if it began when the insertion of
its key had returned. -/
inductive Pc (α : Type)
  | idle
  | inserting (key : α) (value leaf : ℕ)
  | splitting (key : α) (value : ℕ)
  | removing (key : α) (late : Bool) (leaf : ℕ)
  deriving DecidableEq

/-- What a thread does next. It is `refused` when another thread holds the lock. -/
inductive Event (α : Type)
  | insert (key : α) (value : ℕ)
  | remove (key : α)
  | proceed
  | refused
  deriving DecidableEq

/-- What has happened to a key. Its only insertion has begun, or has returned `true`, or a late
removal has returned `true` too. -/
inductive Fate (ι : Type)
  | unborn
  | begun (i : ι)
  | put (value : ℕ)
  | taken
  deriving DecidableEq

def Fate.value? {ι : Type} : Fate ι → Option ℕ
  | .put value => some value
  | _ => none

structure World (ι α : Type) where
  tree : Tree α
  pc : ι → Pc α
  fate : α → Fate ι

variable {ι α : Type} [DecidableEq ι] [LinearOrder α] {c : Config} {t : Tree α} {w w' : World ι α}
  {i : ι} {key : α} {value fuel : ℕ} {e : Event α} {supply : Finset ℕ → Option ℕ} {pc : Pc α}

namespace World

def start (mem : ℕ → Page α) (root : ℕ) : World ι α :=
  ⟨Tree.create mem root, fun _ => .idle, fun _ => .unborn⟩

def goto (w : World ι α) (i : ι) (pc : Pc α) : World ι α :=
  { w with pc := Function.update w.pc i pc }

/-- A step that counts for a key. -/
def mark (w : World ι α) (i : ι) (pc : Pc α) (t : Tree α) (key : α) (f : Fate ι) : World ι α :=
  ⟨t, Function.update w.pc i pc, Function.update w.fate key f⟩

def act (c : Config) (supply : Finset ℕ → Option ℕ) (fuel : ℕ) (w : World ι α) (i : ι)
    (e : Event α) : Option (World ι α) :=
  match w.pc i, e with
  | .idle, .insert key value =>
    if w.fate key = .unborn then (w.tree.findLeaf fuel key).map fun leaf =>
      w.mark i (.inserting key value leaf) w.tree key (.begun i)
    else none
  | .idle, .remove key => (w.tree.findLeaf fuel key).map fun leaf =>
    w.goto i (.removing key (w.fate key = .taken ∨ (w.fate key).value?.isSome) leaf)
  | .inserting key value leaf, .proceed =>
    match (w.tree.mem leaf).insert c (key, value) with
    | (true, p) => some (w.mark i .idle (w.tree.setPage leaf p) key (.put value))
    | (false, _) => some (w.goto i (.splitting key value))
  | .inserting key value _, .refused => some (w.goto i (.splitting key value))
  | .splitting key value, .proceed =>
    (w.tree.smoInsert c supply fuel (key, value)).map fun r =>
      w.mark i .idle r.2 key (if r.1 then .put value else w.fate key)
  | .splitting _ _, .refused => some (w.goto i .idle)
  | .removing key late leaf, .proceed =>
    match (w.tree.mem leaf).remove key with
    | (true, p) => some (w.mark i .idle (w.tree.setPage leaf p) key
        (if late then .taken else w.fate key))
    | (false, _) => some (w.goto i .idle)
  | .removing _ _ _, .refused => some (w.goto i .idle)
  | _, _ => none

/-- A step of a thread that gets all its pages. -/
def Step (c : Config) (w : World ι α) (e : ι × Event α) (w' : World ι α) : Prop :=
  ∃ supply fuel, FreshSupply supply ∧ (∀ live, supply live ≠ none) ∧ 5 ≤ fuel ∧
    w.act c supply fuel e.1 e.2 = some w'

/-- What the next step of a thread needs. A leaf that takes or gives a record is the one that a
search would find now, and a removal of a present key is late. -/
def Timely (c : Config) (w : World ι α) (i : ι) : Prop :=
  match w.pc i with
  | .idle => True
  | .inserting key _ leaf => (w.tree.mem leaf).Fits c → ∃ fuel, w.tree.findLeaf fuel key = some leaf
  | .splitting _ _ => Low w.tree ∧ w.tree.smoSeq + 2 < 2 ^ 32
  | .removing key late leaf => ((w.tree.mem leaf).remove key).1 = true →
    (∃ fuel, w.tree.findLeaf fuel key = some leaf) ∧ late = true

/-- A key is found with its value just if its insertion has returned `true` and no late removal
has. -/
def Accounted (w : World ι α) (key : α) : Prop :=
  ∃ leaf, Fuel.Returns (fun fuel => w.tree.findLeaf fuel key) leaf ∧ ∀ value,
    ((key, value) ∈ (w.tree.mem leaf).entries ↔ (w.fate key).value? = some value) ∧
      ((w.fate key).value? = some value →
        Fuel.Returns (fun fuel => w.tree.find fuel key) (some value))

end World

/-- The key that a thread is inserting. -/
def Pc.insertion : Pc α → Option α
  | .inserting key _ _ | .splitting key _ => some key
  | _ => none

/-- The tree holds the records that are put, and a running insertion has not put its own. -/
structure Consistent (c : Config) (w : World ι α) : Prop where
  held : Represented c w.tree (Fate.value? ∘ w.fate)
  pending : ∀ i key, (w.pc i).insertion = some key → w.fate key = .begun i

namespace Consistent

theorem goto (h : Consistent c w)
    (hpc : ∀ key, pc.insertion = some key → (w.pc i).insertion = some key) :
    Consistent c (w.goto i pc) := by
  have hmoved := Function.forall_update_iff w.pc (a := i) (b := pc)
    fun j pc => ∀ key, pc.insertion = some key → w.fate key = .begun j
  exact ⟨h.held, hmoved.mpr ⟨fun key hk => h.pending i key (hpc key hk), fun j _ => h.pending j⟩⟩

/-- Nobody else is inserting the key. -/
theorem mark (h : Consistent c w) {f : Fate ι} (hfate : ∀ j, w.fate key = .begun j → j = i)
    (ht : Represented c t (Function.update (Fate.value? ∘ w.fate) key f.value?))
    (hpc : ∀ k, pc.insertion = some k → k = key ∧ f = .begun i) :
    Consistent c (w.mark i pc t key f) := by
  rw [← Function.comp_update] at ht
  refine ⟨ht, fun j k hk => ?_⟩
  by_cases hj : j = i
  · subst hj
    obtain ⟨rfl, rfl⟩ := hpc k (by simpa [World.mark] using hk)
    exact Function.update_self ..
  · have hbegun := h.pending j k (by simpa [World.mark, hj] using hk)
    have hne : k ≠ key := by
      rintro rfl
      exact hj (hfate j hbegun)
    exact (Function.update_of_ne hne _ _).trans hbegun

omit [DecidableEq ι] in
/-- The key of a running insertion is not there. -/
theorem absent (h : Consistent c w) (hkey : (w.pc i).insertion = some key) :
    (Fate.value? ∘ w.fate) key = none := by
  rw [Function.comp_apply, h.pending i key hkey]
  rfl

theorem finish (h : Consistent c w) (hkey : (w.pc i).insertion = some key)
    (ht : Represented c t (Function.update (Fate.value? ∘ w.fate) key (some value))) :
    Consistent c (w.mark i .idle t key (.put value)) := by
  refine h.mark (fun j hj => ?_) ht (by rintro _ ⟨⟩)
  cases (h.pending i key hkey).symm.trans hj
  rfl

/-- A timely step. -/
theorem act (h : Consistent c w) (htimely : w.Timely c i)
    (hcap : 2 * (c.recordSize + c.page.slotSize) ≤ c.page.bodySize) (hfresh : FreshSupply supply)
    (htotal : ∀ live, supply live ≠ none) (hfuel : 5 ≤ fuel)
    (hact : w.act c supply fuel i e = some w') : Consistent c w' := by
  have hidle : Consistent c (w.goto i .idle) := h.goto (by rintro _ ⟨⟩)
  unfold World.act at hact
  unfold World.Timely at htimely
  split at hact
  case h_1 key value hpc =>
    split_ifs at hact with hnew
    obtain ⟨leaf, -, rfl⟩ := Option.map_eq_some_iff.mp hact
    refine h.mark (fun j hj => by cases hnew.symm.trans hj) ?_ fun k hk =>
      ⟨(Option.some.inj hk).symm, rfl⟩
    rw [Function.update_eq_self_iff.mpr (by rw [Function.comp_apply, hnew]; rfl)]
    exact h.held
  case h_2 key hpc =>
    obtain ⟨leaf, -, rfl⟩ := Option.map_eq_some_iff.mp hact
    exact h.goto (by rintro _ ⟨⟩)
  case h_3 key value leaf hpc =>
    have hkey : (w.pc i).insertion = some key := by rw [hpc]; rfl
    rw [hpc] at htimely
    rcases hp : (w.tree.mem leaf).insert c (key, value) with ⟨_ | _, p⟩
    all_goals rw [hp] at hact; cases hact
    · exact h.goto fun _ hk => hkey.trans hk
    · obtain ⟨n, hfind⟩ := htimely (insert_iff_fits.mp (congrArg Prod.fst hp))
      exact h.finish hkey (h.held.leafInsert (h.absent hkey) hfind hp)
  case h_4 key value leaf hpc =>
    cases hact
    exact h.goto fun _ hk => by rw [hpc]; exact hk
  case h_5 key value hpc =>
    have hkey : (w.pc i).insertion = some key := by rw [hpc]; rfl
    rw [hpc] at htimely
    obtain ⟨⟨ok, t⟩, hrun, rfl⟩ := Option.map_eq_some_iff.mp hact
    obtain ⟨n, a, r, -, hsearch, -⟩ := h.held.search key
    obtain ⟨hyes, hno⟩ : (_ → ∃ t', w.tree.smoInsert c supply fuel (key, value) = _ ∧ _) ∧ _ :=
      h.held.smoInsert hcap hfresh htotal htimely.1 hfuel (h.absent hkey) (hsearch n le_rfl).1
    by_cases hdivides : Divides (w.tree.mem a).entries key
    · obtain ⟨t', hrun', hrep⟩ := hyes hdivides
      cases hrun.symm.trans hrun'
      exact h.finish hkey (hrep htimely.2)
    · cases hrun.symm.trans (hno hdivides)
  case h_7 key late leaf hpc =>
    rw [hpc] at htimely
    rcases hp : (w.tree.mem leaf).remove key with ⟨_ | _, p⟩
    all_goals rw [hp] at hact; cases hact
    · exact hidle
    · obtain ⟨⟨n, hfind⟩, rfl⟩ := htimely (congrArg Prod.fst hp)
      obtain ⟨hok, hrep⟩ := h.held.leafRemove hfind hp
      refine h.mark (fun j hj => ?_) (hrep rfl) (by rintro _ ⟨⟩)
      rw [Function.comp_apply, hj] at hok
      cases hok
  case h_9 => cases hact
  all_goals
    cases hact
    exact hidle

end Consistent

section Runs
variable {mem : ℕ → Page α} {root : ℕ} {es : List (ι × Event α)}
  (hcap : 2 * (c.recordSize + c.page.slotSize) ≤ c.page.bodySize) (hroot : root ≠ 0)
  (h : Run (restrict (World.Step c) fun w e => w.Timely c e.1) (World.start mem root) es w)
include hcap hroot h

theorem Consistent.run : Consistent c w := by
  refine h.invariant ?_ ⟨represented_create hroot, by rintro i key ⟨⟩⟩
  rintro w e w' ⟨⟨supply, fuel, hfresh, htotal, hfuel, hact⟩, htimely⟩ hw
  exact hw.act htimely hcap hfresh htotal hfuel hact

/-- In runs of timely steps no update is lost. -/
theorem timely_runs_accounted : w.Accounted key := by
  obtain ⟨n, leaf, r, -, hsearch, hfound, hmem⟩ := (Consistent.run hcap hroot h).held.search key
  refine ⟨leaf, ⟨n, fun fuel hn => (hsearch fuel hn).1⟩, fun value => ⟨hmem value, fun hv => ?_⟩⟩
  rw [← hfound value hv]
  exact ⟨n, fun fuel hn => (hsearch fuel hn).2⟩

/-- In these runs the leaves stay on the level of `get_depth`, and no page of the tree is given to
the RCU. -/
theorem timely_runs_leveled : ∃ n, Leveled w.tree n w.tree.root ∧
    (∀ fuel, n < fuel → w.tree.getDepth fuel w.tree.root = some (n + 1)) ∧ w.tree.rcu.Nodup ∧
      ∀ a, Reach w.tree a → a ∉ w.tree.rcu := by
  obtain ⟨-, T, -, hT, -⟩ := (Consistent.run hcap hroot h).held
  refine ⟨_, hT.leveled, fun fuel hfuel => ?_, hT.rcu_nodup, fun a ha hrcu => hT.clean a hrcu ?_⟩
  · rw [hT.leveled.getDepth_eq, if_pos hfuel]
  · exact Multiset.mem_of_le hT.count (Multiset.mem_cons_of_mem (hT.reach_mem hT.height ha))

end Runs

section Example

/-- A record is still there although its removal has returned. -/
def overlooked (w : World Bool ℕ) : Bool :=
  (∀ i, w.pc i = .idle) ∧ w.fate 1 = .taken ∧ (w.tree.findLeaf 5 1).any fun a =>
    (1, 10) ∈ (w.tree.mem a).entries

/-- One thread has found the leaf of 1 for a removal when the other one splits it. -/
theorem removal_from_retired_leaf : ∃ es w, Run (World.Step twoRecordPages)
    (World.start (fun _ => Tree.blankPage 0 true) 1) es w ∧ (∀ i : Bool, w.pc i = .idle) ∧
      ¬ w.Accounted 1 := by
  obtain ⟨w, hrun, hend⟩ := exists_run_acts
    (fun (w : World Bool ℕ) e => w.act twoRecordPages endless 5 e.1 e.2) (fun _ _ => true)
    (World.start (fun _ => Tree.blankPage 0 true) 1)
    [(true, .insert 1 10), (true, .proceed), (true, .insert 3 30), (true, .proceed),
      (false, .remove 1), (true, .insert 4 40), (true, .proceed), (true, .proceed),
      (false, .proceed)] overlooked (b := true) (by decide +kernel)
  obtain ⟨hidle, htaken, hleaf⟩ := of_decide_eq_true hend
  obtain ⟨a, ha, hmem⟩ := (Option.any_eq_true _ _).mp hleaf
  refine ⟨_, w, hrun.mono fun _ _ _ h => ⟨endless, 5, freshSupply_endless, total_endless, le_rfl,
    h.1⟩, hidle, ?_⟩
  rintro ⟨b, ⟨n, hb⟩, hput⟩
  obtain rfl := findLoop_unique ha (hb n le_rfl)
  have hsome := (hput 10).1.mp (of_decide_eq_true hmem)
  rw [htaken] at hsome
  cases hsome

theorem insertion_run : ∃ es, ∃ w : World Bool ℕ, w.fate 1 = .put 10 ∧
    Run (restrict (World.Step twoRecordPages) fun w e => w.Timely twoRecordPages e.1)
      (World.start (fun _ => Tree.blankPage 0 true) 1) es w := by
  have hstep : ∀ {w w' : World Bool ℕ} {e}, w.act twoRecordPages endless 5 true e = some w' →
      w.Step twoRecordPages (true, e) w' := fun h =>
    ⟨endless, 5, freshSupply_endless, total_endless, le_rfl, h⟩
  exact ⟨_, _, rfl, .stepL ⟨hstep (e := .insert 1 10) rfl, trivial⟩
    (.single ⟨hstep (e := .proceed) rfl, fun _ => ⟨5, rfl⟩⟩)⟩

theorem insertion_accounted : ∃ w : World Bool ℕ, w.fate 1 = .put 10 ∧ w.Accounted 1 := by
  obtain ⟨es, w, hput, hrun⟩ := insertion_run
  exact ⟨w, hput, timely_runs_accounted (by decide) one_ne_zero hrun⟩

theorem insertion_leveled : ∃ (w : World Bool ℕ) (n : ℕ), Leveled w.tree n w.tree.root := by
  obtain ⟨es, w, -, hrun⟩ := insertion_run
  obtain ⟨n, hn, -⟩ := timely_runs_leveled (by decide) one_ne_zero hrun
  exact ⟨w, n, hn⟩

end Example
end YwStorage.BTree
