import YwStorage.Lib.MultiTree
import YwStorage.Lib.SortedMap

/-!
Search order of multiway trees. An entry's key separates: what lies below the entry is below the
keys to its right, and not below its own key. Where `low` fails, the first entry of a node has no
lower bound of its own and takes everything down to the bound of the node; above the lowest nodes
its key is then of no use. A lowest node may carry a mark, a key of its region that need not have an
entry.
-/
namespace MultiTree
open SortedMap

variable {κ A : Type} [LinearOrder κ] {low : Prop} {mark mark' : A → Option κ} {P Q : κ → Prop}
  {n : ℕ} {a : A} {k : κ} {es pre post : List (κ × Node κ A n)} {t : Node κ A n} {x : κ}

/-- The keys that may lie below the entry `k` between `pre` and `post`. -/
structure Region (low : Prop) (P : κ → Prop) (pre : List (κ × Node κ A n)) (k : κ)
    (post : List (κ × Node κ A n)) (x : κ) : Prop where
  inside : P x
  lower : low ∨ pre ≠ [] → k ≤ x
  upper : ∀ e ∈ post, x < e.1

/-- No node is marked. -/
def unmarked (_ : A) : Option κ := none

/-- The mark of a lowest node is in `P`. -/
def MarkIn (mark : A → Option κ) (P : κ → Prop) (n : ℕ) (a : A) : Prop :=
  n = 0 → ∀ k ∈ mark a, P k

theorem markIn_unmarked : MarkIn unmarked P n a := fun _ k hk => by simp [unmarked] at hk

theorem markIn_succ : MarkIn mark P (n + 1) a := fun h => by simp at h

theorem MarkIn.mono (h : MarkIn mark P n a) (hPQ : ∀ x, P x → Q x) : MarkIn mark Q n a :=
  fun hn k hk => hPQ k (h hn k hk)

/-- Search order, with all keys and marks in `P`. -/
def Ordered (low : Prop) (mark : A → Option κ) : {n : ℕ} → (κ → Prop) → Node κ A n → Prop
  | 0, _, _ => True
  | n + 1, P, (a, es) => es.Pairwise (fun e f => e.1 < f.1) ∧ MarkIn mark P n a ∧
      ∀ pre e post, es = pre ++ e :: post → (low ∨ pre ≠ [] ∨ n = 0 → P e.1) ∧
        Ordered low mark (Region low P pre e.1 post) e.2

theorem Region.mono (h : Region low P pre k post x) (hPQ : ∀ x, P x → Q x) :
    Region low Q pre k post x := ⟨hPQ x h.inside, h.lower, h.upper⟩

theorem Ordered.mono (h : Ordered low mark P t) (hPQ : ∀ x, P x → Q x) : Ordered low mark Q t := by
  induction n generalizing P Q with
  | zero => trivial
  | succ n ih =>
    obtain ⟨a, es, rfl⟩ := exists_node t
    obtain ⟨hp, hm, hch⟩ := h
    exact ⟨hp, hm.mono hPQ, fun pre e post he => ⟨fun hb => hPQ _ ((hch pre e post he).1 hb),
      ih (hch pre e post he).2 fun x hx => hx.mono hPQ⟩⟩

/-- Only the marks of the nodes in the tree matter. -/
theorem Ordered.congr (h : Ordered low mark P t) (hm : ∀ a ∈ addrs t, mark' a = mark a) :
    Ordered low mark' P t := by
  induction n generalizing P with
  | zero => trivial
  | succ n ih =>
    obtain ⟨a, es, rfl⟩ := exists_node t
    obtain ⟨hp, hmark, hch⟩ := h
    refine ⟨hp, fun hn k hk => hmark hn k ?_, fun pre e post he => ⟨(hch pre e post he).1,
      ih (hch pre e post he).2 fun b hb => hm b ?_⟩⟩
    · rwa [hm a (by simp [addrs_node])] at hk
    · have hmem : e ∈ es := by simp [he]
      exact Multiset.mem_add.mpr (Or.inr (Multiset.mem_of_le (addrs_le_addrsOf hmem) hb))

/-- Two ways to cut a list at an element. -/
theorem split_cases {α : Type*} {xs ys xs' ys' : List α} {u v : α}
    (h : xs ++ u :: ys = xs' ++ v :: ys') :
    (∃ cs, xs = xs' ++ v :: cs ∧ ys' = cs ++ u :: ys) ∨ (xs = xs' ∧ u = v ∧ ys = ys') ∨
      ∃ cs, xs' = xs ++ u :: cs ∧ ys = cs ++ v :: ys' := by
  induction xs generalizing xs' with
  | nil =>
    cases xs' with
    | nil =>
      simp only [List.nil_append, List.cons.injEq] at h
      exact Or.inr (Or.inl ⟨rfl, h⟩)
    | cons w ws =>
      simp only [List.nil_append, List.cons_append, List.cons.injEq] at h
      exact Or.inr (Or.inr ⟨ws, by simp [h.1], h.2⟩)
  | cons w ws ih =>
    cases xs' with
    | nil =>
      simp only [List.nil_append, List.cons_append, List.cons.injEq] at h
      exact Or.inl ⟨ws, by simp [h.1], h.2.symm⟩
    | cons w' ws' =>
      simp only [List.cons_append, List.cons.injEq] at h
      obtain ⟨rfl, h⟩ := h
      rcases ih h with ⟨cs, rfl, rfl⟩ | ⟨rfl, rfl, rfl⟩ | ⟨cs, rfl, rfl⟩
      · exact Or.inl ⟨cs, rfl, rfl⟩
      · exact Or.inr (Or.inl ⟨rfl, rfl, rfl⟩)
      · exact Or.inr (Or.inr ⟨cs, rfl, rfl⟩)

theorem pairwise_of_split {α : Type*} {R : α → α → Prop} {xs : List α}
    (h : ∀ pre u post, xs = pre ++ u :: post → ∀ v ∈ post, R u v) : xs.Pairwise R := by
  induction xs with
  | nil => exact .nil
  | cons u xs ih =>
    refine .cons (h [] u xs rfl) (ih fun pre v post hx => h (u :: pre) v post ?_)
    rw [hx, List.cons_append]

section Node
variable {e : κ × Node κ A n}

/-- A subtree may be replaced by any tree of its region, whatever its marks are. -/
theorem Ordered.replace (h : Ordered low mark P (node a (pre ++ (k, t) :: post)))
    (hm : ∀ b ∈ {a} + addrsOf pre + addrsOf post, mark' b = mark b)
    {t' : Node κ A n} (ht : Ordered low mark' (Region low P pre k post) t') :
    Ordered low mark' P (node a (pre ++ (k, t') :: post)) := by
  obtain ⟨hp, hmark, hch⟩ := h
  simp only [Multiset.mem_add, Multiset.mem_singleton] at hm
  refine ⟨?_, fun hn x hx => hmark hn x ?_, fun pre' e post' he => ?_⟩
  · simpa only [List.pairwise_append, List.pairwise_cons, List.forall_mem_cons] using hp
  · rwa [hm a (by simp)] at hx
  · rcases split_cases he with ⟨cs, rfl, rfl⟩ | ⟨rfl, rfl, rfl⟩ | ⟨cs, rfl, rfl⟩
    · obtain ⟨hin, hsub⟩ := hch pre' e (cs ++ (k, t) :: post) (by simp)
      have hregion : Ordered low mark (Region low P pre' e.1 (cs ++ (k, t') :: post)) e.2 := by
        refine hsub.mono fun x hx => ⟨hx.1, hx.2, ?_⟩
        simpa only [List.forall_mem_append, List.forall_mem_cons] using hx.3
      refine ⟨hin, hregion.congr fun b hb => hm b ?_⟩
      exact .inl (.inr (mem_addrsOf.mpr ⟨e, by simp, hb⟩))
    · exact ⟨(hch pre (k, t) post rfl).1, ht⟩
    · obtain ⟨hin, hsub⟩ := hch (pre ++ (k, t) :: cs) e post' (by simp)
      refine ⟨fun _ => hin (by simp),
        (hsub.mono fun x hx => ⟨hx.1, fun _ => hx.2 (by simp), hx.3⟩).congr fun b hb => hm b ?_⟩
      exact .inr (mem_addrsOf.mpr ⟨e, by simp, hb⟩)

theorem Ordered.rename {b : A} (h : Ordered low mark P (node a es)) (hb : MarkIn mark P n b) :
    Ordered low mark P (node b es) := ⟨h.1, hb, h.2.2⟩

/-- A node with a single entry, whose key is not above the others. -/
theorem ordered_single (hk : P k) (ht : Ordered low mark P t) (hle : ∀ x, P x → k ≤ x)
    (hm : MarkIn mark P n a) : Ordered low mark P (node a [(k, t)]) := by
  refine ⟨List.pairwise_singleton _ _, hm, fun pre e post he => ?_⟩
  obtain ⟨rfl, hcons⟩ | ⟨_, _, hnil⟩ := List.append_eq_cons_iff.mp he.symm
  · cases hcons
    exact ⟨fun _ => hk, ht.mono fun x hx => ⟨hx, fun _ => hle x hx, by simp⟩⟩
  · simp at hnil

/-- The order of a lowest node. -/
theorem ordered_leaf {es : List (κ × Node κ A 0)} : Ordered low mark P (node a es) ↔
    es.Pairwise (fun e f => e.1 < f.1) ∧ (∀ k ∈ mark a, P k) ∧ ∀ e ∈ es, P e.1 := by
  constructor
  · rintro ⟨hp, hm, hch⟩
    refine ⟨hp, hm rfl, fun e he => ?_⟩
    obtain ⟨pre, post, hsplit⟩ := List.append_of_mem he
    exact (hch pre e post hsplit).1 (Or.inr (Or.inr rfl))
  · rintro ⟨hp, hm, hin⟩
    exact ⟨hp, fun _ => hm, fun pre e post he => ⟨fun _ => hin e (by simp [he]), trivial⟩⟩

/-- The subtree of an entry lies in its region. -/
theorem Ordered.child (h : Ordered low mark P (node a (pre ++ (k, t) :: post))) :
    Ordered low mark (Region low P pre k post) t := (h.2.2 pre (k, t) post rfl).2

theorem Ordered.keys_sorted (h : Ordered low mark P (node a es)) :
    es.Pairwise (fun e f => e.1 < f.1) := h.1

theorem Ordered.key_inside (h : Ordered low mark P (node a (pre ++ e :: post)))
    (hb : low ∨ pre ≠ [] ∨ n = 0) : P e.1 := (h.2.2 pre e post rfl).1 hb

theorem Ordered.key_mem (h : Ordered True mark P (node a es)) (he : e ∈ es) : P e.1 := by
  obtain ⟨pre, post, rfl⟩ := List.append_of_mem he
  exact h.key_inside (Or.inl trivial)

theorem Ordered.allKeys (h : Ordered True mark P t) : AllKeys P t := by
  induction n generalizing P with
  | zero => trivial
  | succ n ih =>
    obtain ⟨a, es, rfl⟩ := exists_node t
    intro e he
    refine ⟨h.key_mem he, ?_⟩
    obtain ⟨pre, post, rfl⟩ := List.append_of_mem he
    have hchild : Ordered True mark (Region True P pre e.1 post) e.2 := h.child
    exact ih (hchild.mono fun x hx => hx.inside)

/-- The key of an entry is in its own region. -/
theorem Ordered.region_self (h : Ordered low mark P (node a (pre ++ (k, t) :: post)))
    (hb : low ∨ pre ≠ [] ∨ n = 0) : Region low P pre k post k := by
  have hp := h.keys_sorted
  rw [List.pairwise_append, List.pairwise_cons] at hp
  exact ⟨h.key_inside hb, fun _ => le_rfl, hp.2.1.1⟩

/-- The data below an entry has keys of its region. -/
theorem Ordered.contents_region (h : Ordered low mark P (node a (pre ++ e :: post))) :
    ∀ c ∈ contents e, Region low P pre e.1 post c.1 := by
  obtain ⟨k, t⟩ := e
  induction n generalizing P k a with
  | zero =>
    intro c hc
    rw [List.mem_singleton.mp hc]
    exact h.region_self (Or.inr (Or.inr rfl))
  | succ n ih =>
    obtain ⟨b, fs, rfl⟩ := exists_node t
    intro c hc
    obtain ⟨f, hf, hcf⟩ := List.mem_flatMap.mp hc
    obtain ⟨pre', post', rfl⟩ := List.append_of_mem hf
    exact (ih f.1 f.2 h.child c hcf).inside

/-- The data of a tree stands in the order of its keys. -/
theorem Ordered.sorted {t : Node κ A (n + 1)} (h : Ordered low mark P t) :
    Sorted (whole ⟨n + 1, t⟩) := by
  induction n generalizing P with
  | zero =>
    obtain ⟨a, es, rfl⟩ := exists_node t
    refine List.pairwise_flatMap.mpr ⟨fun e _ => List.pairwise_singleton _ _, ?_⟩
    refine h.keys_sorted.imp fun hef c hc d hd => ?_
    rwa [List.mem_singleton.mp hc, List.mem_singleton.mp hd]
  | succ n ih =>
    obtain ⟨a, es, rfl⟩ := exists_node t
    refine List.pairwise_flatMap.mpr ⟨fun e he => ?_, ?_⟩
    · obtain ⟨pre, post, rfl⟩ := List.append_of_mem he
      exact ih h.child
    · refine pairwise_of_split fun pre e post hes f hf c hc d hd => ?_
      obtain ⟨ps, qs, rfl⟩ := List.append_of_mem hf
      have hlt := (hes ▸ h).contents_region c hc
      have hle : Ordered low mark P (node a ((pre ++ e :: ps) ++ f :: qs)) := by
        rw [hes] at h
        simpa using h
      exact (hlt.upper f (by simp)).trans_le ((hle.contents_region d hd).lower (Or.inr (by simp)))

/-- Cutting a node in front of an entry. -/
theorem Ordered.split (h : Ordered low mark P (node a (es ++ e :: post))) (hes : es ≠ []) {l r : A}
    (hl : MarkIn mark (fun x => P x ∧ x < e.1) n l)
    (hr : MarkIn mark (fun x => P x ∧ e.1 ≤ x) n r) :
    Ordered low mark (fun x => P x ∧ x < e.1) (node l es) ∧
      Ordered low mark (fun x => P x ∧ e.1 ≤ x) (node r (e :: post)) := by
  obtain ⟨hp, -, hch⟩ := h
  simp only [List.pairwise_append, List.pairwise_cons, List.forall_mem_cons] at hp
  obtain ⟨hpes, ⟨hepost, hppost⟩, hcross⟩ := hp
  refine ⟨⟨hpes, hl, fun pre f qs he => ?_⟩,
    ⟨List.pairwise_cons.mpr ⟨hepost, hppost⟩, hr, fun pre f qs he => ?_⟩⟩
  · subst he
    obtain ⟨hin, hsub⟩ := hch pre f (qs ++ e :: post) (by simp)
    refine ⟨fun hb => ⟨hin hb, (hcross f (by simp)).1⟩, hsub.mono fun x hx => ?_⟩
    have hu := hx.upper
    simp only [List.forall_mem_append, List.forall_mem_cons] at hu
    exact ⟨⟨hx.inside, hu.2.1⟩, hx.lower, hu.1⟩
  · obtain ⟨hin, hsub⟩ := hch (es ++ pre) f qs (by simp [he])
    have hef : e.1 ≤ f.1 := by
      cases pre with
      | nil =>
        simp only [List.nil_append, List.cons.injEq] at he
        rw [he.1]
      | cons g gs =>
        simp only [List.cons_append, List.cons.injEq] at he
        exact (hepost f (by simp [he.2])).le
    refine ⟨fun _ => ⟨hin (Or.inr (Or.inl (by simp [hes]))), hef⟩, hsub.mono fun x hx => ?_⟩
    have hfx := hx.lower (Or.inr (by simp [hes]))
    exact ⟨⟨hx.inside, hef.trans hfx⟩, fun _ => hfx, hx.upper⟩

/-- Two entries with the halves of a region take the place of its entry. -/
theorem Ordered.join {l r : Node κ A n} {c k' : κ}
    (h : Ordered low mark P (node a (pre ++ (k, t) :: post))) (hkc : k' < c)
    (hk : Region low P pre k post k') (hc : Region low P pre k post c)
    (hl : Ordered low mark
      (fun x => Region low P pre k post x ∧ (low ∨ pre ≠ [] → k' ≤ x) ∧ x < c) l)
    (hr : Ordered low mark (fun x => Region low P pre k post x ∧ c ≤ x) r) :
    Ordered low mark P (node a (pre ++ (k', l) :: (c, r) :: post)) := by
  obtain ⟨hp, hm, hch⟩ := h
  simp only [List.pairwise_append, List.pairwise_cons, List.forall_mem_cons] at hp
  obtain ⟨hppre, ⟨hkpost, hppost⟩, hcross⟩ := hp
  have hpre : ∀ e ∈ pre, e.1 < k' := fun e he =>
    (hcross e he).1.trans_le (hk.lower (Or.inr (List.ne_nil_of_mem he)))
  refine ⟨?_, hm, fun pre' e post' he => ?_⟩
  · simp only [List.pairwise_append, List.pairwise_cons, List.forall_mem_cons]
    exact ⟨hppre, ⟨⟨hkc, hk.upper⟩, hc.upper, hppost⟩,
      fun e he => ⟨hpre e he, (hpre e he).trans hkc, (hcross e he).2⟩⟩
  · rcases split_cases he with ⟨cs, rfl, rfl⟩ | ⟨rfl, rfl, rfl⟩ | ⟨cs, rfl, hcs⟩
    · obtain ⟨hin, hsub⟩ := hch pre' e (cs ++ (k, t) :: post) (by simp)
      refine ⟨hin, hsub.mono fun x hx => ⟨hx.1, hx.2, ?_⟩⟩
      have hu := hx.upper
      simp only [List.forall_mem_append, List.forall_mem_cons] at hu ⊢
      have hxk : x < k' := hu.2.1.trans_le (hk.lower (Or.inr (by simp)))
      exact ⟨hu.1, hxk, hxk.trans hkc, hu.2.2⟩
    · refine ⟨fun _ => hk.inside, hl.mono fun x hx => ⟨hx.1.inside, hx.2.1, ?_⟩⟩
      rw [List.forall_mem_cons]
      exact ⟨hx.2.2, hx.1.upper⟩
    · cases cs with
      | nil =>
        simp only [List.nil_append, List.cons.injEq] at hcs
        obtain ⟨rfl, rfl⟩ := hcs
        exact ⟨fun _ => hc.inside, hr.mono fun x hx => ⟨hx.1.inside, fun _ => hx.2, hx.1.upper⟩⟩
      | cons g gs =>
        simp only [List.cons_append, List.cons.injEq] at hcs
        obtain ⟨rfl, rfl⟩ := hcs
        obtain ⟨hin, hsub⟩ := hch (pre ++ (k, t) :: gs) e post' (by simp)
        exact ⟨fun _ => hin (by simp),
          hsub.mono fun x hx => ⟨hx.1, fun _ => hx.2 (Or.inr (by simp)), hx.3⟩⟩

/-- Dropping an entry. -/
theorem Ordered.erase (h : Ordered True mark P (node a (pre ++ e :: post))) :
    Ordered True mark P (node a (pre ++ post)) := by
  obtain ⟨hp, hm, hch⟩ := h
  refine ⟨hp.sublist (List.Sublist.append_left (List.sublist_cons_self _ _) pre), hm, ?_⟩
  intro pre' f post' he
  rcases List.append_eq_append_iff.mp he with ⟨cs, rfl, hpost⟩ | ⟨cs, hpre, hcs⟩
  · -- the entry `f` is one of `post`
    obtain ⟨hin, hsub⟩ := hch (pre ++ e :: cs) f post' (by simp [hpost])
    exact ⟨fun _ => hin (Or.inl trivial),
      hsub.mono fun x hx => ⟨hx.1, fun _ => hx.2 (Or.inl trivial), hx.3⟩⟩
  · cases cs with
    | nil =>
      obtain ⟨hin, hsub⟩ := hch (pre ++ [e]) f post' (by simpa using hcs.symm)
      exact ⟨fun _ => hin (Or.inl trivial),
        hsub.mono fun x hx => ⟨hx.1, fun _ => hx.2 (Or.inl trivial), hx.3⟩⟩
    | cons g gs =>
      simp only [List.cons_append, List.cons.injEq] at hcs
      obtain ⟨rfl, rfl⟩ := hcs
      obtain ⟨hin, hsub⟩ := hch pre' f (gs ++ e :: post) (by simp [hpre])
      refine ⟨hin, hsub.mono fun x hx => ⟨hx.1, hx.2, ?_⟩⟩
      have hu := hx.upper
      simp only [List.forall_mem_append, List.forall_mem_cons] at hu ⊢
      exact ⟨hu.1, hu.2.2⟩

end Node

/-- The keys that may lie in the hole of a path, when those of the whole tree are in `P`. -/
def room (low : Prop) (P : κ → Prop) : {n : ℕ} → Path κ A n → κ → Prop
  | _, .top => P
  | _, .step _ pre k post up => Region low (room low P up) pre k post

section Path
variable {path : Path κ A n}

theorem Ordered.hole (h : Ordered low mark P (plug path t).2) :
    Ordered low mark (room low P path) t := by
  induction path with
  | top => exact h
  | step a pre k post up ih => exact (ih h).child

/-- The hole takes any tree that fits the room, whatever its marks are. -/
theorem Ordered.replug (h : Ordered low mark P (plug path t).2)
    (hm : ∀ b ∈ path.addrs, mark' b = mark b) {t' : Node κ A n}
    (ht : Ordered low mark' (room low P path) t') : Ordered low mark' P (plug path t').2 := by
  induction path with
  | top => exact ht
  | step a pre k post up ih =>
    have hup : Ordered low mark P (plug up (node a (pre ++ (k, t) :: post))).2 := h
    rw [Path.addrs] at hm
    refine ih h (fun b hb => hm b (Multiset.mem_add.mpr (.inr hb))) (hup.hole.replace ?_ ht)
    exact fun b hb => hm b (Multiset.mem_add.mpr (.inl hb))

theorem room_inside (h : room low P path x) : P x := by
  induction path with
  | top => exact h
  | step a pre k post up ih => exact ih h.inside

/-- A key that the search takes to the hole lies between the data on both sides. -/
theorem Ordered.between (h : Ordered low mark P (plug path t).2) {low' : Prop}
    (hx : room low' Q path x) :
    (∀ c ∈ path.before, c.1 < x) ∧ ∀ c ∈ path.after, x < c.1 := by
  induction path with
  | top => simp [Path.before, Path.after]
  | step a pre k post up ih =>
    have hup : Ordered low mark P (plug up (node a (pre ++ (k, t) :: post))).2 := h
    have hn := hup.hole
    obtain ⟨hb, ha⟩ := ih h hx.inside
    refine ⟨fun c hc => ?_, fun c hc => ?_⟩
    · rcases List.mem_append.mp hc with hc | hc
      · exact hb c hc
      · obtain ⟨e, he, hce⟩ := List.mem_flatMap.mp hc
        obtain ⟨ps, qs, rfl⟩ := List.append_of_mem he
        have hreg : Ordered low mark (room low P up)
            (node a (ps ++ e :: (qs ++ (k, t) :: post))) := by
          simpa using hn
        have hck := (hreg.contents_region c hce).upper (k, t) (by simp)
        exact hck.trans_le (hx.lower (Or.inr (by simp)))
    · rcases List.mem_append.mp hc with hc | hc
      · obtain ⟨e, he, hce⟩ := List.mem_flatMap.mp hc
        obtain ⟨ps, qs, rfl⟩ := List.append_of_mem he
        have hreg : Ordered low mark (room low P up)
            (node a ((pre ++ (k, t) :: ps) ++ e :: qs)) := by
          simpa using hn
        exact (hx.upper e (by simp)).trans_le
          ((hreg.contents_region c hce).lower (Or.inr (by simp)))
      · exact ha c hc

theorem Ordered.prune {z b : A} (h : Ordered True unmarked P (plug path t).2) :
    Ordered True unmarked P (prune z b path).2 := by
  induction path with
  | top => trivial
  | step a pre k post up ih =>
    by_cases hnone : pre.length + post.length = 0
    · rw [prune_none hnone]
      exact ih h
    · rw [prune_some hnone]
      have hup : Ordered True unmarked P (plug up (node a (pre ++ (k, t) :: post))).2 := h
      exact hup.replug (fun _ _ => rfl) (hup.hole.erase.rename markIn_unmarked)

/-- A larger key in the weak room is in the strong room if a smaller one is. -/
theorem room_of_le {y : κ} (hx : room True P path x) (hy : room False P path y) (hxy : x ≤ y) :
    room True P path y := by
  induction path with
  | top => exact hy
  | step a pre k post up ih =>
    exact ⟨ih hx.inside hy.inside, fun _ => (hx.lower (Or.inl trivial)).trans hxy, hy.upper⟩

theorem room_weaken (h : room True P path x) : room False P path x := by
  induction path with
  | top => exact h
  | step a pre k post up ih => exact ⟨ih h.inside, fun _ => h.lower (Or.inl trivial), h.upper⟩

end Path
end MultiTree
