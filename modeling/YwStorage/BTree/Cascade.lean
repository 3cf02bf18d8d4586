import YwStorage.BTree.Parent

/-!
`split_insert` up to the first node with space, or to a new root. When it fails, the tree is as
before, unless a parent has been given to a half already.
-/
namespace YwStorage.BTree
open MultiTree Programs Supply

variable {α : Type} [LinearOrder α] {c : Config} {S : ℕ → Prop} {supply : Finset ℕ → Option ℕ}
  {t : Tree α} {s s' : Call α} {mem : ℕ → Page α} {n a b i fuel l r p : ℕ} {k k' d pk : α}

/-- How many of the pages, from the first on, have no space. -/
def fullRun (c : Config) (mem : ℕ → Page α) : List ℕ → ℕ
  | [] => 0
  | p :: ps => if (mem p).Fits c then 0 else fullRun c mem ps + 1

/-- The allocations of `split_insert`, with the pages `ps` on the stack. -/
def need (c : Config) (mem : ℕ → Page α) (ps : List ℕ) : ℕ :=
  2 * (fullRun c mem ps + 1) + if fullRun c mem ps = ps.length then 1 else 0

/-- The pages that a search can come to. -/
inductive Reach (t : Tree α) : ℕ → Prop
  | root : Reach t t.root
  | child {a : ℕ} {e : α × ℕ} (ha : Reach t a) (hinner : (t.mem a).isLeaf = false)
      (he : e ∈ (t.mem a).entries) : Reach t e.2

theorem reach_path (path : Path α ℕ n) (hn : n ≠ 0) (hl : LinkedPath (Holds c S t.mem) path p)
    (hroot : t.root = path.root p) : Reach t p := by
  induction path generalizing p with
  | top =>
    rw [Path.root] at hroot
    exact hroot ▸ .root
  | step a pre k post up ih =>
    obtain ⟨hpage, -, -, hup⟩ := hl
    refine Reach.child (e := (k, p)) (ih (by omega) hup hroot) ?_ ?_
    · rw [hpage.isLeaf, decide_eq_false hn]
    · rw [hpage.entries]
      simp

/-- A page that goes to the RCU if the call fails is in the tree. -/
def Torn (s : Call α) : Prop := ∃ b ∈ s.allocStack, Reach s.tree b

/-- `split_insert` has split nodes from `a` on. -/
structure Succeeded (c : Config) (S : ℕ → Prop) (supply : Finset ℕ → Option ℕ) (s : Call α)
    (ps : List ℕ) (a : ℕ) (T : Σ N, Node α ℕ N) (s' : Call α) (T' : Σ N, Node α ℕ N) : Prop where
  done : Done c S s' T'
  whole : whole T' = whole T
  height : T'.1 = T.1 + if fullRun c s.tree.mem ps = ps.length then 1 else 0
  grown : grown supply (need c s.tree.mem ps) s.tree.live = some s'.tree.live
  freed : s'.freeStack = ((a :: ps).take (fullRun c s.tree.mem ps + 1)).reverse ++ s.freeStack
  smoSeq : s'.tree.smoSeq = s.tree.smoSeq
  locks : s.lockStack.length + 3 * fullRun c s.tree.mem ps + 2 ≤ maxDepth

/-- `split_insert` gives up. -/
structure Failed (c : Config) (supply : Finset ℕ → Option ℕ) (s : Call α) (ps : List ℕ) (i : ℕ)
    (s' : Call α) : Prop where
  cause : maxDepth < 3 * (i + fullRun c s.tree.mem ps) + 3 ∨
    grown supply (need c s.tree.mem ps) s.tree.live = none
  kept : fullRun c s.tree.mem ps = 0 ∨ grown supply 2 s.tree.live = none ∨
    maxDepth < 3 * i + 3 → Kept s s'
  torn : 0 < fullRun c s.tree.mem ps → grown supply 2 s.tree.live ≠ none →
    3 * i + 3 ≤ maxDepth → Torn s'
  locked : s'.tree.locked = s'.lockStack.toFinset
  smoSeq : s'.tree.smoSeq = s.tree.smoSeq

theorem two_le_need (ps : List ℕ) : 2 ≤ need c mem ps := by
  unfold need
  omega

theorem fullRun_le (ps : List ℕ) : fullRun c mem ps ≤ ps.length := by
  induction ps with
  | nil => exact le_rfl
  | cons p ps ih =>
    rw [fullRun, List.length_cons]
    split_ifs <;> omega

theorem fullRun_congr {mem' : ℕ → Page α} {ps : List ℕ} (h : ∀ p ∈ ps, mem' p = mem p) :
    fullRun c mem' ps = fullRun c mem ps := by
  induction ps with
  | nil => rfl
  | cons p ps ih =>
    rw [List.forall_mem_cons] at h
    rw [fullRun, fullRun, h.1, ih h.2]

theorem fullRun_cons (ps : List ℕ) (h : ¬ (mem p).Fits c) :
    fullRun c mem (p :: ps) = fullRun c mem ps + 1 := if_neg h

theorem need_cons (ps : List ℕ) (h : ¬ (mem p).Fits c) :
    need c mem (p :: ps) = 2 + need c mem ps := by
  unfold need
  rw [fullRun_cons ps h, List.length_cons]
  simp only [Nat.add_right_cancel_iff]
  omega

/-- `split_insert` splits the node first, whatever is above it. -/
theorem splitInsert_none {ps : List ℕ} {e : α × ℕ} (h : Call.splitNode c supply fuel a e s = none) :
    Call.splitInsert c supply fuel ps a e s = none := by
  cases ps <;> exact bind_none h

theorem wp_splitInsert_of_split {ps : List ℕ} {e : α × ℕ} {Q : Unit → Call α → Prop}
    {E : Call α → Prop} (h : Wp (Call.splitNode c supply fuel a e) s (fun _ _ => False) E) :
    Wp (Call.splitInsert c supply fuel ps a e) s Q E := by
  cases ps <;> exact wp_bind.mpr (h.mono (fun _ _ hf => hf.elim) fun _ hE => hE)

/-- The first split has failed. -/
theorem failed_of_kept {ps : List ℕ} (hkept : Kept s s')
    (hcause : grown supply 2 s.tree.live = none ∨ maxDepth < 3 * i + 3) :
    Failed c supply s ps i s' := by
  refine ⟨?_, fun _ => hkept, fun _ hgrown hroom => ?_, hkept.locked, hkept.smoSeq⟩
  · rcases hcause with hnone | hroom
    · exact .inr (grown_none hnone (two_le_need ps))
    · left
      omega
  · rcases hcause with hnone | hroom'
    · exact absurd hnone hgrown
    · omega

section Cascade
variable {up : Path α ℕ (n + 1)} {us vs ls rs : List (α × Node α ℕ n)} {x : Node α ℕ n}

namespace Rising

/-- The root is split. -/
theorem wp_splitRoot (h : Rising c S s .top a us vs k x i) (hfresh : FreshSupply supply)
    (hcap : 2 * (c.recordSize + c.page.slotSize) ≤ c.page.bodySize) (hsplit : Splittable us vs)
    (hfuel : n < fuel) (hlocks : 3 * i + 1 ≤ maxDepth) :
    Wp (Call.splitInsert c supply fuel [] a (k, ptr x)) s
      (fun _ s' => ∃ T', Succeeded c S supply s [] a (meant .top a us vs k x) s' T')
      (Failed c supply s [] i) := by
  have hlen := h.tidy.locks
  rw [Call.splitInsert, wp_bind]
  refine h.wp_splitNode hfresh hsplit hfuel (hlen ▸ hlocks)
    (fun s' hkept hcause => failed_of_kept hkept (by rwa [hlen] at hcause))
    fun l r ls rs k' d hroom hgrown hcut => ?_
  have hthree : grown supply 3 s.tree.live = (supply (insert r (insert l s.tree.live))).bind
      fun q => some (insert q (insert r (insert l s.tree.live))) := by
    rw [grown_trans (m := 2) (n := 1) hgrown]
    rfl
  refine h.wp_makeRoot hfresh hcut hcap (h.guard_room (hlen ▸ hlocks)) (fun s' hkept hnone => ?_)
    fun q hq => ?_
  · refine ⟨.inr ?_, fun _ => hkept, fun hpos => absurd hpos (by simp [fullRun]), hkept.locked,
      hkept.smoSeq⟩
    rw [hnone] at hthree
    exact hthree
  · rw [hq] at hthree
    refine ⟨_, h.done_rooted hcut hcap (hfresh _ _ hq), ?_, rfl, hthree, rfl, rfl, hroom⟩
    show _ = (us ++ (k, x) :: vs).flatMap contents
    rw [← hcut.append]
    simp

section Parent
variable {pre post : List (α × Node α ℕ (n + 1))} {up' : Path α ℕ (n + 2)}

theorem whole_join (h : ls ++ rs = us ++ (k, x) :: vs) :
    whole (meant up' p (pre ++ [(k', node l ls)]) post d (node r rs)) =
      whole (meant (.step p pre pk post up') a us vs k x) := by
  show whole (plug up' _) = whole (plug up' _)
  rw [whole_plug, whole_plug, inner_node, inner_node]
  simp only [List.flatMap_append, List.flatMap_cons, contents_node, List.flatMap_nil, ← h,
    List.append_nil, List.append_assoc]

theorem height_join : (meant up' p (pre ++ [(k', node l ls)]) post d (node r rs)).1 =
    (meant (.step p pre pk post up') a us vs k x).1 := by
  show (plug up' _).1 = (plug up' _).1
  rw [height_plug, height_plug]

theorem parent_unlocked (h : Rising c S s (.step p pre pk post up') a us vs k x i)
    (hcut : Cut s us vs k x l r ls rs k' d) :
    p ∉ (s.halved c a l r (words ls) (words rs)).lockStack := by
  have hpl : p ≠ l := fun he => hcut.left_new (he ▸ h.parent_mem)
  have hpr : p ≠ r := fun he => hcut.right_new (he ▸ h.parent_mem)
  show p ∉ r :: l :: s.lockStack
  simpa [hpl, hpr] using h.unlocked p (List.mem_cons_self ..)

/-- The left half takes the entry of the node. -/
theorem wp_redirect {Q : Unit → Call α → Prop} {E : Call α → Prop}
    (h : Rising c S s (.step p pre pk post up') a us vs k x i)
    (hcut : Cut s us vs k x l r ls rs k' d)
    (hQ : Q () (redirect (s.halved c a l r (words ls) (words rs)) p
      (words pre ++ (k', l) :: words post))) :
    Wp (Call.inplaceUpdate c p (k', l)) (s.halved c a l r (words ls) (words rs)) Q E := by
  have hpl : p ≠ l := fun he => hcut.left_new (he ▸ h.parent_mem)
  have hpr : p ≠ r := fun he => hcut.right_new (he ▸ h.parent_mem)
  have hkept : Kept s (s.halved c a l r (words ls) (words rs)) :=
    h.kept_halved hcut.left_new hcut.right_new
  have hlock : p ∉ (s.halved c a l r (words ls) (words rs)).tree.locked := by
    rw [hkept.locked, List.mem_toFinset]
    exact h.parent_unlocked hcut
  have hpage : ((s.halved c a l r (words ls) (words rs)).tree.mem p).entries =
      words pre ++ (pk, a) :: words post := by
    rw [mem_halved hpl hpr, h.path.1.entries]
  have hnode : Ordered False (mark s.tree.mem) (fun _ => True)
      (plug up' (node p (pre ++ (pk, node a (us ++ (k, x) :: vs)) :: post))).2 := h.order
  have hsorted := hnode.hole.keys_sorted
  rw [List.pairwise_append] at hsorted
  have hregion : Region False (room False (fun _ => True) up') pre pk post k' :=
    h.left_key_room hcut
  refine wp_inplaceUpdate hlock hpage (fun f hf => ?_) (fun hne => ?_) (fun f hf => ?_) hQ
  · obtain ⟨e, he, rfl⟩ := List.mem_map.mp hf
    exact hsorted.2.2 e he _ (List.mem_cons_self ..)
  · refine hregion.lower (.inr fun hnil => hne ?_)
    rw [hnil, words_nil]
  · obtain ⟨e, he, rfl⟩ := List.mem_map.mp hf
    exact hregion.upper e he

end Parent
end Rising

/-- The entry goes to a node with space, or the node stays as it is. -/
theorem Pending.wp_insertRecord {m : ℕ} {Q : Bool → Call α → Prop} {E : Call α → Prop}
    (h : Pending c S s up a us vs k x i m) (hlock : a ∉ s.lockStack)
    (hfits : (s.tree.mem a).Fits c → Q true (s.setPage a { s.tree.mem a with
      body := ⟨words us ++ (k, ptr x) :: words vs, (s.tree.mem a).body.used + c.recordSize⟩ }))
    (hfull : ¬ (s.tree.mem a).Fits c → Q false s) :
    Wp (Call.insertRecord c a (k, ptr x)) s Q E := by
  have hsorted := h.order.hole.keys_sorted
  rw [List.pairwise_append, List.pairwise_cons] at hsorted
  obtain ⟨-, ⟨hvs, -⟩, hus⟩ := hsorted
  have hlock' : a ∉ s.tree.locked := by
    rw [h.tidy.locked, List.mem_toFinset]
    exact hlock
  have hpage : (s.tree.mem a).entries = words us ++ words vs := by
    rw [h.page.entries, words_append]
  refine BTree.wp_insertRecord hlock' hpage (fun e he => ?_) (fun e he => ?_) hfits hfull
  · obtain ⟨f, hf, rfl⟩ := List.mem_map.mp he
    exact (hus f hf _ (List.mem_cons_self ..)).le
  · obtain ⟨f, hf, rfl⟩ := List.mem_map.mp he
    exact hvs f hf

namespace Rising
section Parent
variable {pre post : List (α × Node α ℕ (n + 1))} {up' : Path α ℕ (n + 2)}

/-- The parent has the space that it had before. -/
theorem fits_redirect (h : Rising c S s (.step p pre pk post up') a us vs k x i)
    (hcut : Cut s us vs k x l r ls rs k' d) :
    ((redirect (s.halved c a l r (words ls) (words rs)) p
      (words pre ++ (k', l) :: words post)).tree.mem p).Fits c ↔ (s.tree.mem p).Fits c := by
  have hpl : p ≠ l := fun he => hcut.left_new (he ▸ h.parent_mem)
  have hpr : p ≠ r := fun he => hcut.right_new (he ▸ h.parent_mem)
  have hlen : (words pre ++ (k', l) :: words post).length = (s.tree.mem p).entries.length := by
    rw [h.path.1.entries]
    simp
  rw [redirect, mem_setPage_self, mem_halved hpl hpr]
  show (words pre ++ (k', l) :: words post).length * _ + _ + _ ≤ _ ↔ _
  rw [hlen]

theorem mem_above (h : Rising c S s (.step p pre pk post up') a us vs k x i)
    (hcut : Cut s us vs k x l r ls rs k' d) (hb : b ∈ up'.nodes) :
    (redirect (s.halved c a l r (words ls) (words rs)) p
      (words pre ++ (k', l) :: words post)).tree.mem b = s.tree.mem b := by
  have hup := up'.nodes_subset b hb
  refine mem_redirect hcut.left_new hcut.right_new (h.mem_live ?_) ?_
  · rw [addrs_plug, Path.addrs]
    simp [hup]
  · rintro rfl
    exact h.parent_notMem.2.2.2 hup

theorem fullRun_above (h : Rising c S s (.step p pre pk post up') a us vs k x i)
    (hcut : Cut s us vs k x l r ls rs k' d) :
    fullRun c ((redirect (s.halved c a l r (words ls) (words rs)) p
      (words pre ++ (k', l) :: words post)).pushLock p).tree.mem up'.nodes =
        fullRun c s.tree.mem up'.nodes := fullRun_congr fun _ hb => h.mem_above hcut hb

/-- When nothing else has happened since, the parent leads to the left half. -/
theorem torn_of_kept (h : Rising c S s (.step p pre pk post up') a us vs k x i)
    (hcut : Cut s us vs k x l r ls rs k' d)
    (hkept : Kept ((redirect (s.halved c a l r (words ls) (words rs)) p
      (words pre ++ (k', l) :: words post)).pushLock p) s') : Torn s' := by
  have hjoin := h.join hcut
  have hlive := hjoin.node_mem
  obtain ⟨new, hnew, -⟩ := hkept.allocs
  have hpath : LinkedPath (Holds c S s'.tree.mem) up' p := by
    refine hjoin.path.congr fun b hb _ _ hold => hold.congr (hkept.mem b (hjoin.mem_live ?_))
    rw [addrs_plug]
    exact Multiset.mem_add.mpr (.inr hb)
  have hpage := hjoin.page.congr (hkept.mem p hlive)
  have hreach : Reach s'.tree p := by
    refine reach_path up' (by omega) hpath ?_
    rw [hkept.root]
    exact hjoin.root
  refine ⟨l, ?_, Reach.child (e := (k', l)) hreach ?_ ?_⟩
  · rw [hnew]
    exact List.mem_append_right _ (by simp [redirect, Call.pushLock, Call.setPage, Call.halved,
      Call.opened, Call.blank, Call.take])
  · rw [hpage.isLeaf]
    simp
  · rw [hpage.entries]
    simp

/-- The parent has space for the right half. -/
theorem succeeded_of_fits (h : Rising c S s (.step p pre pk post up') a us vs k x i)
    (hcut : Cut s us vs k x l r ls rs k' d)
    (hgrown : grown supply 2 s.tree.live = some (insert r (insert l s.tree.live)))
    (hroom : s.lockStack.length + 2 ≤ maxDepth) (hfits : (s.tree.mem p).Fits c)
    (hdone : Done c S s' (meant up' p (pre ++ [(k', node l ls)]) post d (node r rs)))
    (hlive : s'.tree.live = insert r (insert l s.tree.live))
    (hfree : s'.freeStack = a :: s.freeStack) (hseq : s'.tree.smoSeq = s.tree.smoSeq) :
    Succeeded c S supply s (p :: up'.nodes) a (meant (.step p pre pk post up') a us vs k x) s'
      (meant up' p (pre ++ [(k', node l ls)]) post d (node r rs)) := by
  have hrun : fullRun c s.tree.mem (p :: up'.nodes) = 0 := if_pos hfits
  refine ⟨hdone, whole_join hcut.append, ?_, ?_, ?_, hseq, ?_⟩
  · rw [hrun, if_neg (by simp)]
    exact height_join
  · rw [need, hrun, hlive]
    simpa using hgrown
  · rw [hrun, hfree]
    simp
  · rw [hrun]
    exact hroom

/-- What follows for the node when its parent has been split. -/
theorem succeeded_of_parent {T' : Σ N, Node α ℕ N}
    (h : Rising c S s (.step p pre pk post up') a us vs k x i)
    (hcut : Cut s us vs k x l r ls rs k' d)
    (hgrown : grown supply 2 s.tree.live = some (insert r (insert l s.tree.live)))
    (hfull : ¬ (s.tree.mem p).Fits c)
    (hs : Succeeded c S supply ((redirect (s.halved c a l r (words ls) (words rs)) p
      (words pre ++ (k', l) :: words post)).pushLock p) up'.nodes p
      (meant up' p (pre ++ [(k', node l ls)]) post d (node r rs)) s' T') :
    Succeeded c S supply s (p :: up'.nodes) a (meant (.step p pre pk post up') a us vs k x)
      s' T' := by
  have hrun := fullRun_above (c := c) h hcut
  have hcons := fullRun_cons up'.nodes hfull
  have hheight := hs.height
  have hneed := need_cons up'.nodes hfull
  have hgrown' := hs.grown
  have hfreed := hs.freed
  rw [need, hrun] at hgrown'
  rw [hrun] at hheight hfreed
  have hlocks : s.lockStack.length + 3 + 3 * fullRun c _ up'.nodes + 2 ≤ maxDepth := hs.locks
  rw [hrun] at hlocks
  refine ⟨hs.done, hs.whole.trans (whole_join hcut.append), ?_, ?_, ?_, hs.smoSeq, ?_⟩
  · rw [hheight, hcons, List.length_cons]
    refine congrArg₂ (· + ·) height_join ?_
    simp only [Nat.add_right_cancel_iff]
  · rw [hneed, grown_trans hgrown]
    exact hgrown'
  · rw [hfreed, hcons]
    simp [redirect, Call.pushLock, Call.setPage, Call.halved, Call.opened, Call.blank, Call.take]
  · rw [hcons]
    omega

theorem failed_of_parent (h : Rising c S s (.step p pre pk post up') a us vs k x i)
    (hcut : Cut s us vs k x l r ls rs k' d)
    (hgrown : grown supply 2 s.tree.live = some (insert r (insert l s.tree.live)))
    (hroom : 3 * i + 3 ≤ maxDepth) (hfull : ¬ (s.tree.mem p).Fits c)
    (hf : Failed c supply ((redirect (s.halved c a l r (words ls) (words rs)) p
      (words pre ++ (k', l) :: words post)).pushLock p) up'.nodes (i + 1) s') :
    Failed c supply s (p :: up'.nodes) i s' := by
  have hrun := fullRun_above (c := c) h hcut
  have hcons := fullRun_cons up'.nodes hfull
  have hcause := hf.cause
  rw [need, hrun] at hcause
  refine ⟨?_, fun hnone => ?_, fun _ _ _ => ?_, hf.locked, hf.smoSeq⟩
  · rw [hcons, need_cons up'.nodes hfull, grown_trans hgrown]
    refine hcause.imp (fun hdepth => ?_) id
    omega
  · exfalso
    rw [hcons, hgrown] at hnone
    rcases hnone with hzero | hnone | hdepth
    · omega
    · cases hnone
    · omega
  · by_cases hkept : fullRun c ((redirect (s.halved c a l r (words ls) (words rs)) p
        (words pre ++ (k', l) :: words post)).pushLock p).tree.mem up'.nodes = 0 ∨
        grown supply 2 (insert r (insert l s.tree.live)) = none ∨ maxDepth < 3 * (i + 1) + 3
    · exact h.torn_of_kept hcut (hf.kept hkept)
    · push Not at hkept
      exact hf.torn (Nat.pos_of_ne_zero hkept.1) hkept.2.1 hkept.2.2

end Parent

/-- `split_insert` -/
theorem wp_splitInsert (hfresh : FreshSupply supply)
    (hcap : 2 * (c.recordSize + c.page.slotSize) ≤ c.page.bodySize)
    (h : Rising c S s up a us vs k x i) (hsplit : Splittable us vs)
    (hwide : ∀ p ∈ up.nodes, ¬ (s.tree.mem p).Fits c → 2 ≤ (s.tree.mem p).entries.length)
    (hfuel : n + up.length < fuel) (hlocks : 3 * i + 1 ≤ maxDepth) :
    Wp (Call.splitInsert c supply fuel up.nodes a (k, ptr x)) s
      (fun _ s' => ∃ T', Succeeded c S supply s up.nodes a (meant up a us vs k x) s' T')
      (Failed c supply s up.nodes i) := by
  -- over the length of the path, since each level has trees of another height
  induction hj : up.length generalizing n a us vs k x i s with
  | zero =>
    cases up with
    | top => exact h.wp_splitRoot hfresh hcap hsplit (by omega) hlocks
    | step p pre pk post up' => simp [Path.length] at hj
  | succ j ih =>
    cases up with
    | top => simp [Path.length] at hj
    | step p pre pk post up' =>
      have hlen := h.tidy.locks
      have hlength : up'.length = j := by simpa [Path.length] using hj
      have hfuel' : n + (up'.length + 1) < fuel := hfuel
      rw [show (Path.step p pre pk post up').nodes = p :: up'.nodes from rfl] at hwide ⊢
      rw [List.forall_mem_cons] at hwide
      rw [Call.splitInsert, wp_bind]
      refine h.wp_splitNode hfresh hsplit (by omega) (hlen ▸ hlocks)
        (fun s' hkept hcause => failed_of_kept hkept (by rwa [hlen] at hcause))
        fun l r ls rs k' d hroom hgrown hcut => ?_
      have hjoin := h.join hcut
      have hlock := h.parent_unlocked (c := c) hcut
      rw [wp_bind]
      refine h.wp_redirect hcut ?_
      rw [wp_bind]
      refine hjoin.wp_insertRecord hlock (fun hfits => ?_) fun hfull => ?_
      · rw [if_pos rfl, wp_pure]
        exact ⟨_, h.succeeded_of_fits hcut hgrown hroom ((h.fits_redirect hcut).mp hfits)
          (hjoin.done (by simp) hfits) rfl rfl rfl⟩
      · have hfull' : ¬ (s.tree.mem p).Fits c := mt (h.fits_redirect hcut).mpr hfull
        have hdepth : maxDepth = 16 := rfl
        rw [hlen] at hroom
        rw [if_neg (by simp), wp_bind]
        refine wp_lock_free ?_ ?_ ?_
        · rw [hjoin.tidy.locks]
          omega
        · rw [hjoin.tidy.locked, List.mem_toFinset]
          exact hlock
        refine (ih (hjoin.rise hlock) ?_ ?_ ?_ ?_ hlength).mono
          (fun _ s' hs => hs.imp fun T' hs => h.succeeded_of_parent hcut hgrown hfull' hs)
          fun s' hf => h.failed_of_parent hcut hgrown hroom hfull' hf
        · have htwo := hwide.1 hfull'
          rw [h.path.1.entries] at htwo
          simp only [List.length_append, List.length_cons, length_words] at htwo
          refine ⟨by simp, fun hone => ?_⟩
          simp only [List.length_append, List.length_cons, List.length_nil] at hone
          omega
        · intro q hq
          have hmem := h.mem_above (c := c) hcut hq
          have hpage := hwide.2 q hq
          rwa [← hmem] at hpage
        · omega
        · omega

end Rising
end Cascade

end YwStorage.BTree
