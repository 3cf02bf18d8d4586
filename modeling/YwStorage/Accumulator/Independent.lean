import YwStorage.Accumulator.Basic

/-!
The slots below `global_idx` are dealt out: each of them belongs to one accumulator or waits on the
free list, and no access through one reaches the cells of another.
-/
namespace YwStorage.Accumulator
open Queue (Ptr)
open Queue.Unsync

variable {ι : Type*}

theorem getPtr_inj {t u k l : ℕ} (h : getPtr t k = getPtr u l) : t = u ∧ k = l := by
  obtain ⟨hchunk, hoff⟩ := Prod.mk.inj h
  simp only [slotCount] at hchunk hoff
  omega

/-- The pointers of a slot that is used again are those it had the first time. -/
theorem getPtr_add (t k : ℕ) :
    ((getPtr 0 k).1, (getPtr 0 k).2 + slotCount * t) = getPtr t k := by
  simp [getPtr, Nat.mul_comm]

/-- The slot whose first cell is `a`. -/
def slotOf (a : Addr) : ℕ := a.1 * slotCount + a.2

theorem slotOf_getPtr (k : ℕ) : slotOf (getPtr 0 k) = k := by
  simp only [slotOf, getPtr, slotCount]
  omega

/-- The queue operations leave every cell alone that is not one of their links. -/
theorem wrote_cell {S : Ptr Addr → Prop} {m m' : Memory} {a : Addr} (h : Wrote links S m m')
    (ha : ¬ S (.node a)) : m'.cell a = m.cell a := by
  induction h with
  | refl => rfl
  | tail _ hlast ih =>
    obtain ⟨p, q, hp, rfl⟩ := hlast
    rw [← ih]
    cases p with
    | null | head => rfl
    | node b =>
      refine Function.update_of_ne ?_ ..
      rintro rfl
      exact ha hp

namespace State

/-- The slot of an accumulator. -/
def slot (s : State ι) (i : ι) : ℕ := slotOf ((s.object i).data 0)

/-- The cells of an accumulator hold the numbers of `f`. -/
def Holds (s : State ι) (i : ι) (f : Fin maxThreadCount → Int64) : Prop :=
  i ∈ s.alive ∧ ∀ t, s.cell ((s.object i).data t) = .num (f t)

/-- `free` are the slots on the free list. -/
structure Dealt (s : State ι) (free : List ℕ) : Prop where
  ring : Ring links s.freeList (free.map (getPtr 0))
  nodup : s.alive.Nodup
  deal : (s.alive.map s.slot ++ free).Perm (List.range s.globalIdx)
  data : ∀ i ∈ s.alive, ∀ t, (s.object i).data t = getPtr t (s.slot i)
  limit : s.globalIdx ≤ maxSlotCount
  root : ∀ k < s.globalIdx, s.root (k / slotCount) = true
  nums : ∀ i ∈ s.alive, ∃ f, s.Holds i f

variable {s s' : State ι} {free : List ℕ} {i j : ι} {k : ℕ} {a : Addr} {v : Int64}

theorem slot_of_data (h : (s.object i).data 0 = getPtr 0 k) :
    s.slot i = k := by
  rw [slot, h, slotOf_getPtr]

/-- A slot lies inside of its chunk. -/
theorem inChunk_getPtr (h : s.root (k / slotCount) = true) (t : Fin maxThreadCount) :
    s.inChunk (getPtr t k) = true := by
  have ht : (t : ℕ) < 32 := t.isLt
  have hlt : k % slotCount + t * slotCount < slotCount * maxThreadCount := by
    simp only [slotCount, maxThreadCount]
    omega
  simp [inChunk, getPtr, h, hlt]

namespace Dealt

theorem lt_globalIdx (h : s.Dealt free) (hk : k ∈ s.alive.map s.slot ++ free) :
    k < s.globalIdx :=
  List.mem_range.mp (h.deal.mem_iff.mp hk)

theorem slots_nodup (h : s.Dealt free) : (s.alive.map s.slot ++ free).Nodup :=
  h.deal.nodup_iff.mpr List.nodup_range

theorem slot_inj (h : s.Dealt free) (hi : i ∈ s.alive) (hj : j ∈ s.alive)
    (heq : s.slot i = s.slot j) : i = j := by
  have hnodup := (List.nodup_append.mp h.slots_nodup).1
  exact List.inj_on_of_nodup_map hnodup hi hj heq

theorem slot_not_free (h : s.Dealt free) (hi : i ∈ s.alive) : s.slot i ∉ free := by
  intro hmem
  have hdisj := (List.nodup_append.mp h.slots_nodup).2.2
  exact hdisj _ (List.mem_map_of_mem hi) _ hmem rfl

theorem data_inj (h : s.Dealt free) (hi : i ∈ s.alive) (hj : j ∈ s.alive)
    {t u : Fin maxThreadCount} (heq : (s.object i).data t = (s.object j).data u) :
    i = j ∧ t = u := by
  rw [h.data i hi, h.data j hj] at heq
  obtain ⟨htu, hslot⟩ := getPtr_inj heq
  exact ⟨h.slot_inj hi hj hslot, Fin.ext htu⟩

theorem data_not_free (h : s.Dealt free) (hi : i ∈ s.alive) (t : Fin maxThreadCount) :
    (s.object i).data t ∉ free.map (getPtr 0) := by
  rw [h.data i hi]
  intro hmem
  obtain ⟨k, hk, heq⟩ := List.mem_map.mp hmem
  obtain ⟨-, rfl⟩ := getPtr_inj heq
  exact h.slot_not_free hi hk

theorem inChunk (h : s.Dealt free) (hi : i ∈ s.alive) (t : Fin maxThreadCount) :
    s.inChunk ((s.object i).data t) = true := by
  have hlt := h.lt_globalIdx (List.mem_append_left _ (List.mem_map_of_mem hi))
  rw [h.data i hi]
  exact inChunk_getPtr (h.root _ hlt) t

end Dealt

theorem reset_cells {o : Object} (hin : ∀ t, s.inChunk (o.data t) = true)
    (ts : List (Fin maxThreadCount)) : ∃ c,
      ts.foldlM (fun s i => s.store (o.data i) o.defaultData) s = some (s.withCells c) ∧
      ∀ a, c a = if a ∈ ts.map o.data then .num o.defaultData else s.cell a := by
  induction ts generalizing s with
  | nil => exact ⟨s.cell, rfl, fun a => (if_neg (by simp)).symm⟩
  | cons t ts ih =>
    have hstore : s.store (o.data t) o.defaultData =
        some (s.withCells (Function.update s.cell (o.data t) (.num o.defaultData))) :=
      if_pos (hin t)
    obtain ⟨c, hfold, hc⟩ :=
      ih (s := s.withCells (Function.update s.cell (o.data t) (.num o.defaultData))) hin
    refine ⟨c, ?_, fun a => ?_⟩
    · rw [List.foldlM_cons, hstore]
      exact hfold
    · rw [hc a]
      by_cases ha : a = o.data t
      · simp [ha, withCells, State.cell]
      · simp [ha, withCells, State.cell, Function.update_of_ne ha]

/-- `takeSlot` has opened slot `k`, which no accumulator owns yet. -/
structure Opened (s s' : State ι) (k : ℕ) (free : List ℕ) : Prop where
  ring : Ring links s'.freeList (free.map (getPtr 0))
  deal : (k :: (s.alive.map s.slot ++ free)).Perm (List.range s'.globalIdx)
  limit : s'.globalIdx ≤ maxSlotCount
  root : ∀ k < s'.globalIdx, s'.root (k / slotCount) = true
  alive : s'.alive = s.alive
  object : s'.object = s.object
  cells : ∀ j ∈ s.alive, ∀ t, s'.cell ((s.object j).data t) = s.cell ((s.object j).data t)

theorem Dealt.takeSlot (h : s.Dealt free) (hroom : s.alive.length < maxSlotCount) :
    ∃ s' k free', s.Opened s' k free' ∧
      Fuel.Returns (fun fuel => s.takeSlot fuel) (some fun t => getPtr t k, s') := by
  cases free with
  | nil =>
    have hlen := h.deal.length_eq
    simp only [List.append_nil, List.length_map, List.length_range] at hlen
    have hlt : ¬ maxSlotCount ≤ s.globalIdx := by omega
    refine ⟨_, s.globalIdx, [], ?_, h.ring.pop_nil.bind (if_neg hlt)⟩
    refine ⟨h.ring, ?_, Nat.lt_of_not_le hlt, fun k hk => ?_, rfl, rfl, fun j hj t => rfl⟩
    · rw [List.range_succ]
      exact (h.deal.cons _).trans (List.perm_append_singleton _ _).symm
    · rcases Nat.lt_succ_iff_lt_or_eq.mp hk with hk | rfl
      · by_cases heq : k / slotCount = s.globalIdx / slotCount
        · simp [heq]
        · simpa [Function.update_of_ne heq] using h.root k hk
      · simp
  | cons k free =>
    obtain ⟨q', hring, hwrote, hret⟩ := h.ring.pop_cons
    have hdata : (fun t : Fin maxThreadCount => getPtr t k) =
        fun t : Fin maxThreadCount => ((getPtr 0 k).1, (getPtr 0 k).2 + slotCount * (t : ℕ)) :=
      funext fun t => (getPtr_add t k).symm
    refine ⟨_, k, free, ?_, hret.bind (by rw [hdata])⟩
    refine ⟨hring, ?_, h.limit, h.root, rfl, rfl, fun j hj t => wrote_cell hwrote ?_⟩
    · exact List.perm_middle.symm.trans h.deal
    · rintro (heq | heq)
      · have hmem := h.data_not_free hj t
        rw [Ptr.node.inj heq] at hmem
        exact hmem (by simp)
      · cases heq

/-- The links of the free list are where they were. -/
theorem ring_congr {q q' : QueueHead Memory Addr} {l : List Addr} (h : Ring links q l)
    (htail : q'.tail = q.tail) (hhead : q'.mem.headNext = q.mem.headNext)
    (hcell : ∀ a ∈ l, q'.mem.cell a = q.mem.cell a) : Ring links q' l where
  seg := by
    refine h.seg.congr fun p hp => ?_
    rcases List.mem_cons.mp hp with rfl | hp
    · exact hhead
    · obtain ⟨a, ha, rfl⟩ := List.mem_map.mp hp
      show q'.mem.next (.node a) = q.mem.next (.node a)
      simp only [Memory.next, hcell a ha]
  nodup := h.nodup
  tail := htail ▸ h.tail

theorem Opened.inChunk (h : s.Opened s' k free) (t : Fin maxThreadCount) :
    s'.inChunk (getPtr t k) = true := by
  have hk : k < s'.globalIdx := List.mem_range.mp (h.deal.mem_iff.mp List.mem_cons_self)
  exact inChunk_getPtr (h.root k hk) t

/-- The constructor fills the cells of the slot and no others. -/
theorem Opened.reset (h : s.Opened s' k free) (d : Int64) : ∃ c,
    s'.reset ⟨fun t => getPtr t k, d⟩ = some (s'.withCells c) ∧
    (∀ t : Fin maxThreadCount, c (getPtr t k) = .num d) ∧
    (∀ u l, l ≠ k → c (getPtr u l) = s'.cell (getPtr u l)) := by
  obtain ⟨c, hreset, hc⟩ := reset_cells (o := ⟨fun t => getPtr t k, d⟩) h.inChunk (List.finRange _)
  refine ⟨c, hreset, fun t => ?_, fun u l hl => ?_⟩
  · rw [hc, if_pos (List.mem_map_of_mem (List.mem_finRange t))]
  · rw [hc, if_neg]
    intro hmem
    obtain ⟨t, -, heq⟩ := List.mem_map.mp hmem
    exact hl (getPtr_inj heq).2.symm

variable [DecidableEq ι]

theorem Dealt.construct (h : s.Dealt free) (hi : i ∉ s.alive)
    (hroom : s.alive.length < maxSlotCount) (d : Int64) :
    ∃ t free', Fuel.Returns (fun fuel => s.construct i d fuel) t ∧ t.Dealt free' ∧
      t.alive = i :: s.alive ∧ t.Holds i (fun _ => d) ∧ ∀ j f, s.Holds j f → t.Holds j f := by
  obtain ⟨s₁, k, free', h₁, htake⟩ := h.takeSlot hroom
  obtain ⟨c, hreset, hown, hrest⟩ := h₁.reset d
  have hk := (List.nodup_cons.mp (h₁.deal.nodup_iff.mpr List.nodup_range)).1
  let o : Object := ⟨fun t => getPtr t k, d⟩
  let t : State ι :=
    { s₁.withCells c with alive := i :: s₁.alive, object := Function.update s₁.object i o }
  have hret : Fuel.Returns (fun fuel => s.construct i d fuel) t :=
    htake.bind (congrArg (Option.map _) hreset)
  have hobj : t.object i = o := Function.update_self ..
  have hslot : t.slot i = k := slot_of_data (congrArg (fun o => o.data 0) hobj)
  have hold : ∀ j ∈ s.alive, t.object j = s.object j := by
    intro j hj
    have hne : j ≠ i := fun heq => hi (heq ▸ hj)
    exact (Function.update_of_ne hne ..).trans (congrFun h₁.object j)
  have hslots : t.alive.map t.slot = k :: s.alive.map s.slot := by
    have hmap : s.alive.map t.slot = s.alive.map s.slot := by
      refine List.map_congr_left fun j hj => ?_
      rw [slot, hold j hj, slot]
    show (i :: s₁.alive).map t.slot = _
    rw [List.map_cons, hslot, h₁.alive, hmap]
  have hheld : t.Holds i (fun _ => d) := by
    refine ⟨List.mem_cons_self, fun u => ?_⟩
    rw [hobj]
    exact hown u
  have hkept : ∀ j f, s.Holds j f → t.Holds j f := by
    rintro j f ⟨hj, hf⟩
    refine ⟨List.mem_cons_of_mem _ (h₁.alive ▸ hj), fun u => ?_⟩
    have hne : s.slot j ≠ k := fun heq =>
      hk (heq ▸ List.mem_append_left _ (List.mem_map_of_mem hj))
    rw [hold j hj, ← hf u, ← h₁.cells j hj u, h.data j hj]
    exact hrest _ _ hne
  refine ⟨t, free', hret, ?_, congrArg _ h₁.alive, hheld, hkept⟩
  refine ⟨?_, ?_, ?_, ?_, h₁.limit, h₁.root, ?_⟩
  · refine ring_congr h₁.ring rfl rfl fun a ha => ?_
    obtain ⟨l, hl, rfl⟩ := List.mem_map.mp ha
    exact hrest 0 l fun heq => hk (heq ▸ List.mem_append_right _ hl)
  · exact List.nodup_cons.mpr ⟨h₁.alive ▸ hi, h₁.alive ▸ h.nodup⟩
  · rw [hslots]
    exact h₁.deal
  · rintro j hj u
    rcases List.mem_cons.mp hj with rfl | hj
    · rw [hobj, hslot]
    · replace hj := h₁.alive ▸ hj
      rw [slot, hold j hj]
      exact h.data j hj u
  · intro j hj
    rcases List.mem_cons.mp hj with rfl | hj
    · exact ⟨_, hheld⟩
    · obtain ⟨f, hf⟩ := h.nums j (h₁.alive ▸ hj)
      exact ⟨f, hkept j f hf⟩

theorem Dealt.destroy (h : s.Dealt free) (hi : i ∈ s.alive) :
    ∃ t free', Fuel.Returns (fun fuel => s.destroy i fuel) t ∧ t.Dealt free' ∧
      t.alive = s.alive.erase i ∧ ∀ j f, j ≠ i → s.Holds j f → t.Holds j f := by
  have hbase : (s.object i).data 0 = getPtr 0 (s.slot i) := h.data i hi 0
  obtain ⟨q', hring, hwrote, hret⟩ := h.ring.push (h.data_not_free hi 0)
  have hcell : ∀ j ∈ s.alive, j ≠ i → ∀ t,
      q'.mem.cell ((s.object j).data t) = s.cell ((s.object j).data t) := by
    intro j hj hne t
    refine wrote_cell hwrote ?_
    rintro (heq | hmem)
    · exact hne (h.data_inj hj hi (Ptr.node.inj heq)).1
    · exact h.data_not_free hj t (by simpa using hmem)
  have hkept : ∀ j f, j ≠ i → s.Holds j f →
      State.Holds { s with freeList := q', freeCount := s.freeCount + 1, alive := s.alive.erase i }
        j f := by
    rintro j f hne ⟨hj, hf⟩
    refine ⟨(List.mem_erase_of_ne hne).mpr hj, fun t => ?_⟩
    exact (hcell j hj hne t).trans (hf t)
  refine ⟨_, free ++ [s.slot i], hret.map, ?_, rfl, hkept⟩
  refine ⟨?_, h.nodup.erase i, ?_, ?_, h.limit, h.root, ?_⟩
  · rw [List.map_append, List.map_singleton, ← hbase]
    exact hring
  · have hmap : (s.alive.map s.slot).Perm (s.slot i :: (s.alive.erase i).map s.slot) :=
      (List.perm_cons_erase hi).map s.slot
    show ((s.alive.erase i).map s.slot ++ (free ++ [s.slot i])).Perm (List.range s.globalIdx)
    rw [← List.append_assoc]
    exact ((List.perm_append_singleton _ _).trans (hmap.append_right free).symm).trans h.deal
  · intro j hj
    exact h.data j (List.mem_of_mem_erase hj)
  · intro j hj
    obtain ⟨hne, hj⟩ := h.nodup.mem_erase_iff.mp hj
    obtain ⟨f, hf⟩ := h.nums j hj
    exact ⟨f, hkept j f hne hf⟩

/-- A store through a pointer of `i` changes that cell of `i` and nothing else. -/
theorem Dealt.store (h : s.Dealt free) (hi : i ∈ s.alive) (p : Fin maxThreadCount) (v : Int64) :
    ∃ t, s.store ((s.object i).data p) v = some t ∧ t.Dealt free ∧ t.alive = s.alive ∧
      ∀ j f, s.Holds j f → t.Holds j (if j = i then Function.update f p v else f) := by
  have hstore : s.store ((s.object i).data p) v =
      some (s.withCells (Function.update s.cell ((s.object i).data p) (.num v))) :=
    if_pos (h.inChunk hi p)
  have hheld : ∀ j f, s.Holds j f →
      (s.withCells (Function.update s.cell ((s.object i).data p) (.num v))).Holds j
        (if j = i then Function.update f p v else f) := by
    rintro j f ⟨hj, hf⟩
    refine ⟨hj, fun t => ?_⟩
    show Function.update s.cell ((s.object i).data p) (.num v) ((s.object j).data t) = _
    by_cases hjt : j = i ∧ t = p
    · obtain ⟨rfl, rfl⟩ := hjt
      simp
    · have hne : (s.object j).data t ≠ (s.object i).data p := fun heq =>
        hjt (h.data_inj hj hi heq)
      rw [Function.update_of_ne hne, hf t]
      split_ifs with hij
      · rw [Function.update_of_ne fun htp => hjt ⟨hij, htp⟩]
      · rfl
  refine ⟨_, hstore, ⟨?_, h.nodup, h.deal, h.data, h.limit, h.root, fun j hj => ?_⟩, rfl, hheld⟩
  · refine ring_congr h.ring rfl rfl fun a ha => ?_
    refine Function.update_of_ne ?_ ..
    rintro rfl
    exact h.data_not_free hi p ha
  · obtain ⟨f, hf⟩ := h.nums j hj
    exact ⟨_, hheld j f hf⟩

theorem Holds.load (h : s.Dealt free) {f : Fin maxThreadCount → Int64} (hf : s.Holds i f)
    (t : Fin maxThreadCount) : s.load ((s.object i).data t) = some (f t) := by
  rw [State.load, if_pos (h.inChunk hf.1 t), hf.2 t]

end State

/-- What a call makes of the numbers that accumulator `i` holds. -/
def Call.tally [DecidableEq ι] (m : Method) (i : ι) (f : Fin maxThreadCount → Int64) :
    Call ι → Fin maxThreadCount → Int64
  | .mutate j tid delta =>
    if i = j then Function.update f (m.place tid) (f (m.place tid) + delta) else f
  | .set j tid value => if i = j then Function.update f (m.place tid) value else f
  | _ => f

/-- The accumulators that are alive after a call. -/
def Call.live [DecidableEq ι] (alive : List ι) : Call ι → List ι
  | .construct i _ => i :: alive
  | .destroy i => alive.erase i
  | _ => alive

/-- A history in which every call is allowed. -/
def Permitted [DecidableEq ι] : List ι → List (Call ι) → Prop
  | _, [] => True
  | alive, a :: xs => a.Allowed alive ∧ Permitted (a.live alive) xs

namespace State
variable {s : State ι} {free : List ℕ} {i : ι} [DecidableEq ι]

theorem Dealt.mutate (h : s.Dealt free) (hi : i ∈ s.alive) (m : Method)
    (tid : Fin maxThreadCount) (delta : Int64) :
    ∃ t, s.mutate m i tid delta = some t ∧ t.Dealt free ∧ t.alive = s.alive ∧
      ∀ j f, s.Holds j f → t.Holds j ((Call.mutate i tid delta).tally m j f) := by
  by_cases hdelta : delta = 0
  · refine ⟨s, if_pos hdelta, h, rfl, fun j f hf => ?_⟩
    simpa [Call.tally, hdelta] using hf
  · obtain ⟨f, hf⟩ := h.nums i hi
    obtain ⟨t, hstore, ht, halive, hheld⟩ := h.store hi (m.place tid) (f (m.place tid) + delta)
    refine ⟨t, ?_, ht, halive, fun j g hg => ?_⟩
    · rw [State.mutate, if_neg hdelta]
      simp only [hf.load h, Option.bind_some, hstore]
    · have hj := hheld j g hg
      simp only [Call.tally]
      split_ifs with hij
      · subst hij
        have hfg : f = g := by
          funext u
          exact Word.num.inj ((hf.2 u).symm.trans (hg.2 u))
        subst hfg
        simpa using hj
      · simpa [hij] using hj

/-- One call: it returns, the slots stay dealt out, and it has no effect on other accumulators. -/
theorem Dealt.act (h : s.Dealt free) (m : Method) {a : Call ι} (ha : a.Allowed s.alive) :
    ∃ t free', Fuel.Returns (fun fuel => s.act m fuel a) t ∧ t.Dealt free' ∧
      t.alive = a.live s.alive ∧ (∀ i d, a = .construct i d → t.Holds i fun _ => d) ∧
      ∀ j f, a ≠ .destroy j → s.Holds j f → t.Holds j (a.tally m j f) := by
  cases a with
  | construct i d =>
    obtain ⟨t, free', hret, ht, halive, hnew, hkept⟩ := h.construct ha.1 ha.2 d
    refine ⟨t, free', hret, ht, halive, fun j e heq => ?_, fun j f _ hf => hkept j f hf⟩
    obtain ⟨rfl, rfl⟩ := Call.construct.inj heq
    exact hnew
  | destroy i =>
    obtain ⟨t, free', hret, ht, halive, hkept⟩ := h.destroy ha
    refine ⟨t, free', hret, ht, halive, nofun, fun j f hne hf => ?_⟩
    exact hkept j f (fun heq => hne (heq ▸ rfl)) hf
  | mutate i tid delta =>
    obtain ⟨t, hret, ht, halive, hheld⟩ := h.mutate ha m tid delta
    refine ⟨t, free, ⟨0, fun _ _ => hret⟩, ht, halive, nofun, fun j f _ hf => ?_⟩
    exact hheld j f hf
  | set i tid value =>
    obtain ⟨t, hret, ht, halive, hheld⟩ := h.store ha (m.place tid) value
    refine ⟨t, free, ⟨0, fun _ _ => hret⟩, ht, halive, nofun, fun j f _ hf => ?_⟩
    exact hheld j f hf

theorem Dealt.step {t : State ι} {m : Method} {a : Call ι} (h : s.Dealt free)
    (hstep : Step m s a t) : (∃ free', t.Dealt free') ∧
      (∀ i d, a = .construct i d → t.Holds i fun _ => d) ∧
      ∀ j f, a ≠ .destroy j → s.Holds j f → t.Holds j (a.tally m j f) := by
  obtain ⟨u, free', hret, hu, -, hnew, hkept⟩ := h.act m hstep.1
  obtain rfl := hstep.2.unique hret
  exact ⟨⟨free', hu⟩, hnew, hkept⟩

theorem start_dealt (mem : Memory) (object : ι → Object) : (start mem object).Dealt [] where
  ring := init_ring mem
  nodup := List.nodup_nil
  deal := .refl _
  data := nofun
  limit := Nat.zero_le _
  root _ hk := absurd hk (Nat.not_lt_zero _)
  nums := nofun

theorem Dealt.run {t : State ι} {m : Method} {xs : List (Call ι)} (h : s.Dealt free)
    (hrun : Lts.Run (Step m) s xs t) : ∃ free', t.Dealt free' := by
  refine hrun.invariant (P := fun s => ∃ free, s.Dealt free) ?_ ⟨free, h⟩
  rintro s a t hst ⟨free, h⟩
  exact (h.step hst).1

theorem Dealt.exists_run (h : s.Dealt free) (m : Method) {xs : List (Call ι)}
    (hxs : Permitted s.alive xs) : ∃ t, Lts.Run (Step m) s xs t := by
  induction xs generalizing s free with
  | nil => exact ⟨s, .refl s⟩
  | cons a xs ih =>
    obtain ⟨u, free', hret, hu, halive, -⟩ := h.act m hxs.1
    obtain ⟨t, hrun⟩ := ih hu (halive ▸ hxs.2)
    exact ⟨t, .stepL ⟨hxs.1, hret⟩ hrun⟩

/-- From its construction on, an accumulator holds what its own calls have made of the default. -/
theorem Dealt.holds_run {t : State ι} {m : Method} {xs : List (Call ι)}
    {f : Fin maxThreadCount → Int64} (h : s.Dealt free) (hf : s.Holds i f)
    (hrun : Lts.Run (Step m) s xs t) (hxs : ∀ a ∈ xs, a ≠ .destroy i) :
    t.Holds i (xs.foldl (Call.tally m i) f) := by
  induction hrun generalizing free f with
  | refl => exact hf
  | stepL hst _ ih =>
    obtain ⟨⟨free', h'⟩, -, hkept⟩ := h.step hst
    exact ih h' (hkept i f (hxs _ List.mem_cons_self) hf)
      fun a ha => hxs a (List.mem_cons_of_mem _ ha)

theorem Holds.sum (h : s.Dealt free) {f : Fin maxThreadCount → Int64} (hf : s.Holds i f) :
    s.sum i = some ((List.finRange maxThreadCount).map f).sum := by
  have hloop : ∀ (ts : List (Fin maxThreadCount)) (v : Int64),
      ts.foldlM (fun val t => (s.load ((s.object i).data t)).map (val + ·)) v =
        some (v + (ts.map f).sum) := by
    intro ts
    induction ts with
    | nil => simp
    | cons t ts ih =>
      intro v
      rw [List.foldlM_cons, hf.load h, List.map_cons, List.sum_cons, ← Int64.add_assoc]
      exact ih (v + f t)
  exact (hloop _ 0).trans (by rw [Int64.zero_add])

end State

/-- The sum grows by what one of the numbers grows by. -/
theorem sum_update {κ : Type*} [DecidableEq κ] {ts : List κ} {p : κ} (f : κ → Int64)
    (d : Int64) (hnodup : ts.Nodup) (hp : p ∈ ts) :
    (ts.map (Function.update f p (f p + d))).sum = (ts.map f).sum + d := by
  induction ts with
  | nil => cases hp
  | cons t ts ih =>
    obtain ⟨ht, hnodup⟩ := List.nodup_cons.mp hnodup
    simp only [List.map_cons, List.sum_cons]
    rcases List.mem_cons.mp hp with rfl | hp
    · have hmap : ts.map (Function.update f p (f p + d)) = ts.map f :=
        List.map_congr_left fun u hu => Function.update_of_ne (fun heq : u = p => ht (heq ▸ hu)) ..
      rw [hmap, Function.update_self]
      grind
    · have hne : t ≠ p := fun heq => ht (heq ▸ hp)
      rw [Function.update_of_ne hne, ih hnodup hp, Int64.add_assoc]

variable [DecidableEq ι]

/-- What a call adds to accumulator `i`. -/
def Call.delta (i : ι) : Call ι → Int64
  | .mutate j _ delta => if i = j then delta else 0
  | _ => 0

theorem sum_tally {m : Method} {i : ι} {a : Call ι} (f : Fin maxThreadCount → Int64)
    (ha : ∀ tid v, a ≠ .set i tid v) :
    ((List.finRange maxThreadCount).map (a.tally m i f)).sum =
      ((List.finRange maxThreadCount).map f).sum + a.delta i := by
  cases a with
  | construct | destroy => exact (Int64.add_zero _).symm
  | mutate j tid delta =>
    simp only [Call.tally, Call.delta]
    split_ifs
    · exact sum_update f delta (List.nodup_finRange _) (List.mem_finRange _)
    · exact (Int64.add_zero _).symm
  | set j tid value =>
    have hij : i ≠ j := by
      rintro rfl
      exact ha tid value rfl
    simp only [Call.tally, Call.delta, if_neg hij]
    exact (Int64.add_zero _).symm

theorem sum_tallies {m : Method} {i : ι} {xs : List (Call ι)} (f : Fin maxThreadCount → Int64)
    (hxs : ∀ a ∈ xs, ∀ tid v, a ≠ .set i tid v) :
    ((List.finRange maxThreadCount).map (xs.foldl (Call.tally m i) f)).sum =
      ((List.finRange maxThreadCount).map f).sum + (xs.map (Call.delta i)).sum := by
  induction xs generalizing f with
  | nil => exact (Int64.add_zero _).symm
  | cons a xs ih =>
    rw [List.foldl_cons, ih _ fun b hb => hxs b (List.mem_cons_of_mem _ hb),
      sum_tally f (hxs a List.mem_cons_self), List.map_cons, List.sum_cons, Int64.add_assoc]

end YwStorage.Accumulator
