import YwStorage.Queue.Basic

/-! What the log says of the running and the completed pushes. -/
namespace YwStorage.Queue

variable {τ ν : Type*}

/-- The node that a thread is pushing. -/
def Pc.pushing : Pc ν → Option ν
  | .readTail x | .assertTail x _ | .assertNext x _ _ | .readNext x _ | .writeNext x _ _
  | .testNext x _ | .testSelf x _ | .resetTail x | .loadNext x _ | .casTail x _ _
  | .recheckTail x | .recheckNext x _ | .attachTail x | .attach x _ => some x
  | _ => none

section Log
variable {log : List (Event ν)} {p : Ptr ν}

@[simp] theorem pushes_push : pushes (log ++ [.push p]) = pushes log := by simp [pushes]

@[simp] theorem pushes_pushed : pushes (log ++ [.pushed p]) = pushes log ++ [p] := by simp [pushes]

@[simp] theorem pushes_popped : pushes (log ++ [.popped p]) = pushes log := by simp [pushes]

@[simp] theorem pops_push : pops (log ++ [.push p]) = pops log := by simp [pops]

@[simp] theorem pops_pushed : pops (log ++ [.pushed p]) = pops log := by simp [pops]

@[simp] theorem pops_popped : pops (log ++ [.popped p]) = pops log ++ [p] := by simp [pops]

theorem mem_pushes : p ∈ pushes log ↔ .pushed p ∈ log := by
  rw [pushes, List.mem_filterMap]
  constructor
  · rintro ⟨e, he, heq⟩
    cases e <;> cases heq
    exact he
  · exact fun h => ⟨_, h, rfl⟩

theorem mem_pops : p ∈ pops log ↔ .popped p ∈ log := by
  rw [pops, List.mem_filterMap]
  constructor
  · rintro ⟨e, he, heq⟩
    cases e <;> cases heq
    exact he
  · exact fun h => ⟨_, h, rfl⟩

end Log

/-- How a step of a thread that goes on from `pc` with `pc'` changes the log. -/
inductive Logged (log : List (Event ν)) (pc : Pc ν) : List (Event ν) → Pc ν → Prop
  | push {x : ν} {pc' : Pc ν} : .push (.node x) ∉ log → pc.pushing = none →
      pc'.pushing = some x → Logged log pc (log ++ [.push (.node x)]) pc'
  | same {pc' : Pc ν} : pc'.pushing = pc.pushing → Logged log pc log pc'
  | pushed {x : ν} {pc' : Pc ν} : pc.pushing = some x → pc'.pushing = none →
      Logged log pc (log ++ [.pushed (.node x)]) pc'
  | popped {p : Ptr ν} {pc' : Pc ν} : pc'.pushing = pc.pushing →
      Logged log pc (log ++ [.popped p]) pc'

/-- A pair that the new last event is not part of. -/
theorem pair_of_concat {β : Type*} {a b c : β} {l : List β} (h : [a, b].Sublist (l ++ [c]))
    (hne : b ≠ c) : [a, b].Sublist l := by
  obtain ⟨l₁, l₂, heq, h₁, h₂⟩ := List.sublist_append_iff.mp h
  rcases List.sublist_singleton.mp h₂ with rfl | rfl
  · rw [List.append_nil] at heq
    rwa [heq]
  · have hlast := congrArg List.getLast? heq
    simp at hlast
    exact absurd hlast hne

/-- What the log says of the running pushes, and the order of the completed ones. -/
structure Traced (log : List (Event ν)) (pc : τ → Pc ν) : Prop where
  begun : ∀ i x, (pc i).pushing = some x → .push (.node x) ∈ log ∧ .node x ∉ pushes log
  alone : ∀ i j x, (pc i).pushing = some x → (pc j).pushing = some x → i = j
  called : ∀ p ∈ pushes log, .push p ∈ log
  done : ∀ p, .push p ∈ log → p ∈ pushes log ∨ ∃ i x, (pc i).pushing = some x ∧ p = .node x
  order : ∀ p q, [.pushed p, .push q].Sublist log → q ∈ pushes log →
    [p, q].Sublist (pushes log)

section Traced
variable {log log' : List (Event ν)} {pcs : τ → Pc ν} {pc' : Pc ν} {i : τ} {x : ν}

/-- Only the calls and the completed pushes of the log count. -/
theorem Traced.congr {pcs' : τ → Pc ν} (h : Traced log pcs)
    (hpc : ∀ j, (pcs' j).pushing = (pcs j).pushing) (hpushes : pushes log' = pushes log)
    (hpush : ∀ p, .push p ∈ log' ↔ .push p ∈ log)
    (hpair : ∀ p q, [.pushed p, .push q].Sublist log' → [.pushed p, .push q].Sublist log) :
    Traced log' pcs' := by
  refine ⟨fun j x hj => ?_, fun j k x hj hk => ?_, fun p hp => ?_, fun p hp => ?_,
    fun p q hpq hq => ?_⟩
  · rw [hpush, hpushes]
    exact h.begun j x ((hpc j).symm.trans hj)
  · exact h.alone j k x ((hpc j).symm.trans hj) ((hpc k).symm.trans hk)
  · rw [hpushes] at hp
    exact (hpush p).mpr (h.called p hp)
  · rw [hpushes]
    refine (h.done p ((hpush p).mp hp)).imp_right ?_
    rintro ⟨j, x, hj, rfl⟩
    exact ⟨j, x, (hpc j).trans hj, rfl⟩
  · rw [hpushes] at hq ⊢
    exact h.order p q (hpair p q hpq) hq

variable [DecidableEq τ]

theorem pushing_update (hsame : pc'.pushing = (pcs i).pushing) (j : τ) :
    (Function.update pcs i pc' j).pushing = (pcs j).pushing := by
  by_cases hj : j = i
  · subst hj
    rw [Function.update_self, hsame]
  · rw [Function.update_of_ne hj]

theorem Traced.pushed (h : Traced log pcs) (hi : (pcs i).pushing = some x)
    (hpc : pc'.pushing = none) :
    Traced (log ++ [.pushed (.node x)]) (Function.update pcs i pc') := by
  have hother : ∀ j y, (Function.update pcs i pc' j).pushing = some y →
      j ≠ i ∧ (pcs j).pushing = some y := by
    intro j y hj
    by_cases hji : j = i
    · subst hji
      rw [Function.update_self, hpc] at hj
      cases hj
    · rw [Function.update_of_ne hji] at hj
      exact ⟨hji, hj⟩
  refine ⟨fun j y hj => ?_, fun j k y hj hk => ?_, fun p hp => ?_, fun p hp => ?_,
    fun p q hpq hq => ?_⟩
  · obtain ⟨hji, hj⟩ := hother j y hj
    obtain ⟨hbegun, hnew⟩ := h.begun j y hj
    rw [pushes_pushed]
    refine ⟨List.mem_append_left _ hbegun, fun hmem => ?_⟩
    rcases List.mem_append.mp hmem with hmem | hmem
    · exact hnew hmem
    · obtain rfl : y = x := by simpa using hmem
      exact hji (h.alone j i y hj hi)
  · exact h.alone j k y (hother j y hj).2 (hother k y hk).2
  · rw [pushes_pushed] at hp
    refine List.mem_append_left _ ?_
    rcases List.mem_append.mp hp with hp | hp
    · exact h.called p hp
    · rw [List.mem_singleton.mp hp]
      exact (h.begun i x hi).1
  · rw [pushes_pushed]
    have hp' : .push p ∈ log := by simpa using hp
    rcases h.done p hp' with hp | ⟨j, y, hj, rfl⟩
    · exact .inl (List.mem_append_left _ hp)
    · by_cases hji : j = i
      · subst hji
        obtain rfl := Option.some.inj (hi.symm.trans hj)
        exact .inl (List.mem_append_right _ List.mem_cons_self)
      · exact .inr ⟨j, y, by rwa [Function.update_of_ne hji], rfl⟩
  · have hlog : [.pushed p, .push q].Sublist log := pair_of_concat hpq (by simp)
    rw [pushes_pushed] at hq ⊢
    rcases List.mem_append.mp hq with hq | hq
    · exact (h.order p q hlog hq).trans (List.sublist_append_left _ _)
    · obtain rfl := List.mem_singleton.mp hq
      have hp : p ∈ pushes log := mem_pushes.mpr (hlog.subset List.mem_cons_self)
      exact (List.singleton_sublist.mpr hp).append (List.Sublist.refl _)

theorem Traced.push (h : Traced log pcs) (hnew : .push (.node x) ∉ log)
    (hi : (pcs i).pushing = none) (hpc : pc'.pushing = some x) :
    Traced (log ++ [.push (.node x)]) (Function.update pcs i pc') := by
  have hfresh : .node x ∉ pushes log := fun hmem => hnew (h.called _ hmem)
  have hcase : ∀ j y, (Function.update pcs i pc' j).pushing = some y →
      j = i ∧ y = x ∨ j ≠ i ∧ y ≠ x ∧ (pcs j).pushing = some y := by
    intro j y hj
    by_cases hji : j = i
    · subst hji
      rw [Function.update_self, hpc] at hj
      exact .inl ⟨rfl, (Option.some.inj hj).symm⟩
    · rw [Function.update_of_ne hji] at hj
      refine .inr ⟨hji, ?_, hj⟩
      rintro rfl
      exact hnew (h.begun j y hj).1
  refine ⟨fun j y hj => ?_, fun j k y hj hk => ?_, fun p hp => ?_, fun p hp => ?_,
    fun p q hpq hq => ?_⟩
  · rw [pushes_push]
    rcases hcase j y hj with ⟨-, rfl⟩ | ⟨-, -, hj⟩
    · exact ⟨List.mem_append_right _ List.mem_cons_self, hfresh⟩
    · exact ⟨List.mem_append_left _ (h.begun j y hj).1, (h.begun j y hj).2⟩
  · rcases hcase j y hj with ⟨rfl, rfl⟩ | ⟨-, hne, hj⟩
    · rcases hcase k y hk with ⟨rfl, -⟩ | ⟨-, hne, -⟩
      · rfl
      · exact absurd rfl hne
    · rcases hcase k y hk with ⟨-, hy⟩ | ⟨-, -, hk⟩
      · exact absurd hy hne
      · exact h.alone j k y hj hk
  · rw [pushes_push] at hp
    exact List.mem_append_left _ (h.called p hp)
  · rw [pushes_push]
    rcases List.mem_append.mp hp with hp | hp
    · refine (h.done p hp).imp_right ?_
      rintro ⟨j, y, hj, rfl⟩
      refine ⟨j, y, ?_, rfl⟩
      rw [Function.update_of_ne]
      · exact hj
      · rintro rfl
        rw [hi] at hj
        cases hj
    · refine .inr ⟨i, x, by rw [Function.update_self, hpc], ?_⟩
      simpa using hp
  · rw [pushes_push] at hq ⊢
    refine h.order p q (pair_of_concat hpq fun heq => ?_) hq
    cases heq
    exact hfresh hq

theorem Traced.logged (h : Traced log pcs) (hl : Logged log (pcs i) log' pc') :
    Traced log' (Function.update pcs i pc') := by
  cases hl with
  | same hsame =>
    exact h.congr (pushing_update hsame) rfl (fun _ => Iff.rfl) fun _ _ => id
  | push hnew hi hpc => exact h.push hnew hi hpc
  | pushed hi hpc => exact h.pushed hi hpc
  | popped hsame =>
    exact h.congr (pushing_update hsame) pushes_popped (by simp)
      fun p q hpq => pair_of_concat hpq (by simp)

end Traced

end YwStorage.Queue
