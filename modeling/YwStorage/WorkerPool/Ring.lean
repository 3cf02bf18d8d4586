import YwStorage.WorkerPool.Basic
import YwStorage.Lib.Threads

/-!
The ring as a queue of tickets: a task is reserved, gets its function and then its argument, is
taken, loses its function, and leaves. Only the oldest task can be taken.
-/
namespace YwStorage.WorkerPool
open Threads

/-- The words of the ring, and the tasks that threads are putting in or taking out. The flag tells
whether the thread has dealt with the function of its slot. -/
structure Ring (π ω F A : Type*) where
  queueBegin : ℕ
  queueEnd : ℕ
  funcs : ℕ → F
  args : ℕ → Option (A × ℕ)
  pending : π → Option (Bool × Task F A × ℕ)
  taken : ω → Option (Bool × Task F A × ℕ)
  tickets : ℕ
  accepted : List (Task F A)
  returned : List (Task F A)

namespace Ring
variable {π ω F A : Type*} [DecidableEq π] [DecidableEq ω] {nullFunc : F} {r r' : Ring π ω F A}

/-- The ticket of the oldest task in the ring. -/
def oldest (r : Ring π ω F A) : ℕ := r.returned.length

/-- The steps of a ring that is never overfilled and only gives out its oldest task. -/
inductive Step (nullFunc : F) (r : Ring π ω F A) : Ring π ω F A → Prop
  | stay : Step nullFunc r r
  | reserve (i : π) (func : F) (arg : A) (hi : r.pending i = none)
      (hroom : (r.queueEnd + 1) % maxQueueSize ≠ r.queueBegin) :
      Step nullFunc r { r with
        queueEnd := (r.queueEnd + 1) % maxQueueSize
        tickets := r.tickets + 1
        pending := Function.update r.pending i
          (some (false, ⟨func, arg, r.tickets⟩, r.queueEnd)) }
  | name (i : π) (x : Task F A) (p : ℕ) (hi : r.pending i = some (false, x, p))
      (hfree : r.funcs p = nullFunc) :
      Step nullFunc r { r with
        funcs := Function.update r.funcs p x.func
        pending := Function.update r.pending i (some (true, x, p)) }
  | publish (i : π) (x : Task F A) (p : ℕ) (hi : r.pending i = some (true, x, p))
      (hfree : r.args p = none) :
      Step nullFunc r { r with
        args := Function.update r.args p (some (x.arg, x.ticket))
        accepted := x :: r.accepted
        pending := Function.update r.pending i none }
  | take (w : ω) (p : ℕ) (arg : A) (ticket : ℕ) (hw : r.taken w = none)
      (hfull : r.args p = some (arg, ticket)) (hbegin : r.queueBegin = p) :
      Step nullFunc r { r with
        args := Function.update r.args p none
        taken := Function.update r.taken w (some (false, ⟨r.funcs p, arg, ticket⟩, p)) }
  | clear (w : ω) (x : Task F A) (p : ℕ) (hw : r.taken w = some (false, x, p))
      (hfunc : r.funcs p = x.func) :
      Step nullFunc r { r with
        funcs := Function.update r.funcs p nullFunc
        taken := Function.update r.taken w (some (true, x, p)) }
  | advance (w : ω) (x : Task F A) (p : ℕ) (hw : r.taken w = some (true, x, p))
      (hbegin : r.queueBegin = p) :
      Step nullFunc r { r with
        queueBegin := (p + 1) % maxQueueSize
        returned := x :: r.returned
        taken := Function.update r.taken w none }

/-- A ticket of a ring that holds the tickets from `oldest` up to `tickets`, and its slot. -/
structure Inside (oldest tickets ticket p : ℕ) : Prop where
  oldest_le : oldest ≤ ticket
  lt_tickets : ticket < tickets
  slot_eq : p = ticket % maxQueueSize

structure Valid (r : Ring π ω F A) : Prop where
  begin_eq : r.queueBegin = r.oldest % maxQueueSize
  end_eq : r.queueEnd = r.tickets % maxQueueSize
  oldest_le : r.oldest ≤ r.tickets
  tickets_lt : r.tickets < r.oldest + maxQueueSize
  pending_inside : ∀ i b x p, r.pending i = some (b, x, p) → Inside r.oldest r.tickets x.ticket p
  pending_unique : ∀ i j b b' x y p q, r.pending i = some (b, x, p) →
    r.pending j = some (b', y, q) → x.ticket = y.ticket → i = j
  pending_func : ∀ i x p, r.pending i = some (true, x, p) → r.funcs p = x.func
  pending_fresh : ∀ i b x p, r.pending i = some (b, x, p) → ∀ y ∈ r.accepted, y.ticket ≠ x.ticket
  full : ∀ p arg ticket, r.args p = some (arg, ticket) →
    Inside r.oldest r.tickets ticket p ∧ ⟨r.funcs p, arg, ticket⟩ ∈ r.accepted
  taken_oldest : ∀ w b x p, r.taken w = some (b, x, p) →
    x.ticket = r.oldest ∧ p = r.queueBegin ∧ r.args p = none ∧ x ∈ r.accepted
  taken_unique : ∀ w w' b b' x y p q, r.taken w = some (b, x, p) → r.taken w' = some (b', y, q) →
    w = w'
  taken_func : ∀ w x p, r.taken w = some (false, x, p) → r.funcs p = x.func
  accepted_lt : ∀ x ∈ r.accepted, x.ticket < r.tickets
  accepted_nodup : (r.accepted.map Task.ticket).Nodup
  returned_mem : ∀ x ∈ r.returned, x ∈ r.accepted ∧ x.ticket < r.oldest
  returned_nodup : (r.returned.map Task.ticket).Nodup

/-- Two tickets in the ring do not share a slot. -/
theorem Valid.inside_unique (h : r.Valid) {τ τ' p : ℕ} (hτ : Inside r.oldest r.tickets τ p)
    (hτ' : Inside r.oldest r.tickets τ' p) : τ = τ' := by
  obtain ⟨h1, h2, h3⟩ := hτ
  obtain ⟨h1', h2', h3'⟩ := hτ'
  have := h.tickets_lt
  unfold maxQueueSize at *
  omega

/-- The slot of a task that is being put in holds no argument. -/
theorem Valid.pending_args (h : r.Valid) {i : π} {b : Bool} {x : Task F A} {p : ℕ}
    (hi : r.pending i = some (b, x, p)) : r.args p = none := by
  cases hp : r.args p with
  | none => rfl
  | some c =>
    obtain ⟨arg, ticket⟩ := c
    obtain ⟨hin, hmem⟩ := h.full p arg ticket hp
    exact absurd (h.inside_unique hin (h.pending_inside i b x p hi))
      (h.pending_fresh i b x p hi _ hmem)

theorem Valid.taken_inside (h : r.Valid) {w : ω} {b : Bool} {x : Task F A} {p : ℕ}
    (hw : r.taken w = some (b, x, p)) : Inside r.oldest r.tickets x.ticket p := by
  obtain ⟨hold, hp, -, hmem⟩ := h.taken_oldest w b x p hw
  exact ⟨Nat.le_of_eq hold.symm, h.accepted_lt x hmem, by rw [hp, h.begin_eq, hold]⟩

/-- A task is not put in and taken out at once. -/
theorem Valid.pending_ne_taken (h : r.Valid) {i : π} {w : ω} {b b' : Bool} {x y : Task F A}
    {p q : ℕ} (hi : r.pending i = some (b, x, p)) (hw : r.taken w = some (b', y, q)) : p ≠ q := by
  rintro rfl
  obtain ⟨-, -, -, hmem⟩ := h.taken_oldest w b' y p hw
  exact h.pending_fresh i b x p hi y hmem
    (h.inside_unique (h.taken_inside hw) (h.pending_inside i b x p hi))

section Steps
variable {i : π} {w : ω} {x : Task F A} {p : ℕ} {func : F} {arg : A}

theorem Valid.reserve (h : r.Valid) (hroom : (r.queueEnd + 1) % maxQueueSize ≠ r.queueBegin) :
    Valid { r with
      queueEnd := (r.queueEnd + 1) % maxQueueSize
      tickets := r.tickets + 1
      pending := Function.update r.pending i
        (some (false, ⟨func, arg, r.tickets⟩, r.queueEnd)) } := by
  have hle := h.oldest_le
  refine ⟨h.begin_eq, ?_, ?_, ?_, ?_, ?_, ?_, ?_, ?_, h.taken_oldest, h.taken_unique, h.taken_func,
    ?_, h.accepted_nodup, h.returned_mem, h.returned_nodup⟩
  · show (r.queueEnd + 1) % maxQueueSize = (r.tickets + 1) % maxQueueSize
    rw [h.end_eq, Nat.mod_add_mod]
  · exact Nat.le_succ_of_le hle
  · -- a full ring would have its end right before its beginning
    show r.tickets + 1 < r.oldest + maxQueueSize
    have hlt := h.tickets_lt
    have hb := h.begin_eq
    have he := h.end_eq
    unfold maxQueueSize at *
    omega
  · intro j b y q hj
    rcases update_eq_some hj with ⟨-, heq⟩ | ⟨-, hj⟩
    · cases heq
      exact ⟨hle, Nat.lt_succ_self _, h.end_eq⟩
    · obtain ⟨h1, h2, h3⟩ := h.pending_inside j b y q hj
      exact ⟨h1, Nat.lt_succ_of_lt h2, h3⟩
  · intro j k b b' y z q q' hj hk heq
    rcases update_eq_some hj with ⟨rfl, hy⟩ | ⟨-, hj₁⟩
    · rcases update_eq_some hk with ⟨rfl, -⟩ | ⟨-, hk₁⟩
      · rfl
      · cases hy
        exact absurd heq (Nat.ne_of_gt (h.pending_inside k b' z q' hk₁).lt_tickets)
    · rcases update_eq_some hk with ⟨rfl, hz⟩ | ⟨-, hk₁⟩
      · cases hz
        exact absurd heq (Nat.ne_of_lt (h.pending_inside j b y q hj₁).lt_tickets)
      · exact h.pending_unique j k b b' y z q q' hj₁ hk₁ heq
  · intro j y q hj
    rcases update_eq_some hj with ⟨-, heq⟩ | ⟨-, hj⟩
    · cases heq
    · exact h.pending_func j y q hj
  · intro j b y q hj z hz
    rcases update_eq_some hj with ⟨-, heq⟩ | ⟨-, hj⟩
    · cases heq
      exact Nat.ne_of_lt (h.accepted_lt z hz)
    · exact h.pending_fresh j b y q hj z hz
  · intro q a τ hq
    obtain ⟨⟨h1, h2, h3⟩, hmem⟩ := h.full q a τ hq
    exact ⟨⟨h1, Nat.lt_succ_of_lt h2, h3⟩, hmem⟩
  · intro y hy
    exact Nat.lt_succ_of_lt (h.accepted_lt y hy)

theorem Valid.name (h : r.Valid) (hi : r.pending i = some (false, x, p)) :
    Valid { r with
      funcs := Function.update r.funcs p x.func
      pending := Function.update r.pending i (some (true, x, p)) } := by
  -- the other threads are at other slots
  have hother : ∀ {j b y q}, j ≠ i → r.pending j = some (b, y, q) → q ≠ p := by
    rintro j b y q hne hj rfl
    exact hne (h.pending_unique j i b false y x q q hj hi
      (h.inside_unique (h.pending_inside j b y q hj) (h.pending_inside i false x q hi)))
  refine ⟨h.begin_eq, h.end_eq, h.oldest_le, h.tickets_lt, ?_, ?_, ?_, ?_, ?_, h.taken_oldest,
    h.taken_unique, ?_, h.accepted_lt, h.accepted_nodup, h.returned_mem, h.returned_nodup⟩
  · intro j b y q hj
    rcases update_eq_some hj with ⟨-, heq⟩ | ⟨-, hj⟩
    · cases heq
      exact h.pending_inside i false x p hi
    · exact h.pending_inside j b y q hj
  · intro j k b b' y z q q' hj hk heq
    rcases update_eq_some hj with ⟨rfl, hy⟩ | ⟨-, hj₁⟩
    · cases hy
      rcases update_eq_some hk with ⟨rfl, -⟩ | ⟨-, hk₁⟩
      · rfl
      · exact h.pending_unique j k false b' x z p q' hi hk₁ heq
    · rcases update_eq_some hk with ⟨rfl, hz⟩ | ⟨-, hk₁⟩
      · cases hz
        exact h.pending_unique j k b false y x q p hj₁ hi heq
      · exact h.pending_unique j k b b' y z q q' hj₁ hk₁ heq
  · intro j y q hj
    rcases update_eq_some hj with ⟨-, heq⟩ | ⟨hji, hj⟩
    · cases heq
      exact Function.update_self ..
    · exact (Function.update_of_ne (hother hji hj) ..).trans (h.pending_func j y q hj)
  · intro j b y q hj
    rcases update_eq_some hj with ⟨-, heq⟩ | ⟨-, hj⟩
    · cases heq
      exact h.pending_fresh i false x p hi
    · exact h.pending_fresh j b y q hj
  · intro q a τ hq
    have hqp : q ≠ p := by
      rintro rfl
      rw [h.pending_args hi] at hq
      cases hq
    simpa only [oldest, Function.update_of_ne hqp] using h.full q a τ hq
  · intro v y q hv
    have hqp : q ≠ p := (h.pending_ne_taken hi hv).symm
    simpa only [Function.update_of_ne hqp] using h.taken_func v y q hv

theorem Valid.publish (h : r.Valid) (hi : r.pending i = some (true, x, p)) :
    Valid { r with
      args := Function.update r.args p (some (x.arg, x.ticket))
      accepted := x :: r.accepted
      pending := Function.update r.pending i none } := by
  have hkeep : ∀ {j b y q}, Function.update r.pending i none j = some (b, y, q) →
      j ≠ i ∧ r.pending j = some (b, y, q) := by
    intro j b y q hj
    rcases update_eq_some hj with ⟨-, heq⟩ | hj
    · cases heq
    · exact hj
  refine ⟨h.begin_eq, h.end_eq, h.oldest_le, h.tickets_lt, ?_, ?_, ?_, ?_, ?_, ?_, h.taken_unique,
    h.taken_func, ?_, ?_, ?_, h.returned_nodup⟩
  · intro j b y q hj
    exact h.pending_inside j b y q (hkeep hj).2
  · intro j k b b' y z q q' hj hk heq
    exact h.pending_unique j k b b' y z q q' (hkeep hj).2 (hkeep hk).2 heq
  · intro j y q hj
    exact h.pending_func j y q (hkeep hj).2
  · intro j b y q hj z hz
    obtain ⟨hji, hj₁⟩ := hkeep hj
    rcases List.mem_cons.mp hz with rfl | hz₁
    · intro heq
      exact hji (h.pending_unique j i b true y z q p hj₁ hi heq.symm)
    · exact h.pending_fresh j b y q hj₁ z hz₁
  · intro q a τ hq
    rcases update_eq_some hq with ⟨rfl, heq⟩ | ⟨-, hq⟩
    · cases heq
      refine ⟨h.pending_inside i true x q hi, ?_⟩
      rw [h.pending_func i x q hi]
      exact List.mem_cons_self
    · obtain ⟨hin, hmem⟩ := h.full q a τ hq
      exact ⟨hin, List.mem_cons_of_mem _ hmem⟩
  · intro v b y q hv
    obtain ⟨hold, hq, hargs, hmem⟩ := h.taken_oldest v b y q hv
    have hqp : q ≠ p := (h.pending_ne_taken hi hv).symm
    exact ⟨hold, hq, (Function.update_of_ne hqp ..).trans hargs, List.mem_cons_of_mem _ hmem⟩
  · intro y hy
    rcases List.mem_cons.mp hy with rfl | hy
    · exact (h.pending_inside i true y p hi).lt_tickets
    · exact h.accepted_lt y hy
  · rw [List.map_cons, List.nodup_cons]
    refine ⟨?_, h.accepted_nodup⟩
    rw [List.mem_map]
    rintro ⟨y, hy, heq⟩
    exact h.pending_fresh i true x p hi y hy heq
  · intro y hy
    obtain ⟨hmem, hlt⟩ := h.returned_mem y hy
    exact ⟨List.mem_cons_of_mem _ hmem, hlt⟩

theorem Valid.take (h : r.Valid) {ticket : ℕ} (hfull : r.args p = some (arg, ticket))
    (hbegin : r.queueBegin = p) :
    Valid { r with
      args := Function.update r.args p none
      taken := Function.update r.taken w (some (false, ⟨r.funcs p, arg, ticket⟩, p)) } := by
  -- the slot at the beginning is the one of the oldest ticket
  have hnone : ∀ {v b y q}, r.taken v ≠ some (b, y, q) := by
    intro v b y q hv
    obtain ⟨-, hq, hargs, -⟩ := h.taken_oldest v b y q hv
    rw [hq, hbegin, hfull] at hargs
    cases hargs
  obtain ⟨hin, hmem⟩ := h.full p arg ticket hfull
  have hold : ticket = r.oldest := by
    refine h.inside_unique hin ⟨Nat.le_refl _, ?_, by rw [← hbegin, h.begin_eq]⟩
    exact Nat.lt_of_le_of_lt hin.oldest_le hin.lt_tickets
  refine ⟨h.begin_eq, h.end_eq, h.oldest_le, h.tickets_lt, h.pending_inside, h.pending_unique,
    h.pending_func, h.pending_fresh, ?_, ?_, ?_, ?_, h.accepted_lt, h.accepted_nodup,
    h.returned_mem, h.returned_nodup⟩
  · intro q a τ hq
    rcases update_eq_some hq with ⟨-, heq⟩ | ⟨-, hq⟩
    · cases heq
    · exact h.full q a τ hq
  · intro v b y q hv
    rcases update_eq_some hv with ⟨-, heq⟩ | ⟨-, hv⟩
    · cases heq
      exact ⟨hold, hbegin.symm, Function.update_self .., hmem⟩
    · exact absurd hv hnone
  · intro v v' b b' y z q q' hv hv'
    rcases update_eq_some hv with ⟨rfl, -⟩ | ⟨-, hv⟩
    · rcases update_eq_some hv' with ⟨rfl, -⟩ | ⟨-, hv'⟩
      · rfl
      · exact absurd hv' hnone
    · exact absurd hv hnone
  · intro v y q hv
    rcases update_eq_some hv with ⟨-, heq⟩ | ⟨-, hv⟩
    · cases heq
      rfl
    · exact absurd hv hnone

theorem Valid.clear (h : r.Valid) (hw : r.taken w = some (false, x, p)) :
    Valid { r with
      funcs := Function.update r.funcs p nullFunc
      taken := Function.update r.taken w (some (true, x, p)) } := by
  have honly : ∀ {v b y q}, v ≠ w → r.taken v ≠ some (b, y, q) := by
    intro v b y q hne hv
    exact hne (h.taken_unique v w b false y x q p hv hw)
  refine ⟨h.begin_eq, h.end_eq, h.oldest_le, h.tickets_lt, h.pending_inside, h.pending_unique,
    ?_, h.pending_fresh, ?_, ?_, ?_, ?_, h.accepted_lt, h.accepted_nodup, h.returned_mem,
    h.returned_nodup⟩
  · intro j y q hj
    have hqp : q ≠ p := h.pending_ne_taken hj hw
    exact (Function.update_of_ne hqp ..).trans (h.pending_func j y q hj)
  · intro q a τ hq
    have hqp : q ≠ p := by
      rintro rfl
      have hargs := (h.taken_oldest w false x q hw).2.2.1
      rw [hargs] at hq
      cases hq
    simpa only [oldest, Function.update_of_ne hqp] using h.full q a τ hq
  · intro v b y q hv
    rcases update_eq_some hv with ⟨-, heq⟩ | ⟨hne, hv⟩
    · cases heq
      exact h.taken_oldest w false x p hw
    · exact absurd hv (honly hne)
  · intro v v' b b' y z q q' hv hv'
    rcases update_eq_some hv with ⟨rfl, -⟩ | ⟨hne, hv⟩
    · rcases update_eq_some hv' with ⟨rfl, -⟩ | ⟨hne, hv'⟩
      · rfl
      · exact absurd hv' (honly hne)
    · exact absurd hv (honly hne)
  · intro v y q hv
    rcases update_eq_some hv with ⟨-, heq⟩ | ⟨hne, hv⟩
    · cases heq
    · exact absurd hv (honly hne)

theorem Valid.advance (h : r.Valid) (hw : r.taken w = some (true, x, p)) :
    Valid { r with
      queueBegin := (p + 1) % maxQueueSize
      returned := x :: r.returned
      taken := Function.update r.taken w none } := by
  obtain ⟨hold, hp, hargs, hmem⟩ := h.taken_oldest w true x p hw
  have hlt : r.oldest < r.tickets := hold ▸ h.accepted_lt x hmem
  have hnone : ∀ {v b y q}, Function.update r.taken w none v ≠ some (b, y, q) := by
    intro v b y q hv
    rcases update_eq_some hv with ⟨-, heq⟩ | ⟨hne, hv⟩
    · cases heq
    · exact hne (h.taken_unique v w b true y x q p hv hw)
  -- a ticket in the ring other than the oldest stays in the ring
  have hinside : ∀ {τ q}, Inside r.oldest r.tickets τ q → τ ≠ r.oldest → r.oldest + 1 ≤ τ := by
    intro τ q hin hne
    have := hin.oldest_le
    omega
  refine ⟨?_, h.end_eq, hlt, ?_, ?_, h.pending_unique, h.pending_func, h.pending_fresh, ?_,
    fun v b y q hv => absurd hv hnone, fun v v' b b' y z q q' hv => absurd hv hnone,
    fun v y q hv => absurd hv hnone, h.accepted_lt, h.accepted_nodup, ?_, ?_⟩
  · show (p + 1) % maxQueueSize = (r.oldest + 1) % maxQueueSize
    rw [hp, h.begin_eq, Nat.mod_add_mod]
  · show r.tickets < r.oldest + 1 + maxQueueSize
    have := h.tickets_lt
    omega
  · intro j b y q hj
    have hin := h.pending_inside j b y q hj
    have hne : y.ticket ≠ r.oldest := fun heq =>
      h.pending_fresh j b y q hj x hmem (hold.trans heq.symm)
    exact ⟨hinside hin hne, hin.lt_tickets, hin.slot_eq⟩
  · intro q a τ hq
    obtain ⟨hin, hacc⟩ := h.full q a τ hq
    have hne : τ ≠ r.oldest := by
      rintro rfl
      have hslot : q = p := hin.slot_eq.trans ((hold ▸ (h.taken_inside hw).slot_eq).symm)
      rw [hslot, hargs] at hq
      cases hq
    exact ⟨⟨hinside hin hne, hin.lt_tickets, hin.slot_eq⟩, hacc⟩
  · intro y hy
    show y ∈ r.accepted ∧ y.ticket < r.oldest + 1
    rcases List.mem_cons.mp hy with rfl | hy
    · exact ⟨hmem, by omega⟩
    · obtain ⟨hacc, hlt'⟩ := h.returned_mem y hy
      exact ⟨hacc, by omega⟩
  · rw [List.map_cons, List.nodup_cons]
    refine ⟨?_, h.returned_nodup⟩
    rw [List.mem_map]
    rintro ⟨y, hy, heq⟩
    have := (h.returned_mem y hy).2
    omega

end Steps

theorem valid_step (hstep : Step nullFunc r r') (h : r.Valid) : r'.Valid := by
  cases hstep with
  | stay => exact h
  | reserve i func arg _ hroom => exact h.reserve hroom
  | name i x p hi _ => exact h.name hi
  | publish i x p hi _ => exact h.publish hi
  | take w p arg ticket _ hfull hbegin => exact h.take hfull hbegin
  | clear w x p hw _ => exact h.clear hw
  | advance w x p hw _ => exact h.advance hw

end Ring
end YwStorage.WorkerPool
