import YwStorage.Log.Pos

/-!
Appending threads and the flusher of `ywlogstore.h`, as far as positions and views go.

Memory is sequentially consistent and every step is one access of it; `value->write` is one step.
`find_cache` may or may not find the chunk, and if it does it returns the chunk's own buffer.
-/
namespace YwStorage.Log
open Lts Threads

def chunkSize : ℕ := 2 ^ 24
def flushUnit : ℕ := 2 ^ 18
def viewDefault : ℕ := 2 ^ 63 - 1

/-- What a thread in `append` does next. -/
inductive Appender
  | idle
  | readPos (size : ℕ)
  | setView (size cnk : ℕ)
  | forward (pc : Forward)
  | locate (pos size : ℕ)
  | minFirst (pos size : ℕ)
  | minScan (pos size i val : ℕ)
  | write (pos size : ℕ)
  | reset
  | failed
  deriving DecidableEq

/-- What the flusher does next; `old` is `write_pos` at the beginning of `flush`. -/
inductive Flusher
  | idle
  | compare (old : ℕ)
  | find (old : ℕ)
  | minFirst (old : ℕ)
  | minScan (old i val : ℕ)
  | take (old : ℕ)
  | write (old : ℕ)
  deriving DecidableEq

/-- `n` is `MAX_THREAD_COUNT`; `ranges` are the ranges reserved so far. -/
structure Store (n : ℕ) where
  appendPos : ℕ
  writePos : ℕ
  view : ℕ → ℕ
  appender : Fin n → Appender
  flusher : Flusher
  ranges : List (ℕ × ℕ)

namespace Store
variable {n : ℕ} (s : Store n)

inductive Label (n : ℕ)
  | call (i : Fin n) (size : ℕ)
  | append (i : Fin n)
  /-- The flag is the outcome of `find_cache`, of `cnt < FLUSH_COUNT` or of `pwritev`. -/
  | flush (ok : Bool)
  deriving DecidableEq

/-- The state after `create_master` or `reload_master`, which start at a chunk. -/
def init (cnk : ℕ) : Store n :=
  ⟨cnk * chunkSize, cnk * chunkSize, fun _ => viewDefault, fun _ => .idle, .idle, []⟩

def setAppender (i : Fin n) (pc : Appender) : Store n :=
  { s with appender := Function.update s.appender i pc }

/-- `go_forward<CHUNK_SIZE>` on `append_pos`. -/
def goForward (i : Fin n) (pc : Forward) : Store n :=
  let (val, pc') := pc.step 24 s.appendPos
  match pc' with
  | .done pos size =>
    { s.setAppender i (.locate pos size) with
      appendPos := val, ranges := (pos, size) :: s.ranges }
  | pc' => { s.setAppender i (.forward pc') with appendPos := val }

def append (i : Fin n) : Store n :=
  match s.appender i with
  | .idle | .failed => s
  | .readPos size => s.setAppender i (.setView size (s.appendPos / chunkSize))
  | .setView size cnk =>
    { s.setAppender i (.forward (.read size)) with view := Function.update s.view i cnk }
  | .forward (.done _ _) => s
  | .forward pc => s.goForward i pc
  | .locate pos size => s.setAppender i (.minFirst pos size)
  | .minFirst pos size => s.setAppender i (.minScan pos size 0 (s.view 0))
  | .minScan pos size j val =>
    if j < n then
      s.setAppender i (.minScan pos size (j + 1) (if s.view j < val then s.view j else val))
    else if val ≤ pos / chunkSize then s.setAppender i (.write pos size)
    else s.setAppender i .failed
  | .write _ _ => s.setAppender i .reset
  | .reset => { s.setAppender i .idle with view := Function.update s.view i viewDefault }

def flush (ok : Bool) : Store n :=
  match s.flusher with
  | .idle => { s with flusher := .compare s.writePos }
  | .compare old =>
    { s with flusher := if s.writePos + flushUnit > s.appendPos then .write old else .find old }
  | .find old => { s with flusher := if ok then .minFirst old else .write old }
  | .minFirst old => { s with flusher := .minScan old 0 (s.view 0) }
  | .minScan old j val =>
    if j < n then
      { s with flusher := .minScan old (j + 1) (if s.view j < val then s.view j else val) }
    else { s with flusher := if val ≤ s.writePos / chunkSize then .write old else .take old }
  | .take old =>
    { s with
      writePos := s.writePos + flushUnit
      flusher := if ok then .compare old else .write old }
  | .write old => { s with writePos := if ok then s.writePos else old, flusher := .idle }

def act (a : Label n) : Option (Store n) :=
  match a with
  | .call i size =>
    if s.appender i = .idle ∧ 0 < size ∧ size ≤ chunkSize then
      some (s.setAppender i (.readPos size))
    else none
  | .append i => some (s.append i)
  | .flush ok => some (s.flush ok)

def Step (t : Store n) (a : Label n) (u : Store n) : Prop := t.act a = some u

end Store

/-- A range that is reserved but not yet written. -/
def Appender.unwritten : Appender → Option (ℕ × ℕ)
  | .locate pos size | .minFirst pos size | .minScan pos size _ _ | .write pos size =>
    some (pos, size)
  | _ => none

/-- The view is set and the range not yet reserved. -/
def Appender.isForward : Appender → Bool
  | .forward _ => true
  | _ => false

/-- Apart from the unit at `w`. -/
def Apart (w : ℕ) (r : ℕ × ℕ) : Prop := r.1 + r.2 ≤ w ∨ w + flushUnit ≤ r.1

namespace Store
variable {n : ℕ} {s t : Store n}

/-- What the flusher knows of the unit at `write_pos`. -/
def Knows (s : Store n) : Flusher → Prop
  | .idle => True
  | .compare old | .write old => old % flushUnit = 0
  | .find old | .minFirst old =>
    old % flushUnit = 0 ∧ s.writePos + flushUnit ≤ s.appendPos
  | .minScan old j val => old % flushUnit = 0 ∧ s.writePos + flushUnit ≤ s.appendPos ∧
      ∀ i : Fin n, i < j → val ≤ s.writePos / chunkSize ∨
        ∀ r, (s.appender i).unwritten = some r → Apart s.writePos r
  | .take old => old % flushUnit = 0 ∧ s.writePos + flushUnit ≤ s.appendPos ∧
      ∀ (i : Fin n) r, (s.appender i).unwritten = some r → Apart s.writePos r

structure Viewed (s : Store n) : Prop where
  aligned : s.writePos % flushUnit = 0
  /-- A view is never ahead of the position, nor of the range it stands for. -/
  setView_le : ∀ i size cnk, s.appender i = .setView size cnk → cnk * chunkSize ≤ s.appendPos
  forward_le : ∀ i, (s.appender i).isForward = true → s.view i * chunkSize ≤ s.appendPos
  unwritten_le : ∀ i r, (s.appender i).unwritten = some r → s.view i * chunkSize ≤ r.1
  knows : s.Knows s.flusher

theorem viewed_init (cnk : ℕ) : (init cnk : Store n).Viewed := by
  refine ⟨?_, by simp [init], by simp [init, Appender.isForward],
    by simp [init, Appender.unwritten], trivial⟩
  show cnk * chunkSize % flushUnit = 0
  unfold chunkSize flushUnit
  omega

@[simp] theorem setAppender_self (i : Fin n) (pc : Appender) :
    (s.setAppender i pc).appender i = pc := Function.update_self ..

theorem setAppender_ne {i j : Fin n} (h : j ≠ i) (pc : Appender) :
    (s.setAppender i pc).appender j = s.appender j := Function.update_of_ne h ..

/-- What a step of an appending thread leaves alone, and where it gets its range. -/
structure Appends (s : Store n) (i : Fin n) (t : Store n) : Prop where
  writePos : t.writePos = s.writePos
  flusher : t.flusher = s.flusher
  appendPos : s.appendPos ≤ t.appendPos
  other : ∀ j, j ≠ i → t.appender j = s.appender j ∧ t.view j = s.view j
  unwritten : ∀ r, (t.appender i).unwritten = some r →
    ((s.appender i).unwritten = some r ∧ t.view i = s.view i) ∨
    ((s.appender i).isForward = true ∧ t.view i = s.view i ∧ s.appendPos ≤ r.1)
  forward : (t.appender i).isForward = true →
    ((s.appender i).isForward = true ∧ t.view i = s.view i) ∨
    ∃ size cnk, s.appender i = .setView size cnk ∧ t.view i = cnk
  setView : ∀ size cnk, t.appender i = .setView size cnk → cnk * chunkSize ≤ s.appendPos
  ranges : ∀ r ∈ t.ranges, r ∈ s.ranges ∨ s.appendPos ≤ r.1

theorem goForward_appends {i : Fin n} {pc : Forward} (hi : s.appender i = .forward pc)
    (hdone : ∀ pos size, pc ≠ .done pos size) : s.Appends i (s.goForward i pc) := by
  have hmono := Forward.le_step 24 s.appendPos pc
  have hforward : (s.appender i).isForward = true := by
    rw [hi]
    rfl
  cases hpc : (pc.step 24 s.appendPos).2 with
  | done pos size =>
    obtain ⟨-, hpos, -⟩ := Forward.step_eq_done 24 hdone hpc
    have hgo : s.goForward i pc = { s.setAppender i (.locate pos size) with
        appendPos := (pc.step 24 s.appendPos).1
        ranges := (pos, size) :: s.ranges } := by
      simp only [goForward, hpc]
    rw [hgo]
    refine ⟨rfl, rfl, hmono, fun j hj => ⟨setAppender_ne hj _, rfl⟩, ?_, ?_, ?_, ?_⟩
    · intro r hr
      simp only [setAppender_self, Appender.unwritten, Option.some.injEq] at hr
      subst hr
      exact .inr ⟨hforward, rfl, Nat.le_of_eq hpos.symm⟩
    · simp [Appender.isForward]
    · simp
    · intro r hr
      rcases List.mem_cons.mp hr with rfl | hr
      · exact .inr (Nat.le_of_eq hpos.symm)
      · exact .inl hr
  | _ =>
    simp only [goForward, hpc]
    refine ⟨rfl, rfl, hmono, fun j hj => ⟨setAppender_ne hj _, rfl⟩, ?_, ?_, ?_, ?_⟩
    · simp [Appender.unwritten]
    · exact fun _ => .inl ⟨hforward, rfl⟩
    · simp
    · exact fun r hr => .inl hr

/-- A step that changes neither the view nor the position. -/
theorem setAppender_appends {i : Fin n} {pc : Appender}
    (hunwritten : ∀ r, pc.unwritten = some r → (s.appender i).unwritten = some r)
    (hforward : pc.isForward = false)
    (hview : ∀ size cnk, pc = .setView size cnk → cnk * chunkSize ≤ s.appendPos) :
    s.Appends i (s.setAppender i pc) := by
  refine ⟨rfl, rfl, Nat.le_refl _, fun j hj => ⟨setAppender_ne hj _, rfl⟩, ?_, ?_, ?_, ?_⟩
  · intro r hr
    rw [setAppender_self] at hr
    exact .inl ⟨hunwritten r hr, rfl⟩
  · rw [setAppender_self, hforward]
    simp
  · rw [setAppender_self]
    exact hview
  · exact fun r hr => .inl hr

theorem self_appends {i : Fin n} (hview : ∀ size cnk, s.appender i ≠ .setView size cnk) :
    s.Appends i s :=
  ⟨rfl, rfl, Nat.le_refl _, fun _ _ => ⟨rfl, rfl⟩, fun _ hr => .inl ⟨hr, rfl⟩,
    fun hf => .inl ⟨hf, rfl⟩, fun size cnk hi => absurd hi (hview size cnk), fun _ hr => .inl hr⟩

theorem append_appends (i : Fin n) : s.Appends i (s.append i) := by
  cases hi : s.appender i with
  | idle =>
    simp only [append, hi]
    exact self_appends (by simp [hi])
  | readPos size =>
    simp only [append, hi]
    refine setAppender_appends (by simp [Appender.unwritten]) rfl ?_
    intro size' cnk heq
    cases heq
    exact Nat.div_mul_le_self _ _
  | setView size cnk =>
    simp only [append, hi]
    refine ⟨rfl, rfl, Nat.le_refl _, fun j hj => ⟨setAppender_ne hj _, ?_⟩, ?_, ?_, ?_, ?_⟩
    · exact Function.update_of_ne (fun heq => hj (Fin.ext heq)) ..
    · simp [Appender.unwritten]
    · exact fun _ => .inr ⟨size, cnk, hi, Function.update_self ..⟩
    · simp
    · exact fun r hr => .inl hr
  | forward pc =>
    cases pc with
    | done pos size =>
      simp only [append, hi]
      exact self_appends (by simp [hi])
    | _ =>
      simp only [append, hi]
      exact goForward_appends hi (by simp)
  | locate pos size =>
    simp only [append, hi]
    exact setAppender_appends (by simp [Appender.unwritten, hi]) rfl (by simp)
  | minFirst pos size =>
    simp only [append, hi]
    exact setAppender_appends (by simp [Appender.unwritten, hi]) rfl (by simp)
  | minScan pos size j val =>
    simp only [append, hi]
    split
    · exact setAppender_appends (by simp [Appender.unwritten, hi]) rfl (by simp)
    · split
      · exact setAppender_appends (by simp [Appender.unwritten, hi]) rfl (by simp)
      · exact setAppender_appends (by simp [Appender.unwritten]) rfl (by simp)
  | write pos size =>
    simp only [append, hi]
    exact setAppender_appends (by simp [Appender.unwritten]) rfl (by simp)
  | reset =>
    simp only [append, hi]
    refine ⟨rfl, rfl, Nat.le_refl _, fun j hj => ⟨setAppender_ne hj _, ?_⟩, ?_, ?_, ?_, ?_⟩
    · exact Function.update_of_ne (fun heq => hj (Fin.ext heq)) ..
    · simp [Appender.unwritten]
    · simp [Appender.isForward]
    · simp
    · exact fun r hr => .inl hr
  | failed =>
    simp only [append, hi]
    exact self_appends (by simp [hi])

theorem Appends.knows {i : Fin n} (h : s.Appends i t) (hs : s.Knows s.flusher) :
    t.Knows t.flusher := by
  have hmono := h.appendPos
  -- a range that is new lies behind everything compared with `append_pos` before
  have hapart : s.writePos + flushUnit ≤ s.appendPos → ∀ j : Fin n,
      (∀ r, (s.appender j).unwritten = some r → Apart s.writePos r) →
      ∀ r, (t.appender j).unwritten = some r → Apart s.writePos r := by
    intro hpos j hj r hr
    by_cases hji : j = i
    · subst hji
      rcases h.unwritten r hr with ⟨hr, -⟩ | ⟨-, -, hle⟩
      · exact hj r hr
      · exact .inr (Nat.le_trans hpos hle)
    · rw [(h.other j hji).1] at hr
      exact hj r hr
  rw [h.flusher]
  cases hf : s.flusher with
  | idle => trivial
  | compare old =>
    rw [hf] at hs
    exact hs
  | write old =>
    rw [hf] at hs
    exact hs
  | find old =>
    rw [hf] at hs
    exact ⟨hs.1, by rw [h.writePos]; exact Nat.le_trans hs.2 hmono⟩
  | minFirst old =>
    rw [hf] at hs
    exact ⟨hs.1, by rw [h.writePos]; exact Nat.le_trans hs.2 hmono⟩
  | minScan old j val =>
    rw [hf] at hs
    obtain ⟨hold, hpos, hscan⟩ := hs
    refine ⟨hold, by rw [h.writePos]; exact Nat.le_trans hpos hmono, ?_⟩
    intro i' hi'
    rw [h.writePos]
    rcases hscan i' hi' with hval | hr
    · exact .inl hval
    · exact .inr (hapart hpos i' hr)
  | take old =>
    rw [hf] at hs
    obtain ⟨hold, hpos, hall⟩ := hs
    refine ⟨hold, by rw [h.writePos]; exact Nat.le_trans hpos hmono, ?_⟩
    intro i' r hr
    rw [h.writePos]
    exact hapart hpos i' (hall i') r hr

theorem Appends.viewed {i : Fin n} (h : s.Appends i t) (hs : s.Viewed) : t.Viewed := by
  refine ⟨by rw [h.writePos]; exact hs.aligned, ?_, ?_, ?_, h.knows hs.knows⟩
  · intro j size cnk hj
    by_cases hji : j = i
    · subst hji
      exact Nat.le_trans (h.setView size cnk hj) h.appendPos
    · rw [(h.other j hji).1] at hj
      exact Nat.le_trans (hs.setView_le j size cnk hj) h.appendPos
  · intro j hj
    by_cases hji : j = i
    · subst hji
      rcases h.forward hj with ⟨hf, hview⟩ | ⟨size, cnk, hset, hview⟩
      · rw [hview]
        exact Nat.le_trans (hs.forward_le j hf) h.appendPos
      · rw [hview]
        exact Nat.le_trans (hs.setView_le j size cnk hset) h.appendPos
    · rw [(h.other j hji).1] at hj
      rw [(h.other j hji).2]
      exact Nat.le_trans (hs.forward_le j hj) h.appendPos
  · intro j r hj
    by_cases hji : j = i
    · subst hji
      rcases h.unwritten r hj with ⟨hr, hview⟩ | ⟨hf, hview, hle⟩
      · rw [hview]
        exact hs.unwritten_le j r hr
      · rw [hview]
        exact Nat.le_trans (hs.forward_le j hf) hle
    · rw [(h.other j hji).1] at hj
      rw [(h.other j hji).2]
      exact hs.unwritten_le j r hj

/-- A cell that is read as larger than the chunk of the unit belongs to a thread without an
unwritten range there. -/
theorem Viewed.scanned (h : s.Viewed) {i : Fin n} (hview : s.writePos / chunkSize < s.view i) :
    ∀ r, (s.appender i).unwritten = some r → Apart s.writePos r := by
  intro r hr
  have hle := h.unwritten_le i r hr
  have haligned := h.aligned
  refine .inr ?_
  -- the unit ends inside its chunk, and the range begins in a later one
  have hmul : (s.writePos / chunkSize + 1) * chunkSize ≤ s.view i * chunkSize :=
    Nat.mul_le_mul_right _ hview
  unfold chunkSize flushUnit at *
  omega

theorem flush_knows (h : s.Viewed) (ok : Bool) : (s.flush ok).Knows (s.flush ok).flusher := by
  have hknows := h.knows
  cases hf : s.flusher with
  | idle =>
    simp only [flush, hf]
    exact h.aligned
  | compare old =>
    rw [hf] at hknows
    simp only [flush, hf]
    split
    · exact hknows
    · rename_i hpos
      exact ⟨hknows, Nat.le_of_not_lt hpos⟩
  | find old =>
    rw [hf] at hknows
    simp only [flush, hf]
    split
    · exact hknows
    · exact hknows.1
  | minFirst old =>
    rw [hf] at hknows
    simp only [flush, hf]
    exact ⟨hknows.1, hknows.2, fun i hi => absurd hi (Nat.not_lt_zero _)⟩
  | minScan old j val =>
    rw [hf] at hknows
    obtain ⟨hold, hpos, hscan⟩ := hknows
    simp only [flush, hf]
    split
    · refine ⟨hold, hpos, ?_⟩
      intro i hi
      show (if s.view j < val then s.view j else val) ≤ s.writePos / chunkSize ∨ _
      by_cases hval : (if s.view j < val then s.view j else val) ≤ s.writePos / chunkSize
      · exact .inl hval
      · have hlt : s.writePos / chunkSize < val ∧ s.writePos / chunkSize < s.view j := by
          split at hval <;> omega
        refine .inr ?_
        rcases Nat.lt_or_eq_of_le (Nat.le_of_lt_succ hi) with hij | hij
        · exact (hscan i hij).resolve_left (Nat.not_le.mpr hlt.1)
        · exact h.scanned (hij ▸ hlt.2)
    · rename_i hj
      split
      · exact hold
      · rename_i hval
        refine ⟨hold, hpos, fun i => ?_⟩
        exact (hscan i (Nat.lt_of_lt_of_le i.isLt (Nat.le_of_not_lt hj))).resolve_left hval
  | take old =>
    rw [hf] at hknows
    simp only [flush, hf]
    split <;> exact hknows.1
  | write old =>
    simp only [flush, hf]
    trivial

theorem flush_viewed (h : s.Viewed) (ok : Bool) : (s.flush ok).Viewed := by
  have hsame : (s.flush ok).appender = s.appender ∧ (s.flush ok).view = s.view ∧
      (s.flush ok).appendPos = s.appendPos := by
    unfold flush
    split <;> (try split) <;> exact ⟨rfl, rfl, rfl⟩
  have haligned : (s.flush ok).writePos % flushUnit = 0 := by
    have hs := h.aligned
    have hknows := h.knows
    cases hf : s.flusher with
    | take old =>
      simp only [flush, hf]
      unfold flushUnit at *
      omega
    | write old =>
      rw [hf] at hknows
      simp only [flush, hf]
      split
      · exact hs
      · exact hknows
    | minScan old j val =>
      simp only [flush, hf]
      split <;> exact hs
    | _ =>
      simp only [flush, hf]
      exact hs
  refine ⟨haligned, ?_, ?_, ?_, flush_knows h ok⟩
  · rw [hsame.1, hsame.2.2]
    exact h.setView_le
  · rw [hsame.1, hsame.2.1, hsame.2.2]
    exact h.forward_le
  · rw [hsame.1, hsame.2.1]
    exact h.unwritten_le

theorem viewed_step {a : Label n} (hstep : Step s a t) (h : s.Viewed) : t.Viewed := by
  cases a with
  | call i size =>
    rw [Step, act] at hstep
    split at hstep
    · rename_i hcall
      cases hstep
      refine (setAppender_appends (s := s) (i := i) ?_ rfl ?_).viewed h
      · simp [Appender.unwritten]
      · simp
    · cases hstep
  | append i =>
    cases hstep
    exact (append_appends i).viewed h
  | flush ok =>
    cases hstep
    exact flush_viewed h ok

/-- Ranges that are reserved later begin behind the position. -/
theorem ranges_step {a : Label n} (hstep : Step s a t) :
    s.appendPos ≤ t.appendPos ∧ ∀ r ∈ t.ranges, r ∈ s.ranges ∨ s.appendPos ≤ r.1 := by
  cases a with
  | call i size =>
    rw [Step, act] at hstep
    split at hstep
    · cases hstep
      exact ⟨Nat.le_refl _, fun r hr => .inl hr⟩
    · cases hstep
  | append i =>
    cases hstep
    exact ⟨(append_appends i).appendPos, (append_appends i).ranges⟩
  | flush ok =>
    cases hstep
    have hsame : (s.flush ok).appendPos = s.appendPos ∧ (s.flush ok).ranges = s.ranges := by
      unfold flush
      split <;> (try split) <;> exact ⟨rfl, rfl⟩
    rw [hsame.1, hsame.2]
    exact ⟨Nat.le_refl _, fun r hr => .inl hr⟩

theorem ranges_run {xs : List (Label n)} (hrun : Run Step s xs t) :
    s.appendPos ≤ t.appendPos ∧ ∀ r ∈ t.ranges, r ∈ s.ranges ∨ s.appendPos ≤ r.1 := by
  induction hrun with
  | refl => exact ⟨Nat.le_refl _, fun r hr => .inl hr⟩
  | stepL hstep _ ih =>
    obtain ⟨hle, hnew⟩ := ranges_step hstep
    refine ⟨Nat.le_trans hle ih.1, fun r hr => ?_⟩
    rcases ih.2 r hr with hr | hr
    · exact hnew r hr
    · exact .inr (Nat.le_trans hle hr)

/-- When the flusher takes the unit at `write_pos`, no reserved range there is unwritten, and no
range there will be reserved later. -/
theorem flushed_unit_is_written {cnk old : ℕ} {xs : List (Label n)}
    (hrun : Run Step (init cnk) xs s) (htake : s.flusher = .take old) :
    (∀ i r, (s.appender i).unwritten = some r → Apart s.writePos r) ∧
      ∀ ys t, Run Step s ys t → ∀ r ∈ t.ranges, r ∈ s.ranges ∨ Apart s.writePos r := by
  have h : s.Viewed := hrun.invariant (fun _ _ _ => viewed_step) (viewed_init cnk)
  have hknows := h.knows
  rw [htake] at hknows
  obtain ⟨-, hpos, hall⟩ := hknows
  refine ⟨hall, fun ys t hrun' r hr => ?_⟩
  rcases (ranges_run hrun').2 r hr with hr | hr
  · exact .inl hr
  · exact .inr (.inr (Nat.le_trans hpos hr))

/-- Thread 0 appends a record of one unit, and the flusher takes the unit. -/
def unitSchedule : List (Label 2) :=
  [.call 0 flushUnit] ++ List.replicate 11 (.append 0) ++ List.replicate 7 (.flush true)

theorem unitSchedule_written : ∃ s, Run Step (init 1) unitSchedule s ∧
    s.flusher = .take chunkSize ∧ s.ranges = [(chunkSize, flushUnit)] ∧
    ∀ i r, (s.appender i).unwritten = some r → Apart s.writePos r := by
  obtain ⟨s, hrun, hend⟩ := exists_run_acts act (fun _ _ => true) (init 1) unitSchedule
    (fun s => (s.flusher, s.ranges))
    (show _ = some (unitSchedule, .take chunkSize, [(chunkSize, flushUnit)]) by decide +kernel)
  obtain ⟨htake, hranges⟩ := Prod.mk.inj hend
  have hrun' : Run Step (init 1) unitSchedule s := hrun.mono fun _ _ _ h => h.1
  exact ⟨s, hrun', htake, hranges, (flushed_unit_is_written hrun' htake).1⟩

end Store
end YwStorage.Log
