import YwStorage.OrderedNode.Writes
import YwStorage.SeqLock.Snapshot

/-!
`search_body`, which reads the page without the lock while other threads write it.

The reading program asks for `count`, for slots and for the bytes of records one by one; the values
it gets may come from different moments.
-/
namespace YwStorage.OrderedNode.Page
open Bytes Lts SeqLock

universe u v
variable {κ : Type u} {α : Type v} [LinearOrder α] (c : Config) (d : Codec κ) (key : κ → α)

/-- Reads the record at `offset`, from its byte `i` on. -/
def readRecord (offset : ℕ) : ℕ → Decoder κ → Reader Page κ
  | _, .done v => .done v
  | i, .next k =>
    .ask (fun p => (p.bytes (offset + i)).toNat) fun b => readRecord offset (i + 1) (k (.ofNat b))

def readGet (idx : ℕ) : Reader Page κ :=
  .ask (fun p => p.slot c idx) fun offset => readRecord offset 0 d.decode

/-- The loop of `binary_search`. -/
def readSearchLoop (value : κ) : ℕ → ℤ → ℤ → Reader Page ℤ
  | 0, min, max => .done ((min + max) / 2)
  | fuel + 1, min, max =>
    if min ≤ max then
      let mid := (min + max) / 2
      (readGet c d mid.toNat).bind fun x =>
        if key value < key x then readSearchLoop value fuel min (mid - 1)
        else readSearchLoop value fuel (mid + 1) max
    else .done ((min + max) / 2)

def readSearch (value : κ) : Reader Page ℤ :=
  .ask Page.count fun count => readSearchLoop c d key value (count + 1) 0 (count - 1)

/-- `search_body` between `read_begin` and `read_end`. -/
def searchBody (value : κ) : Reader Page κ :=
  (readSearch c d key value).bind fun idx => readGet c d (if idx < 0 then 0 else idx).toNat

/-- The stores of a call under the lock; a sort may need any number of turns. -/
def Plans (p : Page) (op : Op κ) (ws : List Write) : Prop :=
  ∃ fuel buf, p.callWrites c d key fuel buf op = some ws

/-- One memory access of the threads that share a page. -/
def Access {ι : Type*} [DecidableEq ι] : State ι Page Write (Op κ) κ →
    Label ι Page (Op κ) κ → State ι Page Write (Op κ) κ → Prop :=
  SeqLock.Step (Page.apply c) (Plans c d key)

variable {c d key}

theorem eval_readRecord (p : Page) (offset i : ℕ) (k : Decoder κ) :
    (readRecord offset i k).eval p = k.run (fun j => p.bytes (offset + j)) i := by
  induction k generalizing i with
  | done v => rfl
  | next k ih =>
    rw [readRecord, Reader.eval_ask, ih, UInt8.ofNat_toNat, Decoder.run]

theorem eval_readGet (p : Page) (idx : ℕ) : (readGet c d idx).eval p = p.get c d idx :=
  eval_readRecord p (p.slot c idx) 0 d.decode

theorem eval_readSearchLoop (p : Page) (v : κ) (fuel : ℕ) (min max : ℤ) :
    (readSearchLoop c d key v fuel min max).eval p =
      searchLoop (fun mid => key v < key (p.get c d mid)) fuel min max := by
  induction fuel generalizing min max with
  | zero => rfl
  | succ fuel ih =>
    rw [readSearchLoop, searchLoop]
    by_cases hmin : min ≤ max
    · rw [if_pos hmin, if_pos hmin, Reader.eval_bind, eval_readGet]
      by_cases hless : key v < key (p.get c d ((min + max) / 2).toNat)
      · simp only [if_pos hless, decide_eq_true hless, if_true, ih]
      · simp only [if_neg hless, decide_eq_false hless, Bool.false_eq_true, if_false, ih]
    · rw [if_neg hmin, if_neg hmin]
      rfl

theorem eval_searchBody (p : Page) (v : κ) :
    (searchBody c d key v).eval p = p.get c d (max 0 (p.binarySearch c d key v)).toNat := by
  have hsearch : (readSearch c d key v).eval p = p.binarySearch c d key v :=
    eval_readSearchLoop p v _ _ _
  rw [searchBody, Reader.eval_bind, hsearch, eval_readGet]
  congr 2
  by_cases hneg : p.binarySearch c d key v < 0
  · rw [if_pos hneg, max_eq_left (by omega)]
  · rw [if_neg hneg, max_eq_right (by omega)]

section Snapshot
variable {ι : Type*} [DecidableEq ι] {s₀ s t u w : State ι Page Write (Op κ) κ}
  {xs₀ xs : List (Label ι Page (Op κ) κ)} {v ret : κ}

/-- If `search_body` returns true, its result is that of a search in the page at one moment of the
read, when no writer held the lock. -/
theorem searchBody_snapshot (hinit : Initial s₀) (hbefore : Run (Access c d key) s₀ xs₀ s)
    (hbegin : Access c d key s (.readBegin (searchBody c d key v)) t)
    (hrun : Run (Access c d key) t xs u) (hcount : xs.countP Label.isAcquire < 2 ^ 31)
    (hend : Access c d key u .readEnd w) (hret : w.reader = .ended ret true) :
    ∃ ys zs m, xs = ys ++ zs ∧ Run (Access c d key) t ys m ∧ Run (Access c d key) m zs u ∧
      (∀ i, ¬ (m.writer i).Holds) ∧
      ret = m.data.get c d (max 0 (m.data.binarySearch c d key v)).toNat := by
  have hex : Exclusive s := exclusive_run hbefore (exclusive_initial hinit)
  obtain ⟨hfree, heval⟩ := read_snapshot hex hbegin hrun hcount hend hret
  rw [eval_searchBody] at heval
  exact ⟨[], xs, t, rfl, .refl t, hrun, hfree, heval⟩

end Snapshot

/-- One writer and one reader of the page with the entries 3 and 5. -/
def sharedPair : State Unit Page Write (Op UInt8) UInt8 := ⟨pairPage, 0, fun _ => .init, .init⟩

theorem sharedPair_snapshot : ∃ t xs u w,
    Access byteConfig byteCodec UInt8.toNat sharedPair
      (.readBegin (searchBody byteConfig byteCodec UInt8.toNat 4)) t ∧
    Run (Access byteConfig byteCodec UInt8.toNat) t xs u ∧
    Access byteConfig byteCodec UInt8.toNat u .readEnd w ∧ w.reader = .ended 3 true ∧
    ∃ ys zs m, xs = ys ++ zs ∧ Run (Access byteConfig byteCodec UInt8.toNat) t ys m ∧
      Run (Access byteConfig byteCodec UInt8.toNat) m zs u ∧ (∀ i, ¬ (m.writer i).Holds) ∧
      3 = m.data.get byteConfig byteCodec
        (max 0 (m.data.binarySearch byteConfig byteCodec UInt8.toNat 4)).toNat := by
  obtain ⟨xs, hrun, hcount⟩ := exists_read (Page.apply byteConfig)
    (Plans byteConfig byteCodec UInt8.toNat) sharedPair 0
    (searchBody byteConfig byteCodec UInt8.toNat 4)
  have heval : (searchBody byteConfig byteCodec UInt8.toNat 4).eval sharedPair.data = 3 := by
    decide +kernel
  rw [heval] at hrun
  have hbegin : Access byteConfig byteCodec UInt8.toNat sharedPair
      (.readBegin (searchBody byteConfig byteCodec UInt8.toNat 4)) _ := .readBegin _ rfl
  have hend : Access byteConfig byteCodec UInt8.toNat
      { sharedPair with reader := .read 0 (.done 3) } .readEnd _ := .readEnd rfl
  have hinit : Initial sharedPair := ⟨rfl, by decide, fun _ => rfl, rfl⟩
  exact ⟨_, xs, _, _, hbegin, hrun, hend, rfl,
    searchBody_snapshot hinit (.refl _) hbegin hrun (by omega) hend rfl⟩

end YwStorage.OrderedNode.Page
