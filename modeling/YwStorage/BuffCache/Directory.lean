import YwStorage.BuffCache.Table
import YwStorage.Lib.Run

/-!
The buffer cache as a directory of contents.

`ht_regist` and `_ht_find` probe different slots. The directory is kept as long as every
registration takes one of the slots that `_ht_find` looks at, and these slots lie inside the table
whenever all of them are looked at.
-/
namespace YwStorage.BuffCache
open Lts

inductive Op (Con : Type)
  | alloc
  | regist (bcid : ℕ) (conId : Con)
  | find (conId : Con)
  | victim (conId : Con)
  deriving DecidableEq

inductive Reply
  | id (bcid : Option ℕ)
  | flag (ok : Bool)
  deriving DecidableEq

/-- The cache with which a content is registered. -/
abbrev Directory (Con : Type) := Con → Option ℕ

variable {Con : Type} [DecidableEq Con] {c : Config Con}

/-- Only contents that are not registered are registered. -/
def Directory.Allows (dir : Directory Con) : Op Con → Prop
  | .regist _ conId => dir conId = none
  | _ => True

/-- The directory after a call and its reply. -/
def Directory.next (dir : Directory Con) : Op Con → Reply → Directory Con
  | .regist bcid conId, .flag true => Function.update dir conId (some bcid)
  | .victim conId, .flag true => Function.update dir conId none
  | _, _ => dir

/-- The answers of a directory; whether a registration succeeds is left open. -/
def Directory.Answers (dir : Directory Con) : Op Con → Reply → Prop
  | .alloc, r => ∃ bcid, r = .id (some bcid)
  | .regist _ _, r => ∃ ok, r = .flag ok
  | .find conId, r => r = .id (dir conId)
  | .victim conId, r => r = .flag (dir conId).isSome

namespace Cache

def call (c : Config Con) (s : Cache Con) : Op Con → Except Fault (Reply × Cache Con)
  | .alloc => (s.allocCache c).map fun r => (.id (some r.1), r.2)
  | .regist bcid conId => (s.htRegist c bcid conId).map fun r => (.flag r.1, r.2)
  | .find conId => (s.findCache c conId).map fun r => (.id r, s)
  | .victim conId => (s.setVictim c conId).map fun r => (.flag r.1, r.2)

end Cache

/-- A call that returns, with the directory of the calls so far. -/
def Step (c : Config Con) (s : Cache Con × Directory Con) (x : Op Con × Reply)
    (t : Cache Con × Directory Con) : Prop :=
  s.2.Allows x.1 ∧ s.1.call c x.1 = .ok (x.2, t.1) ∧ t.2 = s.2.next x.1 x.2

/-- The slots that `_ht_find` looks at. -/
def InWindow (c : Config Con) (conId : Con) (idx : ℕ) : Prop :=
  Cache.getHt c conId ≤ idx ∧ idx < Cache.getHt c conId + collisionRetryCount

/-- A registration takes a slot of the window, if any. -/
def PlacesInWindow (c : Config Con) (s : Cache Con) (conId : Con) : Prop :=
  match s.place c conId with
  | .ok (some idx) => InWindow c conId idx
  | _ => True

/-- A registration names a cache without content and takes a slot of the window; a search is for a
registered content or has its window inside the table. -/
def Searchable (c : Config Con) (s : Cache Con × Directory Con) : Op Con → Prop
  | .alloc => True
  | .regist bcid conId => (∀ conId', s.2 conId' ≠ some bcid) ∧ PlacesInWindow c s.1 conId
  | .find conId | .victim conId => s.2 conId ≠ none ∨
      Cache.getHt c conId + collisionRetryCount ≤ Cache.htLen c

/-- When a call is sure to return: an allocation needs a free cache, a registration an allocated
one. -/
def Ready (c : Config Con) (s : Cache Con) : Op Con → Prop
  | .alloc => s.hwm < c.count ∨ ∃ bcid, bcid < c.count ∧ (s.info bcid).status = .unused
  | .regist bcid _ => bcid < c.count ∧ (s.info bcid).status = .init
  | .find _ | .victim _ => True

/-- The table holds the registered caches, each once and in the window of its content. -/
structure Filed (c : Config Con) (s : Cache Con) (dir : Directory Con) : Prop where
  slot : ∀ idx b, idx < Cache.htLen c → s.ht idx = some b → dir (s.info b).conId = some b
  filed : ∀ conId b, dir conId = some b → (s.info b).conId = conId ∧ (s.info b).status = .init ∧
    ∃ idx, idx < Cache.htLen c ∧ InWindow c conId idx ∧ s.ht idx = some b
  once : ∀ i j b, i < Cache.htLen c → j < Cache.htLen c → s.ht i = some b → s.ht j = some b → i = j

omit [DecidableEq Con] in
theorem filed_init (c : Config Con) (s : Cache Con) : Filed c (s.init c) fun _ => none := by
  have hempty : ∀ idx, idx < Cache.htLen c → (s.init c).ht idx = none := by
    intro idx hidx
    by_cases hc : c.count = 0
    · rw [Cache.htLen, if_pos hc] at hidx
      omega
    · rw [Cache.init, if_neg hc]
  refine ⟨?_, ?_, ?_⟩
  · intro idx b hidx hb
    rw [hempty idx hidx] at hb
    cases hb
  · intro conId b hb
    cases hb
  · intro i j b hi _ hb
    rw [hempty i hi] at hb
    cases hb

namespace Filed
variable {s t : Cache Con} {dir : Directory Con} {conId : Con} {b : ℕ}

theorem htFind_registered (h : Filed c s dir) (hreg : dir conId = some b) :
    ∃ idx, idx < Cache.htLen c ∧ s.ht idx = some b ∧ s.htFind c conId = .ok (some idx) := by
  obtain ⟨hcon, -, idx, hlen, hwin, hb⟩ := h.filed conId b hreg
  refine ⟨idx, hlen, hb, Cache.htFindLoop_found hwin.1 hwin.2 hlen hb hcon ?_⟩
  intro k b' _ hk hb' hcon'
  have hreg' := h.slot k b' (by omega) hb'
  rw [hcon', hreg] at hreg'
  obtain rfl := Option.some.inj hreg'
  have := h.once k idx b (by omega) hlen hb' hb
  omega

theorem htFind_absent (h : Filed c s dir) (hreg : dir conId = none)
    (hlen : Cache.getHt c conId + collisionRetryCount ≤ Cache.htLen c) :
    s.htFind c conId = .ok none := by
  refine Cache.htFindLoop_absent hlen fun k b hk hb hcon => ?_
  have hreg' := h.slot k b hk hb
  rw [hcon, hreg] at hreg'
  cases hreg'

theorem findCache_eq (h : Filed c s dir)
    (hgood : dir conId ≠ none ∨ Cache.getHt c conId + collisionRetryCount ≤ Cache.htLen c) :
    s.findCache c conId = .ok (dir conId) := by
  cases hreg : dir conId with
  | none =>
    have hfind := h.htFind_absent hreg (hgood.resolve_left fun hne => hne hreg)
    simp [Cache.findCache, hfind]
  | some b =>
    obtain ⟨idx, hlen, hb, hfind⟩ := h.htFind_registered hreg
    have hcon := (h.filed conId b hreg).1
    simp [Cache.findCache, hfind, Cache.readHt_of_lt hlen, hb, hcon]

/-- Taking a registered content out of the table. -/
theorem setVictim_registered (h : Filed c s dir) (hreg : dir conId = some b) :
    ∃ t, s.setVictim c conId = .ok (true, t) ∧ Filed c t (Function.update dir conId none) := by
  obtain ⟨idx, hlen, hb, hfind⟩ := h.htFind_registered hreg
  obtain ⟨hcon, hstatus, -⟩ := h.filed conId b hreg
  refine ⟨{ s.setStatus b .unused with ht := Function.update s.ht idx none }, ?_, ?_⟩
  · simp [Cache.setVictim, hfind, Cache.readHt_of_lt hlen, hb, hcon, hstatus, Cache.setStatus]
  · have hkeep : ∀ i b', i < Cache.htLen c → Function.update s.ht idx none i = some b' →
        s.ht i = some b' ∧ b' ≠ b := by
      intro i b' hi hb'
      by_cases hidx : i = idx
      · rw [hidx, Function.update_self] at hb'
        cases hb'
      · rw [Function.update_of_ne hidx] at hb'
        refine ⟨hb', ?_⟩
        rintro rfl
        exact hidx (h.once i idx b' hi hlen hb' hb)
    refine ⟨?_, ?_, ?_⟩
    · intro i b' hi hb'
      obtain ⟨hb', hne⟩ := hkeep i b' hi hb'
      have hdir := h.slot i b' hi hb'
      have hother : (s.info b').conId ≠ conId := by
        intro heq
        rw [heq, hreg] at hdir
        exact hne (Option.some.inj hdir).symm
      simp only [Cache.setStatus, Function.update_of_ne hne, Function.update_of_ne hother, hdir]
    · intro conId' b' hreg'
      have hother : conId' ≠ conId := by
        rintro rfl
        rw [Function.update_self] at hreg'
        cases hreg'
      rw [Function.update_of_ne hother] at hreg'
      obtain ⟨hcon', hstatus', i, hi, hwin, hb'⟩ := h.filed conId' b' hreg'
      have hne : b' ≠ b := by
        rintro rfl
        exact hother (hcon'.symm.trans hcon)
      have hidx : i ≠ idx := by
        rintro rfl
        rw [hb] at hb'
        exact hne (Option.some.inj hb').symm
      simp only [Cache.setStatus, Function.update_of_ne hne]
      exact ⟨hcon', hstatus', i, hi, hwin, by rw [Function.update_of_ne hidx, hb']⟩
    · intro i j b' hi hj hbi hbj
      exact h.once i j b' hi hj (hkeep i b' hi hbi).1 (hkeep j b' hj hbj).1

theorem setVictim_absent (h : Filed c s dir) (hreg : dir conId = none)
    (hlen : Cache.getHt c conId + collisionRetryCount ≤ Cache.htLen c) :
    s.setVictim c conId = .ok (false, s) := by
  have hfind := h.htFind_absent hreg hlen
  simp [Cache.setVictim, hfind]

/-- A cache that is not registered may change its content. -/
theorem setConId (h : Filed c s dir) (hb : ∀ conId', dir conId' ≠ some b) (conId : Con) :
    Filed c (s.setConId b conId) dir := by
  refine ⟨?_, ?_, h.once⟩
  · intro i b' hi hb'
    have hdir := h.slot i b' hi hb'
    have hne : b' ≠ b := by
      rintro rfl
      exact hb _ hdir
    simpa only [Cache.setConId, Function.update_of_ne hne] using hdir
  · intro conId' b' hreg
    have hne : b' ≠ b := by
      rintro rfl
      exact hb _ hreg
    simpa only [Cache.setConId, Function.update_of_ne hne] using h.filed conId' b' hreg

/-- Filing a cache in an empty slot of the window. -/
theorem file {idx : ℕ} (h : Filed c s dir) (hb : ∀ conId', dir conId' ≠ some b)
    (hstatus : (s.info b).status = .init) (hreg : dir (s.info b).conId = none)
    (hlen : idx < Cache.htLen c) (hfree : s.ht idx = none)
    (hwin : InWindow c (s.info b).conId idx) :
    Filed c { s with ht := Function.update s.ht idx (some b) }
      (Function.update dir (s.info b).conId (some b)) := by
  have hold : ∀ i b', i < Cache.htLen c → Function.update s.ht idx (some b) i = some b' →
      (i = idx ∧ b' = b) ∨ (s.ht i = some b' ∧ b' ≠ b) := by
    intro i b' hi hb'
    by_cases hidx : i = idx
    · rw [hidx, Function.update_self] at hb'
      exact .inl ⟨hidx, (Option.some.inj hb').symm⟩
    · rw [Function.update_of_ne hidx] at hb'
      refine .inr ⟨hb', ?_⟩
      rintro rfl
      exact hb _ (h.slot i b' hi hb')
  refine ⟨?_, ?_, ?_⟩
  · intro i b' hi hb'
    rcases hold i b' hi hb' with ⟨-, rfl⟩ | ⟨hb', -⟩
    · exact Function.update_self ..
    · have hdir := h.slot i b' hi hb'
      have hother : (s.info b').conId ≠ (s.info b).conId := by
        intro heq
        rw [heq, hreg] at hdir
        cases hdir
      simpa only [Function.update_of_ne hother] using hdir
  · intro conId' b' hreg'
    by_cases hcon : conId' = (s.info b).conId
    · subst hcon
      rw [Function.update_self] at hreg'
      obtain rfl := Option.some.inj hreg'
      exact ⟨rfl, hstatus, idx, hlen, hwin, Function.update_self ..⟩
    · rw [Function.update_of_ne hcon] at hreg'
      obtain ⟨hcon', hstatus', i, hi, hwin', hb'⟩ := h.filed conId' b' hreg'
      have hidx : i ≠ idx := by
        rintro rfl
        rw [hfree] at hb'
        cases hb'
      exact ⟨hcon', hstatus', i, hi, hwin', (Function.update_of_ne hidx ..).trans hb'⟩
  · intro i j b' hi hj hbi hbj
    rcases hold i b' hi hbi with ⟨rfl, rfl⟩ | ⟨hbi, hne⟩
    · rcases hold j b' hj hbj with ⟨rfl, -⟩ | ⟨-, hne⟩
      · rfl
      · exact absurd rfl hne
    · rcases hold j b' hj hbj with ⟨-, rfl⟩ | ⟨hbj, -⟩
      · exact absurd rfl hne
      · exact h.once i j b' hi hj hbi hbj

omit [DecidableEq Con] in
theorem allocated (h : Filed c s dir) (bcid hwm : ℕ) :
    Filed c ({ s with hwm }.setStatus bcid .init) dir := by
  have hcon : ∀ b, (({ s with hwm }.setStatus bcid .init).info b).conId = (s.info b).conId := by
    intro b
    by_cases hb : b = bcid
    · subst hb
      simp [Cache.setStatus]
    · simp [Cache.setStatus, Function.update_of_ne hb]
  refine ⟨?_, ?_, h.once⟩
  · intro i b hi hb
    rw [hcon]
    exact h.slot i b hi hb
  · intro conId b hreg
    obtain ⟨hcon', hstatus, hslot⟩ := h.filed conId b hreg
    refine ⟨(hcon b).trans hcon', ?_, hslot⟩
    by_cases hb : b = bcid
    · subst hb
      simp [Cache.setStatus]
    · simpa [Cache.setStatus, Function.update_of_ne hb] using hstatus

/-- A registration that returns keeps the table; it fails only on a cache that is not allocated. -/
theorem htRegist_spec (h : Filed c s dir) (hb : ∀ conId', dir conId' ≠ some b)
    (hreg : dir conId = none) (hwin : PlacesInWindow c s conId) :
    (∃ ok t, s.htRegist c b conId = .ok (ok, t) ∧
      Filed c t (dir.next (.regist b conId) (.flag ok))) ∨
    (¬ (b < c.count ∧ (s.info b).status = .init) ∧
      ∃ e, s.htRegist c b conId = .error e ∧ e ≠ .table) := by
  by_cases hcount : b < c.count
  · cases hstatus : (s.info b).status with
    | unused =>
      refine .inr ⟨by simp, .assertion, ?_, by decide⟩
      simp [Cache.htRegist, Nat.not_le.mpr hcount, Cache.setConId, hstatus]
    | init =>
      have hc : c.count ≠ 0 := by omega
      obtain ⟨r, hplace, hr⟩ := Cache.placeLoop_spec (s := s) hc hashtableRetryCount
        (Cache.getHt_lt hc conId)
      have hfiled := h.setConId hb conId
      have hcon : ((s.setConId b conId).info b).conId = conId := by simp [Cache.setConId]
      have hinit : ((s.setConId b conId).info b).status = .init := by simp [Cache.setConId, hstatus]
      have hplace' : s.place c conId = .ok r := hplace
      have hrun : s.htRegist c b conId = .ok (r.elim (false, s.setConId b conId) fun idx =>
          (true, { s.setConId b conId with ht := Function.update s.ht idx (some b) })) := by
        cases r <;> simp [Cache.htRegist, Nat.not_le.mpr hcount, hinit, hplace'] <;> rfl
      rw [PlacesInWindow, hplace'] at hwin
      rw [hrun]
      cases r with
      | none => exact .inl ⟨false, _, rfl, hfiled⟩
      | some idx =>
        refine .inl ⟨true, _, rfl, ?_⟩
        obtain ⟨hlen, hfree⟩ := hr idx rfl
        have hfile := hfiled.file hb hinit (by rwa [hcon]) hlen hfree
          (by rwa [hcon])
        rwa [hcon] at hfile
  · refine .inr ⟨by omega, .info, ?_, by decide⟩
    simp [Cache.htRegist, Nat.not_lt.mp hcount]

theorem allocCache_spec (h : Filed c s dir) :
    (∃ b t, s.allocCache c = .ok (b, t) ∧ Filed c t dir) ∨
    (¬ Ready c s .alloc ∧ ∃ e, s.allocCache c = .error e ∧ e ≠ .table) := by
  by_cases hhwm : s.hwm < c.count
  · exact .inl ⟨s.hwm, _, if_pos hhwm, h.allocated s.hwm (s.hwm + 1)⟩
  by_cases hc : c.count = 0
  · refine .inr ⟨?_, .info, by simp [Cache.allocCache, hhwm, hc], by decide⟩
    simp [Ready, hc]
  cases hscan : s.scanUnused c c.count 0 with
  | some b =>
    exact .inl ⟨b, _, by simp [Cache.allocCache, hhwm, hc, hscan], h.allocated b s.hwm⟩
  | none =>
    refine .inr ⟨?_, .diverges, by simp [Cache.allocCache, hhwm, hc, hscan], by decide⟩
    rintro (hlt | ⟨b, hb, hunused⟩)
    · exact hhwm hlt
    · obtain ⟨b', hb'⟩ := Cache.scanUnused_exists c.count 0 hb hunused (by omega) (by omega)
      rw [hscan] at hb'
      cases hb'

/-- One call: it returns the answer of the directory, or does not return because it is not ready. -/
theorem call_spec (h : Filed c s dir) (op : Op Con) (hop : dir.Allows op)
    (hgood : Searchable c (s, dir) op) :
    (∃ r t, s.call c op = .ok (r, t) ∧ dir.Answers op r ∧ Filed c t (dir.next op r)) ∨
    (¬ Ready c s op ∧ ∃ e, s.call c op = .error e ∧ e ≠ .table) := by
  cases op with
  | alloc =>
    rcases h.allocCache_spec with ⟨b, t, hcall, ht⟩ | ⟨hready, e, hcall, he⟩
    · exact .inl ⟨.id (some b), t, by rw [Cache.call, hcall]; rfl, ⟨b, rfl⟩, ht⟩
    · exact .inr ⟨hready, e, by rw [Cache.call, hcall]; rfl, he⟩
  | regist b conId =>
    rcases h.htRegist_spec hgood.1 hop hgood.2 with
      ⟨ok, t, hcall, ht⟩ | ⟨hready, e, hcall, he⟩
    · exact .inl ⟨.flag ok, t, by rw [Cache.call, hcall]; rfl, ⟨ok, rfl⟩, ht⟩
    · exact .inr ⟨hready, e, by rw [Cache.call, hcall]; rfl, he⟩
  | find conId =>
    have hcall := h.findCache_eq hgood
    exact .inl ⟨.id (dir conId), s, by rw [Cache.call, hcall]; rfl, rfl, h⟩
  | victim conId =>
    cases hreg : dir conId with
    | none =>
      have hcall := h.setVictim_absent hreg (hgood.resolve_left fun hne => hne hreg)
      refine .inl ⟨.flag false, s, by rw [Cache.call, hcall]; rfl, ?_, h⟩
      rw [Directory.Answers, hreg]
      rfl
    | some b =>
      obtain ⟨t, hcall, ht⟩ := h.setVictim_registered hreg
      refine .inl ⟨.flag true, t, by rw [Cache.call, hcall]; rfl, ?_, ht⟩
      rw [Directory.Answers, hreg]
      rfl

end Filed

variable {s t : Cache Con × Directory Con} {x : Op Con × Reply} {xs : List (Op Con × Reply)}

theorem filed_step (hstep : restrict (Step c) (fun s x => Searchable c s x.1) s x t)
    (h : Filed c s.1 s.2) : Filed c t.1 t.2 := by
  obtain ⟨⟨hop, hcall, hdir⟩, hgood⟩ := hstep
  rcases h.call_spec x.1 hop hgood with ⟨r, u, hcall', -, hu⟩ | ⟨-, e, hcall', -⟩
  · rw [hcall] at hcall'
    obtain ⟨rfl, rfl⟩ := Prod.mk.inj (Except.ok.inj hcall')
    rwa [hdir]
  · rw [hcall] at hcall'
    cases hcall'

/-- In every run of searchable calls, the cache answers as the directory of the calls so far, and no
call accesses the table outside its bounds. -/
theorem cache_is_directory {s₀ : Cache Con}
    (hrun : Run (restrict (Step c) fun s x => Searchable c s x.1) (s₀.init c, fun _ => none) xs s)
    (op : Op Con) (hop : s.2.Allows op) (hgood : Searchable c s op) :
    s.1.call c op ≠ .error .table ∧
      (∀ r t, s.1.call c op = .ok (r, t) → s.2.Answers op r) ∧
      (Ready c s.1 op → ∃ r t, s.1.call c op = .ok (r, t)) := by
  have hfiled : Filed c s.1 s.2 :=
    hrun.invariant (fun _ _ _ => filed_step) (filed_init c s₀)
  rcases hfiled.call_spec op hop hgood with ⟨r, u, hcall, hans, -⟩ | ⟨hready, e, hcall, he⟩
  · rw [hcall]
    refine ⟨by simp, ?_, fun _ => ⟨r, u, rfl⟩⟩
    intro r' t heq
    obtain ⟨rfl, -⟩ := Prod.mk.inj (Except.ok.inj heq)
    exact hans
  · rw [hcall]
    refine ⟨?_, by simp, fun hr => absurd hr hready⟩
    intro heq
    exact he (Except.error.inj heq)

/-- Five caches and the default table of forty slots, for contents of one byte. -/
def byteConfig (byte : Con → UInt8) : Config Con :=
  ⟨5, 40, fun conId => [byte conId], by decide, by decide⟩

/-- Memory before the constructor runs. -/
def raw (conId : Con) : Cache Con := ⟨7, fun _ => ⟨conId, .unused⟩, fun _ => some 9⟩

instance (dir : Directory Con) (op : Op Con) : Decidable (dir.Allows op) :=
  match op with
  | .regist _ conId => inferInstanceAs (Decidable (dir conId = none))
  | .alloc | .find _ | .victim _ => inferInstanceAs (Decidable True)

instance (conId : Con) (idx : ℕ) : Decidable (InWindow c conId idx) :=
  inferInstanceAs (Decidable (_ ∧ _))

instance (s : Cache Con) (conId : Con) : Decidable (PlacesInWindow c s conId) := by
  unfold PlacesInWindow
  split <;> infer_instance

instance [Fintype Con] (s : Cache Con × Directory Con) (op : Op Con) :
    Decidable (Searchable c s op) :=
  match op with
  | .alloc => inferInstanceAs (Decidable True)
  | .regist _ _ => inferInstanceAs (Decidable (_ ∧ _))
  | .find _ | .victim _ => inferInstanceAs (Decidable (_ ∨ _))

/-- A call with its reply and the directory after it, with `check` on the state it is made in. -/
def exec (c : Config Con) (check : Cache Con × Directory Con → Op Con → Bool)
    (s : Cache Con × Directory Con) (op : Op Con) :
    Option ((Op Con × Reply) × (Cache Con × Directory Con)) :=
  if s.2.Allows op ∧ check s op then
    (s.1.call c op).toOption.map fun r => ((op, r.1), (r.2, s.2.next op r.1))
  else none

theorem step_of_exec (check : Cache Con × Directory Con → Op Con → Bool)
    (s : Cache Con × Directory Con) (op : Op Con) (x : Op Con × Reply)
    (t : Cache Con × Directory Con) (h : exec c check s op = some (x, t)) :
    Step c s x t ∧ check s x.1 = true := by
  unfold exec at h
  split_ifs at h with hcheck
  obtain ⟨⟨r, u⟩, hcall, heq⟩ := Option.map_eq_some_iff.mp h
  obtain ⟨rfl, rfl⟩ := Prod.mk.inj heq
  refine ⟨⟨hcheck.1, ?_, rfl⟩, hcheck.2⟩
  cases hres : s.1.call c op with
  | error e => simp [hres, Except.toOption] at hcall
  | ok p => simpa [hres, Except.toOption] using hcall

/-- Two contents with the same hash. -/
def twinConfig : Config Bool := byteConfig fun b => if b then 80 else 0

def twinHistory : List (Op Bool × Reply) :=
  [(.alloc, .id (some 0)), (.alloc, .id (some 1)), (.regist 0 true, .flag true),
    (.regist 1 false, .flag true), (.victim true, .flag true)]

theorem twinHistory_is_directory :
    ∃ s, Run (restrict (Step twinConfig) fun s x => Searchable twinConfig s x.1)
        ((raw true).init twinConfig, fun _ => none) twinHistory s ∧
      s.2 false = some 1 ∧
      ∃ r t, s.1.call twinConfig (.find false) = .ok (r, t) ∧ s.2.Answers (.find false) r := by
  obtain ⟨s, hrun, hdir⟩ := exists_run_end
    (step_of_exec (c := twinConfig) fun s op => Searchable twinConfig s op)
    ((raw true).init twinConfig, fun _ => none) (twinHistory.map Prod.fst) (fun s => s.2 false)
    (show _ = some (twinHistory, some 1) by decide +kernel)
  have hrun' : Run (restrict (Step twinConfig) fun s x => Searchable twinConfig s x.1)
      ((raw true).init twinConfig, fun _ => none) twinHistory s :=
    hrun.mono fun s x t h => ⟨h.1, decide_eq_true_iff.mp h.2⟩
  obtain ⟨-, hans, hret⟩ :=
    cache_is_directory hrun' (.find false) trivial (.inl (by rw [hdir]; simp))
  obtain ⟨r, t, hcall⟩ := hret trivial
  exact ⟨s, hrun', hdir, r, t, hcall, hans r t hcall⟩

def crowdedHistory : List (Op UInt8 × Reply) :=
  [(.alloc, .id (some 0)), (.alloc, .id (some 1)), (.alloc, .id (some 2)), (.alloc, .id (some 3)),
    (.alloc, .id (some 4)), (.regist 0 0, .flag true), (.regist 1 80, .flag true),
    (.regist 2 104, .flag true), (.regist 3 152, .flag true), (.regist 4 176, .flag true)]

/-- Five contents with the same hash: the fifth is filed behind the slots that `_ht_find` looks at.
And a search whose window crosses the end of the table leaves it. -/
theorem crowdedHistory_loses :
    (∃ s, Run (Step (byteConfig id)) ((raw 0).init (byteConfig id), fun _ => none)
        crowdedHistory s ∧
      s.2 176 = some 4 ∧ s.1.findCache (byteConfig id) 176 = .ok none) ∧
    ((raw 0).init (byteConfig id)).findCache (byteConfig id) 26 = .error .table := by
  refine ⟨?_, by decide +kernel⟩
  obtain ⟨s, hrun, hdir⟩ := exists_run_end (step_of_exec (c := byteConfig id) fun _ _ => true)
    ((raw 0).init (byteConfig id), fun _ => none) (crowdedHistory.map Prod.fst)
    (fun s => (s.2 176, s.1.findCache (byteConfig id) 176))
    (show _ = some (crowdedHistory, (some 4, .ok none)) by decide +kernel)
  obtain ⟨hreg, hfind⟩ := Prod.mk.inj hdir
  exact ⟨s, hrun.mono fun _ _ _ h => h.1, hreg, hfind⟩

end YwStorage.BuffCache
