import YwStorage.Symbol.Basic

/-! What `readline` makes of a line, as a function of the text of the line. -/
namespace YwStorage.Symbol

variable {line rest : Text} {addr : ℤ}

/-- The string at the start of some memory. -/
def cut (buf : Text) : Text := buf.takeWhile (· ≠ nul)

/-- The value of the leading digits. -/
def address (line : Text) : ℤ :=
  (line.takeWhile fun c => (digit c).isSome).foldl
    (fun addr c => wrap (addr * 16 + (digit c).getD 0)) 0

/-- What follows the first type, a single character between two blanks. -/
def afterType : Text → Option Text
  | c :: d :: e :: line =>
    if c = ' ' ∧ d ≠ ' ' ∧ e = ' ' then some line else afterType (d :: e :: line)
  | _ => none

theorem afterType_type {d : Char} (hd : d ≠ ' ') (line : Text) :
    afterType (' ' :: d :: ' ' :: line) = some line := if_pos ⟨rfl, hd, rfl⟩

theorem afterType_step {c d e : Char} (h : ¬ (c = ' ' ∧ d ≠ ' ' ∧ e = ' ')) (line : Text) :
    afterType (c :: d :: e :: line) = afterType (d :: e :: line) := if_neg h

/-- A line begins with a type, or it goes on behind its first character, or it is too short. -/
theorem type_induction {P : Text → Prop} (type : ∀ d line, d ≠ ' ' → P (' ' :: d :: ' ' :: line))
    (step : ∀ c d e line, ¬ (c = ' ' ∧ d ≠ ' ' ∧ e = ' ') → P (d :: e :: line) →
      P (c :: d :: e :: line))
    (nil : P []) (one : ∀ c, P [c]) (two : ∀ c d, P [c, d]) (line : Text) : P line := by
  induction line with
  | nil => exact nil
  | cons c line ih =>
    match line, ih with
    | [], _ => exact one c
    | [d], _ => exact two c d
    | d :: e :: line, ih =>
      by_cases h : c = ' ' ∧ d ≠ ' ' ∧ e = ' '
      · obtain ⟨rfl, hd, rfl⟩ := h
        exact type d line hd
      · exact step c d e line h ih

/-- The symbol of a line. -/
def symbol (line : Text) : Option (ℤ × Text) :=
  (afterType line).bind fun name => if address line = 0 then none else some (address line, name)

/-- A line without a type does not end with a blank. -/
def Closed (line : Text) : Prop := afterType line = none → line.getLast? ≠ some ' '

theorem digit_blank : digit ' ' = none := by decide

theorem nul_ne_blank : nul ≠ ' ' := by decide

theorem cut_of_notMem (h : nul ∉ line) : cut line = line := by
  refine List.takeWhile_eq_self_iff.mpr fun c hc => ?_
  simpa using fun heq : c = nul => h (heq ▸ hc)

theorem nul_notMem_cut (buf : Text) : nul ∉ cut buf := by
  intro h
  simpa using List.mem_takeWhile_imp h

/-- Memory that has a terminator is a string with its terminator, and more. -/
theorem exists_eq_cut {buf : Text} (h : nul ∈ buf) : ∃ rest, buf = cut buf ++ nul :: rest := by
  induction buf with
  | nil => cases h
  | cons c buf ih =>
    by_cases hc : c = nul
    · exact ⟨buf, by simp [cut, hc]⟩
    · obtain ⟨rest, hrest⟩ := ih ((List.mem_cons.mp h).resolve_left (Ne.symm hc))
      refine ⟨rest, ?_⟩
      rw [cut, List.takeWhile_cons, if_pos (by simpa using hc), List.cons_append]
      exact congrArg (c :: ·) hrest

theorem cut_append_nul (h : nul ∉ line) : cut (line ++ nul :: rest) = line := by
  rw [cut, List.takeWhile_append_of_pos]
  · simp
  · intro c hc
    simpa using fun heq : c = nul => h (heq ▸ hc)

theorem cut_append (h : nul ∈ line) : cut (line ++ rest) = cut line := by
  obtain ⟨more, hmore⟩ := exists_eq_cut h
  rw [hmore, List.append_assoc, List.cons_append, cut_append_nul (nul_notMem_cut line),
    cut_append_nul (nul_notMem_cut line)]

theorem readAddr_eq (h : nul ∉ line) :
    readAddr (line ++ nul :: rest) addr =
      some (if line.dropWhile (fun c => (digit c).isSome) = [] then none
        else some ((line.takeWhile fun c => (digit c).isSome).foldl
          (fun addr c => wrap (addr * 16 + (digit c).getD 0)) addr,
          line.dropWhile (fun c => (digit c).isSome) ++ nul :: rest)) := by
  induction line generalizing addr with
  | nil => simp [readAddr, nul_ne_blank]
  | cons c line ih =>
    obtain ⟨hc, hline⟩ := not_or.mp (List.mem_cons.not.mp h)
    rw [List.cons_append, readAddr, if_neg (Ne.symm hc)]
    cases hd : digit c with
    | none => simp [hd]
    | some val =>
      have hblank : c ≠ ' ' := by
        rintro rfl
        cases digit_blank ▸ hd
      simp [hd, hblank, ih hline]

theorem skipType_of_type {d : Char} (hd : d ≠ ' ') (buf : Text) :
    skipType (' ' :: d :: ' ' :: buf) = some (some buf) := by
  simp [skipType, atType, hd]

theorem skipType_of_not {c d e : Char} {buf : Text} (h : ¬ (c = ' ' ∧ d ≠ ' ' ∧ e = ' '))
    (hc : c ≠ nul) : skipType (c :: d :: e :: buf) = skipType (d :: e :: buf) := by
  have hat : atType (c :: d :: e :: buf) = some false := by
    by_cases hc : c = ' '
    · by_cases hd : d = ' '
      · simp [atType, hd]
      · have he : e ≠ ' ' := fun he => h ⟨hc, hd, he⟩
        simp [atType, hd, hc, he]
    · simp [atType, hc]
  rw [skipType, hat]
  simp [hc]

theorem skipType_nul (buf : Text) : skipType (nul :: buf) = some none := by
  simp [skipType, atType, nul_ne_blank]

theorem skipType_last {c : Char} (hc : c ≠ nul) (hblank : c ≠ ' ') (buf : Text) :
    skipType (c :: nul :: buf) = some none := by
  rw [skipType]
  simp [atType, hblank, hc, skipType_nul]

theorem skipType_blank : skipType [' ', nul] = none := by decide

theorem skipType_of_some {name : Text} (h : nul ∉ line) (htype : afterType line = some name) :
    skipType (line ++ nul :: rest) = some (some (name ++ nul :: rest)) := by
  induction line using type_induction with
  | type d line hd =>
    rw [afterType_type hd] at htype
    cases htype
    exact skipType_of_type hd _
  | step c d e line hnot ih =>
    rw [afterType_step hnot] at htype
    obtain ⟨hc, hline⟩ := not_or.mp (List.mem_cons.not.mp h)
    exact (skipType_of_not hnot (Ne.symm hc)).trans (ih hline htype)
  | nil => cases htype
  | one c => cases htype
  | two c d => cases htype

theorem skipType_of_none (h : nul ∉ line) (hne : line ≠ []) (htype : afterType line = none)
    (rest : Text) :
    (line.getLast? ≠ some ' ' → skipType (line ++ nul :: rest) = some none) ∧
      (line.getLast? = some ' ' → skipType (line ++ [nul]) = none) := by
  induction line using type_induction with
  | type d line hd =>
    rw [afterType_type hd] at htype
    cases htype
  | step c d e line hnot ih =>
    rw [afterType_step hnot] at htype
    obtain ⟨hc, hline⟩ := not_or.mp (List.mem_cons.not.mp h)
    rw [List.getLast?_cons_cons]
    obtain ⟨hopen, hblank⟩ := ih hline (by simp) htype
    exact ⟨fun hlast => (skipType_of_not hnot (Ne.symm hc)).trans (hopen hlast),
      fun hlast => (skipType_of_not hnot (Ne.symm hc)).trans (hblank hlast)⟩
  | nil => exact absurd rfl hne
  | one c =>
    have hc : c ≠ nul := by
      rintro rfl
      simp at h
    refine ⟨fun hlast => skipType_last hc (by simpa using hlast) _, fun hlast => ?_⟩
    obtain rfl : c = ' ' := by simpa using hlast
    exact skipType_blank
  | two c d =>
    have hc : c ≠ nul ∧ d ≠ nul := by
      simpa [eq_comm] using h
    have hstep : ∀ buf, skipType (c :: d :: nul :: buf) = skipType (d :: nul :: buf) :=
      fun buf => skipType_of_not (fun htype => nul_ne_blank htype.2.2) hc.1
    refine ⟨fun hlast => (hstep _).trans (skipType_last hc.2 (by simpa using hlast) _),
      fun hlast => ?_⟩
    obtain rfl : d = ' ' := by simpa using hlast
    exact (hstep _).trans skipType_blank

theorem cString_eq {name : Text} (h : nul ∉ name) : cString (name ++ nul :: rest) = some name := by
  induction name with
  | nil => simp [cString]
  | cons c name ih =>
    obtain ⟨hc, hname⟩ := not_or.mp (List.mem_cons.not.mp h)
    rw [List.cons_append, cString, if_neg (Ne.symm hc), ih hname]
    rfl

/-- Only a blank can begin a type. -/
theorem afterType_cons {c : Char} (hc : c ≠ ' ') (line : Text) :
    afterType (c :: line) = afterType line := by
  match line with
  | [] => rfl
  | [_] => rfl
  | d :: e :: line => exact afterType_step (fun h => hc h.1) line

theorem ne_blank_of_digit {c : Char} (hc : (digit c).isSome) : c ≠ ' ' := by
  rintro rfl
  rw [digit_blank] at hc
  cases hc

theorem afterType_dropWhile (line : Text) :
    afterType (line.dropWhile fun c => (digit c).isSome) = afterType line := by
  induction line with
  | nil => rfl
  | cons c line ih =>
    rw [List.dropWhile_cons]
    split_ifs with hc
    · rw [ih, afterType_cons (ne_blank_of_digit hc)]
    · rfl

theorem getLast?_dropWhile (line : Text) :
    (line.dropWhile fun c => (digit c).isSome).getLast? = some ' ' ↔ line.getLast? = some ' ' := by
  induction line with
  | nil => rfl
  | cons c line ih =>
    rw [List.dropWhile_cons]
    split_ifs with hc
    · rw [ih]
      cases line with
      | nil => simp [ne_blank_of_digit hc]
      | cons d line => rw [List.getLast?_cons_cons]
    · rfl

theorem nul_notMem_of_afterType {name : Text} (h : nul ∉ line)
    (htype : afterType line = some name) : nul ∉ name := by
  induction line using type_induction with
  | type d line hd =>
    rw [afterType_type hd] at htype
    cases htype
    exact fun hmem => h (by simp [hmem])
  | step c d e line hnot ih =>
    rw [afterType_step hnot] at htype
    exact ih (fun hmem => h (List.mem_cons_of_mem _ hmem)) htype
  | nil => cases htype
  | one c => cases htype
  | two c d => cases htype

/-- One more character belongs to the name. -/
theorem afterType_concat {name : Text} (h : afterType line = some name) (g : Char) :
    afterType (line ++ [g]) = some (name ++ [g]) := by
  induction line using type_induction with
  | type d line hd =>
    rw [afterType_type hd] at h
    cases h
    exact afterType_type hd _
  | step c d e line hnot ih =>
    rw [afterType_step hnot] at h
    exact (afterType_step hnot _).trans (ih h)
  | nil => cases h
  | one c => cases h
  | two c d => cases h

/-- One more character can only end a type. -/
theorem afterType_concat_of_none {name : Text} {g : Char} (h : afterType line = none)
    (hg : afterType (line ++ [g]) = some name) : name = [] ∧ ' ' ∈ line := by
  induction line using type_induction with
  | type d line hd =>
    rw [afterType_type hd] at h
    cases h
  | step c d e line hnot ih =>
    rw [afterType_step hnot] at h
    obtain ⟨hname, hmem⟩ := ih h ((afterType_step hnot _).symm.trans hg)
    exact ⟨hname, List.mem_cons_of_mem _ hmem⟩
  | nil => cases hg
  | one c => cases hg
  | two c d =>
    by_cases htype : c = ' ' ∧ d ≠ ' ' ∧ g = ' '
    · obtain ⟨rfl, hd, rfl⟩ := htype
      cases (afterType_type hd []).symm.trans hg
      exact ⟨rfl, by simp⟩
    · cases (afterType_step htype []).symm.trans hg

theorem blank_mem_of_afterType {name : Text} (h : afterType line = some name) : ' ' ∈ line := by
  induction line using type_induction with
  | type d line hd => simp
  | step c d e line hnot ih =>
    rw [afterType_step hnot] at h
    exact List.mem_cons_of_mem _ (ih h)
  | nil => cases h
  | one c => cases h
  | two c d => cases h

theorem address_append (h : ' ' ∈ line) (rest : Text) : address (line ++ rest) = address line := by
  have htake : (line ++ rest).takeWhile (fun c => (digit c).isSome) =
      line.takeWhile fun c => (digit c).isSome := by
    rw [List.takeWhile_append, if_neg]
    intro hlen
    have hself := List.takeWhile_prefix (l := line) (fun c => (digit c).isSome)
    have hmem : ' ' ∈ line.takeWhile fun c => (digit c).isSome := by
      rwa [hself.eq_of_length hlen]
    simpa [digit_blank] using List.mem_takeWhile_imp hmem
  rw [address, htake, address]

/-- A closed line is read up to its terminator, whatever follows. -/
theorem readline_of_closed (h : nul ∉ line) (hclosed : Closed line) (rest : Text) :
    readline (line ++ nul :: rest) = some (symbol line) := by
  have hdrop : nul ∉ line.dropWhile fun c => (digit c).isSome :=
    fun hmem => h ((List.dropWhile_sublist _).subset hmem)
  rw [readline, readAddr_eq h, ← address, symbol, ← afterType_dropWhile]
  by_cases hnil : line.dropWhile (fun c => (digit c).isSome) = []
  · simp [hnil, afterType]
  · rw [if_neg hnil]
    cases htype : afterType (line.dropWhile fun c => (digit c).isSome) with
    | none =>
      have hlast : (line.dropWhile fun c => (digit c).isSome).getLast? ≠ some ' ' :=
        (getLast?_dropWhile line).not.mpr (hclosed (afterType_dropWhile line ▸ htype))
      simp [(skipType_of_none hdrop hnil htype rest).1 hlast]
    | some name =>
      have hname := nul_notMem_of_afterType hdrop htype
      simp only [skipType_of_some hdrop htype, cString_eq hname, Option.bind_some]
      split_ifs <;> rfl

/-- Behind the terminator of another line a character is read. -/
theorem readline_of_not_closed (h : nul ∉ line) (hclosed : ¬ Closed line) :
    readline (line ++ [nul]) = none := by
  obtain ⟨htype, hlast⟩ : afterType line = none ∧ line.getLast? = some ' ' := by
    simpa [Closed] using hclosed
  rw [← afterType_dropWhile] at htype
  rw [← getLast?_dropWhile] at hlast
  have hnil : line.dropWhile (fun c => (digit c).isSome) ≠ [] := by
    intro hnil
    simp [hnil] at hlast
  have hdrop : nul ∉ line.dropWhile fun c => (digit c).isSome :=
    fun hmem => h ((List.dropWhile_sublist _).subset hmem)
  rw [readline, readAddr_eq h, if_neg hnil]
  have hskip : skipType (_ ++ [nul]) = none :=
    (skipType_of_none hdrop hnil htype []).2 hlast
  simp [hskip]

/-- No character behind the terminator of the string is read. -/
def ReadsWithin (buf : Text) : Prop := nul ∈ buf ∧ readline (cut buf ++ [nul]) ≠ none

theorem readsWithin_iff {buf : Text} : ReadsWithin buf ↔ nul ∈ buf ∧ Closed (cut buf) := by
  refine and_congr_right fun _ => ⟨fun hread => ?_, fun hclosed => ?_⟩
  · by_contra hclosed
    exact hread (readline_of_not_closed (nul_notMem_cut buf) hclosed)
  · simp [readline_of_closed (nul_notMem_cut buf) hclosed]

theorem ReadsWithin.readline_eq {buf : Text} (h : ReadsWithin buf) :
    readline buf = some (symbol (cut buf)) := by
  obtain ⟨hmem, hclosed⟩ := readsWithin_iff.mp h
  obtain ⟨rest, hrest⟩ := exists_eq_cut hmem
  rw [hrest, cut_append_nul (nul_notMem_cut buf)]
  exact readline_of_closed (nul_notMem_cut buf) hclosed rest

end YwStorage.Symbol
