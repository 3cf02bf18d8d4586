import YwStorage.Ini.Loaded

/-!
`trim` and `get_token` on the memory they are given: a list of characters that begins at the
pointer, or at the line, and ends with a terminator. `none` stands for an access outside of it.
-/
namespace YwStorage.Ini

variable {s r : Text} {sep : Text}

def strlen : Text → Option ℕ
  | [] => none
  | c :: buf => if c = nul then some 0 else (strlen buf).map (· + 1)

/-- The first loop of `trim`. -/
def skipStart : Text → Option ℕ
  | [] => none
  | c :: buf => if c ≠ nul ∧ isspace c then (skipStart buf).map (· + 1) else some 0

/-- The second loop of `trim`; `end` is the argument less one. -/
def clearEnd (buf : Text) : ℕ → Option Text
  | 0 => none
  | k + 1 =>
    match buf[k]? with
    | none => none
    | some c => if c ≠ nul ∧ isspace c then clearEnd (buf.set k nul) k else some buf

/-- `trim`: the buffer it leaves, and where the result starts. -/
def trimBuffer (buf : Text) : Option (Text × ℕ) := do
  let n ← strlen buf
  let start ← skipStart buf
  let buf ← clearEnd buf n
  return (buf, start)

/-- `search`, as the distance to the pointer. -/
def searchBuffer (sep : Text) : Text → Option ℕ
  | [] => none
  | c :: buf =>
    if c ≠ nul ∧ exist c sep = false then (searchBuffer sep buf).map (· + 1) else some 0

/-- `strncpy` into a buffer of `size` bytes. -/
def strncpyBuffer (src : Text) (size : ℕ) : Text :=
  let str := src.takeWhile fun c => c != nul
  (str ++ List.replicate (size - str.length) nul).take size

/-- A call of `get_token`, with the line as it is then. -/
structure TokenCall where
  line : Text
  ptr : ℕ
  sep : Text

/-- What a call returns and leaves. -/
structure Token where
  org : Char
  line : Text
  buf : Text
  ptr : ℕ

def getTokenBuffer (c : TokenCall) (size : ℕ) : Option Token := do
  let n ← searchBuffer c.sep (c.line.drop c.ptr)
  let org ← c.line[c.ptr + n]?
  let line := c.line.set (c.ptr + n) nul
  return ⟨org, line, strncpyBuffer (line.drop c.ptr) size, c.ptr + n + 1⟩

/-- The calls of `get_token` for a line. -/
def lineCalls (line : Text) : Option (List TokenCall) :=
  match line.headD nul with
  | ';' | '#' => some []
  | '[' => some [⟨line, 1, [']', ';', '#', ':', '=']⟩]
  | _ => do
    let first : TokenCall := ⟨line, 0, [':', '=', ';', '#']⟩
    let t ← getTokenBuffer first maxLine
    if exist t.org [':', '=', ' '] then return [first, ⟨t.line, t.ptr, [';', '#']⟩]
    else return [first]

/-- `trim` touches the string and its terminator only and returns the trimmed string. -/
def TrimsWithin (s : Text) : Prop :=
  ∃ buf start, trimBuffer (s ++ [nul]) = some (buf, start) ∧
    (buf.drop start).takeWhile (fun c => c != nul) = trim s

/-- Every call of `get_token` for the line starts in front of its terminator or at it, stays within
the line and terminates the token. -/
def TokensWithin (line : Text) : Prop :=
  ∃ calls, lineCalls line = some calls ∧ ∀ c ∈ calls,
    (∃ n, strlen line = some n ∧ c.ptr ≤ n) ∧
      ∃ t, getTokenBuffer c maxLine = some t ∧ nul ∈ t.buf

theorem strlen_eq (h : nul ∉ s) : strlen (s ++ nul :: r) = some s.length := by
  induction s with
  | nil => simp [strlen]
  | cons c s ih =>
    obtain ⟨hc, hs⟩ := not_or.mp (List.mem_cons.not.mp h)
    rw [List.cons_append, strlen, if_neg (Ne.symm hc), ih hs]
    rfl

theorem isspace_nul : isspace nul = false := by decide

theorem skipStart_eq (s r : Text) :
    skipStart (s ++ nul :: r) = some (s.takeWhile isspace).length := by
  induction s with
  | nil => simp [skipStart]
  | cons c s ih =>
    rw [List.cons_append, skipStart, ih]
    by_cases hc : isspace c
    · have hne : c ≠ nul := by
        rintro rfl
        rw [isspace_nul] at hc
        cases hc
      simp [hc, hne]
    · simp [hc]

/-- The trailing blanks are cleared; a blank string leaves nothing to stop at. -/
theorem clearEnd_eq (s r : Text) :
    clearEnd (s ++ r) s.length =
      if s.rdropWhile isspace = [] then none
      else some (s.rdropWhile isspace ++
        List.replicate (s.length - (s.rdropWhile isspace).length) nul ++ r) := by
  induction s using List.reverseRecOn generalizing r with
  | nil => simp [clearEnd]
  | append_singleton s c ih =>
    have hlen : (s ++ [c]).length = s.length + 1 := by simp
    have hget : (s ++ [c] ++ r)[s.length]? = some c := by simp
    rw [hlen, clearEnd, hget]
    by_cases hc : isspace c
    · have hne : c ≠ nul := by
        rintro rfl
        rw [isspace_nul] at hc
        cases hc
      have hset : (s ++ c :: r).set s.length nul = s ++ nul :: r := by simp
      have hle : (s.rdropWhile isspace).length ≤ s.length := (List.rdropWhile_prefix _ s).length_le
      rw [List.rdropWhile_concat_pos _ _ _ hc]
      simp only [hc, hne, ne_eq, not_false_eq_true, and_self, if_true, List.append_assoc,
        List.singleton_append, hset, ih, Nat.sub_add_comm hle, List.replicate_succ']
    · rw [List.rdropWhile_concat_neg _ _ _ hc]
      simp [hc]

/-- What is left of a string with a character that is not blank. -/
theorem trimBuffer_eq (h : nul ∉ s) :
    trimBuffer (s ++ [nul]) =
      if s.rdropWhile isspace = [] then none
      else some (s.rdropWhile isspace ++
        List.replicate (s.length - (s.rdropWhile isspace).length) nul ++ [nul],
        (s.takeWhile isspace).length) := by
  rw [trimBuffer, strlen_eq h, skipStart_eq, Option.bind_eq_bind, Option.bind_some,
    Option.bind_eq_bind, Option.bind_some, clearEnd_eq]
  split_ifs <;> rfl

theorem takeWhile_rdropWhile (hne : s.rdropWhile isspace ≠ []) :
    (s.rdropWhile isspace).takeWhile isspace = s.takeWhile isspace := by
  obtain ⟨r, hr⟩ := List.rdropWhile_prefix isspace s
  have hlast := List.rdropWhile_last_not isspace s hne
  conv_rhs => rw [← hr]
  rw [List.takeWhile_append, if_neg]
  intro hlen
  have hself := (List.takeWhile_prefix isspace).eq_of_length hlen
  have hall := List.takeWhile_eq_self_iff.mp hself
  exact hlast (hall _ (List.getLast_mem hne))

theorem trimsWithin_iff (h : nul ∉ s) : TrimsWithin s ↔ ∃ c ∈ s, isspace c = false := by
  have hiff : (∃ c ∈ s, isspace c = false) ↔ s.rdropWhile isspace ≠ [] := by
    rw [Ne, List.rdropWhile_eq_nil_iff]
    simp
  rw [hiff, TrimsWithin, trimBuffer_eq h]
  constructor
  · rintro ⟨buf, start, htrim, -⟩ hnil
    rw [if_pos hnil] at htrim
    cases htrim
  · intro hne
    refine ⟨_, _, if_neg hne, ?_⟩
    rw [← takeWhile_rdropWhile hne]
    have hfree : ∀ c ∈ trim s, (c != nul) = true := by
      intro c hc
      simpa using fun heq : c = nul => h (heq ▸ Tokens.trim_subset s hc)
    have hsplit := List.takeWhile_append_dropWhile (p := isspace) (l := s.rdropWhile isspace)
    have hpad : ∀ n, (List.replicate n nul ++ [nul]).takeWhile (fun c => c != nul) = [] := by
      intro n
      rw [← List.replicate_succ', List.replicate_succ]
      rfl
    conv_lhs => rw [List.append_assoc]; arg 2; arg 2; arg 1; rw [← hsplit]
    rw [List.append_assoc, List.drop_left, ← trimEnd, ← trim, List.takeWhile_append_of_pos hfree,
      hpad, List.append_nil]

theorem searchBuffer_eq {l : Text} {c : Char} (hl : Free sep l) (hnul : nul ∉ l)
    (hc : c = nul ∨ c ∈ sep) (r : Text) : searchBuffer sep (l ++ c :: r) = some l.length := by
  induction l with
  | nil =>
    rcases hc with rfl | hc
    · simp [searchBuffer]
    · simp [searchBuffer, exist_eq, hc]
  | cons d l ih =>
    obtain ⟨hd, hnul⟩ := not_or.mp (List.mem_cons.not.mp hnul)
    have hfree : Free sep l := hl.subset (List.subset_cons_self d l)
    have hnot : exist d sep = false := by simp [exist_eq, hl d List.mem_cons_self]
    rw [List.cons_append, searchBuffer, if_pos ⟨Ne.symm hd, hnot⟩, ih hfree hnul]
    rfl

/-- The string and the bytes behind it. -/
theorem strncpyBuffer_eq {l : Text} (hnul : nul ∉ l) (r : Text) {size : ℕ} (hlt : l.length < size) :
    strncpyBuffer (l ++ nul :: r) size = l ++ List.replicate (size - l.length) nul := by
  have htake : (l ++ nul :: r).takeWhile (fun c => c != nul) = l :=
    Tokens.takeWhile_append_cons (fun c hc => by simpa using fun heq : c = nul => hnul (heq ▸ hc))
      (by simp)
  rw [strncpyBuffer, htake]
  exact List.take_of_length_le (by simp; omega)

/-- A call that finds the end of its token at `c`. -/
theorem getTokenBuffer_eq {l : Text} {c : Char} (hl : Free sep l) (hnul : nul ∉ l)
    (hc : c = nul ∨ c ∈ sep) (pre r : Text) {size : ℕ} (hlt : l.length < size) :
    getTokenBuffer ⟨pre ++ (l ++ c :: r), pre.length, sep⟩ size =
      some ⟨c, pre ++ (l ++ nul :: r), l ++ List.replicate (size - l.length) nul,
        pre.length + l.length + 1⟩ := by
  have hset : (pre ++ (l ++ c :: r)).set (pre.length + l.length) nul = pre ++ (l ++ nul :: r) := by
    simp
  have hget : (pre ++ (l ++ c :: r))[pre.length + l.length]? = some c := by
    simp
  simp only [getTokenBuffer, List.drop_left, searchBuffer_eq hl hnul hc, hget, hset,
    strncpyBuffer_eq hnul r hlt, Option.bind_eq_bind, Option.bind_some]
  rfl

/-- Where a token ends: at a separator within the string, or at its terminator. -/
theorem exists_token (hnul : nul ∉ s) (sep r : Text) :
    ∃ l c x, s ++ nul :: r = l ++ c :: x ∧ Free sep l ∧ nul ∉ l ∧ l.length ≤ s.length ∧
      (c = nul ∨ c ∈ sep) ∧ (c ≠ nul → ∃ s', s = l ++ c :: s' ∧ x = s' ++ nul :: r) := by
  rcases getToken_cases s sep with ⟨hfree, -⟩ | ⟨l, c, s', rfl, hfree, hc, -⟩
  · exact ⟨s, nul, r, rfl, hfree, hnul, le_rfl, .inl rfl, fun h => absurd rfl h⟩
  · refine ⟨l, c, s' ++ nul :: r, by simp, hfree, fun h => hnul (by simp [h]), by simp, .inr hc, ?_⟩
    exact fun _ => ⟨s', rfl, rfl⟩

/-- A call in front of the terminator or at it. -/
theorem exists_getTokenBuffer (hnul : nul ∉ s) (pre r sep : Text) {size : ℕ}
    (hlt : s.length < size) :
    ∃ t, getTokenBuffer ⟨pre ++ (s ++ nul :: r), pre.length, sep⟩ size = some t ∧ nul ∈ t.buf ∧
      (t.org ≠ nul → ∃ l s', s = l ++ t.org :: s' ∧ nul ∉ s' ∧
        t.line = (pre ++ l ++ [nul]) ++ (s' ++ nul :: r) ∧ t.ptr = (pre ++ l ++ [nul]).length) := by
  obtain ⟨l, c, x, heq, hfree, hl, hle, hc, hin⟩ := exists_token hnul sep r
  have hpos : 0 < size - l.length := by omega
  rw [heq]
  refine ⟨_, getTokenBuffer_eq hfree hl hc pre x (hle.trans_lt hlt), ?_, fun hne => ?_⟩
  · simp [hpos.ne']
  · obtain ⟨s', rfl, rfl⟩ := hin hne
    exact ⟨l, s', rfl, fun h => hnul (by simp [h]), by simp, by simp [Nat.add_assoc]⟩

theorem tokensWithin_string (hnul : nul ∉ s) (hlt : s.length < maxLine) (r : Text) :
    TokensWithin (s ++ nul :: r) := by
  have hlen := strlen_eq (r := r) hnul
  unfold TokensWithin lineCalls
  split
  · exact ⟨[], rfl, by simp⟩
  · exact ⟨[], rfl, by simp⟩
  next hhead =>
    -- the terminator is behind the bracket
    cases s with
    | nil => cases hhead
    | cons c s =>
      obtain rfl : c = '[' := hhead
      have hs : nul ∉ s := fun h => hnul (List.mem_cons_of_mem _ h)
      obtain ⟨t, ht, hbuf, -⟩ := exists_getTokenBuffer hs ['['] r [']', ';', '#', ':', '=']
        (Nat.lt_of_succ_lt hlt)
      refine ⟨_, rfl, fun call hcall => ?_⟩
      rw [List.mem_singleton.mp hcall]
      exact ⟨⟨_, hlen, by simp⟩, t, ht, hbuf⟩
  · obtain ⟨t, ht, hbuf, hnext⟩ := exists_getTokenBuffer hnul [] r [':', '=', ';', '#'] hlt
    rw [List.nil_append, List.length_nil] at ht
    simp only [ht, Option.bind_eq_bind, Option.bind_some]
    split_ifs with horg
    · have hne : t.org ≠ nul := by
        intro heq
        rw [heq] at horg
        exact absurd horg (by decide)
      obtain ⟨l, s', rfl, hs', hline, hptr⟩ := hnext hne
      simp only [List.length_append, List.length_cons] at hlt
      obtain ⟨t', ht', hbuf', -⟩ := exists_getTokenBuffer hs' ([] ++ l ++ [nul]) r [';', '#']
        (show s'.length < maxLine by omega)
      refine ⟨_, rfl, ?_⟩
      rw [List.forall_mem_cons, List.forall_mem_singleton]
      refine ⟨⟨⟨_, hlen, Nat.zero_le _⟩, t, ht, hbuf⟩, ⟨_, hlen, ?_⟩, t', ?_, hbuf'⟩
      · rw [hptr]
        simp
      · rw [hline, hptr]
        exact ht'
    · refine ⟨_, rfl, fun call hcall => ?_⟩
      rw [List.mem_singleton.mp hcall]
      exact ⟨⟨_, hlen, Nat.zero_le _⟩, t, ht, hbuf⟩

theorem length_of_mem_fgetsAll {room : ℕ} {line file l : Text} (hroom : 0 < room)
    (hline : line.length + room < maxLine) (h : l ∈ fgetsAll room line file) :
    l.length < maxLine := by
  induction file generalizing room line with
  | nil =>
    rw [fgetsAll] at h
    split_ifs at h with hnil
    · cases h
    · rw [List.mem_singleton.mp h]
      omega
  | cons c file ih =>
    rw [fgetsAll] at h
    split_ifs at h with hend
    · rcases List.mem_cons.mp h with rfl | h
      · simp
        omega
      · exact ih (by decide) (by decide) h
    · refine ih (by omega) ?_ h
      simp
      omega

/-- The line in its buffer. -/
theorem tokensWithin_line {file l : Text} (h : l ∈ fgetsAll (maxLine - 1) [] file) :
    TokensWithin (l ++ [nul]) := by
  have hlt := length_of_mem_fgetsAll (by decide) (by decide) h
  obtain ⟨s, r, heq, hs⟩ := List.eq_append_cons_of_mem (show nul ∈ l ++ [nul] by simp)
  have hlen := congrArg List.length heq
  simp only [List.length_append, List.length_cons, List.length_nil] at hlen
  rw [heq]
  exact tokensWithin_string hs (by omega) r

/-- The tokens of a file are always read within its lines; a string is trimmed within its bounds
exactly if a character of it is not blank. -/
theorem within_buffers_iff (s file : Text) (h : nul ∉ s) :
    (TrimsWithin s ∧ ∀ line ∈ fgetsAll (maxLine - 1) [] file, TokensWithin (line ++ [nul])) ↔
      ∃ c ∈ s, isspace c = false := by
  rw [← trimsWithin_iff h]
  exact and_iff_left fun line hline => tokensWithin_line hline

theorem padded_within : TrimsWithin [' ', 'a', ' '] ∧
    ∀ line ∈ fgetsAll (maxLine - 1) [] ['a', '=', 'b'], TokensWithin (line ++ [nul]) :=
  (within_buffers_iff [' ', 'a', ' '] ['a', '=', 'b'] (by decide)).mpr
    ⟨'a', by decide, by decide⟩

/-- The character in front of the empty string is read, and in front of a blank one. -/
theorem blank_strings_overrun :
    trimBuffer [nul] = none ∧ trimBuffer [' ', nul] = none ∧ ¬ TrimsWithin [] ∧
      ¬ TrimsWithin [' '] := by
  have hempty : trimBuffer [nul] = none := by decide
  have hblank : trimBuffer [' ', nul] = none := by decide
  refine ⟨hempty, hblank, ?_, ?_⟩
  · rintro ⟨buf, start, htrim, -⟩
    rw [List.nil_append, hempty] at htrim
    cases htrim
  · rintro ⟨buf, start, htrim, -⟩
    rw [List.singleton_append, hblank] at htrim
    cases htrim

end YwStorage.Ini
