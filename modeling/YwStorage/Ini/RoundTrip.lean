import YwStorage.Ini.Loaded

/-! A loaded map is saved and loaded again. -/
namespace YwStorage.Ini
open Tokens

variable {l r : Text} {c : Char}

/-- `load` from a given state on. -/
def feed (s : Loader) (file : Text) : Loader :=
  (fgetsAll (maxLine - 1) [] file).foldl loadLine s

theorem fgetsAll_line {room : ℕ} {line rest : Text} (hl : '\n' ∉ l) (hroom : l.length < room) :
    fgetsAll room line (l ++ '\n' :: rest) =
      (line ++ l ++ ['\n']) :: fgetsAll (maxLine - 1) [] rest := by
  induction l generalizing room line with
  | nil =>
    rw [List.nil_append, fgetsAll, if_pos (.inl rfl), List.append_nil]
  | cons c l ih =>
    have hc : ¬ (c = '\n' ∨ room ≤ 1) := by
      rintro (rfl | hle)
      · exact hl List.mem_cons_self
      · rw [List.length_cons] at hroom
        omega
    rw [List.cons_append, fgetsAll, if_neg hc, ih (fun h => hl (List.mem_cons_of_mem c h)) (by
      rw [List.length_cons] at hroom
      omega)]
    simp

theorem feed_line {s : Loader} {rest : Text} (hl : '\n' ∉ l) (hlen : l.length < maxLine - 1) :
    feed s (l ++ '\n' :: rest) = feed (loadLine s (l ++ ['\n'])) rest := by
  unfold feed
  rw [fgetsAll_line hl hlen]
  rfl

theorem cstr_of_free (h : Free [nul] l) : (l.takeWhile fun c => c != nul) = l := by
  refine List.takeWhile_eq_self_iff.mpr fun a ha => ?_
  have := h a ha
  simpa using this

theorem free_append {bad : Text} (hl : Free bad l) (hr : Free bad r) : Free bad (l ++ r) :=
  List.forall_mem_append.mpr ⟨hl, hr⟩

theorem free_cons {bad : Text} (hc : c ∉ bad) (hl : Free bad l) : Free bad (c :: l) :=
  List.forall_mem_cons.mpr ⟨hc, hl⟩

theorem loadLine_section (s : Loader) (h : Free [']', ';', '#', ':', '=', '\n', nul] l) :
    loadLine s ('[' :: l ++ [']', '\n']) = { s with sec := l } := by
  have hnul : Free [nul] ('[' :: l ++ [']', '\n']) :=
    free_append (free_cons (by decide) (h.mono (by decide))) (by decide)
  unfold loadLine
  rw [cstr_of_free hnul]
  show (⟨(getToken (l ++ [']', '\n']) [']', ';', '#', ':', '=']).2.1, s.kvMap⟩ : Loader) = _
  rw [getToken_append (h.mono (by decide)) (by decide)]

/-- The first dot of a key cuts it where `save` does. -/
structure Split (k sec name : Text) : Prop where
  key : k = sec ++ '.' :: name
  token : getToken k ['.'] = ('.', sec, name)
  secFree : Free [']', ';', '#', ':', '=', '\n', nul] sec
  secHead : ∀ c, sec.head? = some c → isspace c = false
  nameFree : Free [':', '=', ';', '#', '\n', nul] name
  nameLast : ∃ c, name.getLast? = some c ∧ isspace c = false

theorem Entry.split {e : Text × Text} (h : Entry e) : ∃ sec name, Split e.1 sec name := by
  obtain ⟨sec, name, hkey, hsec, hname, hne, hsecFree, hnameFree⟩ := h.key
  have hlast : ∀ pre, ∃ c, (pre ++ name).getLast? = some c ∧ isspace c = false := by
    intro pre
    have heq : (pre ++ name).getLast? = name.getLast? := by
      rw [List.getLast?_append_of_ne_nil _ hne]
    rw [heq, List.getLast?_eq_some_getLast hne]
    exact ⟨_, rfl, hname.last _ (List.getLast?_eq_some_getLast hne)⟩
  rcases getToken_cases sec ['.'] with ⟨hfree, -⟩ | ⟨l, c, r, rfl, hl, hc, -⟩
  · refine ⟨sec, name, hkey, ?_, hsecFree, hsec.head, hnameFree, hlast []⟩
    rw [hkey, getToken_append hfree (by decide)]
  · obtain rfl : c = '.' := List.mem_singleton.mp hc
    have hkey' : e.1 = l ++ '.' :: (r ++ '.' :: name) := by rw [hkey]; simp
    refine ⟨l, r ++ '.' :: name, hkey', ?_, hsecFree.subset fun a ha => by simp [ha], ?_, ?_, ?_⟩
    · rw [hkey', getToken_append hl (by decide)]
    · intro a ha
      refine hsec.head a ?_
      rw [List.head?_append, ha]
      rfl
    · refine free_append ?_ (free_cons (by decide) hnameFree)
      exact (hsecFree.subset fun a ha => by simp [ha] : Free _ r).mono (by decide)
    · have := hlast (r ++ ['.'])
      rwa [List.append_assoc] at this

/-- The line that `save` writes for an entry. -/
def body (name value : Text) : Text := pad name ++ ['=', ' '] ++ value ++ ['\n']

section Body
variable {name value : Text} (hname : Free [':', '=', ';', '#', '\n', nul] name)
  (hlast : ∃ c, name.getLast? = some c ∧ isspace c = false)
  (hvalue : Free [';', '#', '\n', nul] value) (htrimmed : Trimmed isspace value)

include hname in
theorem pad_free : Free [':', '=', ';', '#', '\n', nul] (pad name) := by
  refine free_append hname fun a ha => ?_
  rw [List.eq_of_mem_replicate ha]
  decide

include hlast in
theorem trim_pad : trim (pad name) = trim name ∧ trim name ≠ [] := by
  obtain ⟨c, hc, hspace⟩ := hlast
  refine ⟨trim_append fun a ha => ?_, fun hnil => ?_⟩
  · rw [List.eq_of_mem_replicate ha]
    decide
  · -- the last character is not blank
    have hne : name ≠ [] := by
      rintro rfl
      cases hc
    obtain ⟨pre, rfl⟩ := List.getLast?_eq_some_iff.mp hc
    have hend : (pre ++ [c]).rdropWhile isspace = pre ++ [c] :=
      List.rdropWhile_concat_neg isspace pre c (by simp [hspace])
    have hall : ∀ a ∈ pre ++ [c], isspace a = true := by
      have hdrop : (pre ++ [c]).dropWhile isspace = [] := by
        rw [← hend]
        exact hnil
      exact List.dropWhile_eq_nil_iff.mp hdrop
    rw [hall c (by simp)] at hspace
    cases hspace

include hname hvalue in
theorem body_free : Free [nul] (body name value) :=
  free_append (free_append (free_append ((pad_free hname).mono (by decide)) (by decide))
    (hvalue.mono (by decide))) (by decide)

include hname hlast hvalue htrimmed in
/-- An entry is read back, without the blanks at the ends of its name. -/
theorem loadEntry_body (s : Loader) : loadEntry s (body name value) =
    ⟨trimEnd s.sec, set (trim s.sec ++ '.' :: trim name) value s.kvMap⟩ := by
  obtain ⟨hpad, hne⟩ := trim_pad hlast
  have hbody : body name value = pad name ++ '=' :: (' ' :: value ++ ['\n']) := by
    unfold body
    simp
  have htoken : getToken (body name value) [':', '=', ';', '#'] =
      ('=', pad name, ' ' :: value ++ ['\n']) := by
    rw [hbody]
    exact getToken_append ((pad_free hname).mono (by decide)) (by decide)
  have hrest : Free [';', '#'] (' ' :: value ++ ['\n']) :=
    free_append (free_cons (by decide) (hvalue.mono (by decide))) (by decide)
  have hvalue' : trim (' ' :: value ++ ['\n']) = value := by
    have hspace : trim (' ' :: value ++ ['\n']) = trim (' ' :: value) :=
      trim_append (List.forall_mem_singleton.mpr rfl)
    have hcons : trim (' ' :: value) = trim value := trim_cons (by decide)
    rw [hspace, hcons]
    exact htrimmed.trim
  have hlen : (trim name).length ≠ 0 := fun hzero => hne (List.length_eq_zero_iff.mp hzero)
  unfold loadEntry
  rw [htoken]
  dsimp only
  rw [if_pos (by decide), getToken_of_free hrest, hvalue', hpad, if_pos hlen]

include hname hlast hvalue htrimmed in
theorem loadLine_body (s : Loader) (hhead : name.head? ≠ some '[') :
    loadLine s (body name value) =
      ⟨trimEnd s.sec, set (trim s.sec ++ '.' :: trim name) value s.kvMap⟩ := by
  rw [← loadEntry_body hname hlast hvalue htrimmed s]
  unfold loadLine
  rw [cstr_of_free (body_free hname hvalue)]
  cases name with
  | nil =>
    obtain ⟨c, hc, -⟩ := hlast
    cases hc
  | cons c name =>
    have hc := hname c List.mem_cons_self
    have hc' : c ≠ '[' := fun heq => hhead (by rw [heq]; rfl)
    have hd : (body (c :: name) value).headD nul = c := rfl
    simp only [hd]
    split
    · exact absurd (by decide) hc
    · exact absurd (by decide) hc
    · exact absurd rfl hc'
    · rfl

include hname hvalue in
/-- A name that begins like a section is taken for one. -/
theorem loadLine_bracket (s : Loader) (hhead : name.head? = some '[') :
    (loadLine s (body name value)).kvMap = s.kvMap := by
  unfold loadLine
  rw [cstr_of_free (body_free hname hvalue)]
  cases name with
  | nil => cases hhead
  | cons c name =>
    obtain rfl : c = '[' := Option.some.inj hhead
    rfl

end Body

/-- What `save` writes when every buffer is long enough. -/
def saved : Text → List (Text × Text) → Text
  | _, [] => []
  | prevSection, (k, v) :: es =>
    let sec := (getToken k ['.']).2.1
    (if prevSection ≠ sec then '\n' :: '[' :: sec ++ [']', '\n'] else []) ++
      body (getToken k ['.']).2.2 v ++ saved sec es

/-- The key and the value fit into the buffers of `save`, and the lines it writes into `load`'s. -/
def Fits (e : Text × Text) : Prop :=
  e.1.length < maxLine ∧ (getToken e.1 ['.']).2.1.length + 3 < maxLine ∧
    (body (getToken e.1 ['.']).2.2 e.2).length < maxLine

/-- The section of a key does not end in a blank, and its name begins neither with one nor like a
section. -/
def Plain (k : Text) : Prop :=
  (∀ c ∈ (getToken k ['.']).2.1.getLast?, isspace c = false) ∧
    ∀ c ∈ (getToken k ['.']).2.2.head?, isspace c = false ∧ c ≠ '['

instance (k : Text) : Decidable (Plain k) :=
  @instDecidableAnd _ _ (Option.decidableForallMem _) (Option.decidableForallMem _)

theorem Fits.value {e : Text × Text} (h : Fits e) : e.2.length < maxLine := by
  have := h.2.2
  unfold body at this
  rw [List.length_append, List.length_append] at this
  omega

theorem saveLoop_eq {es : List (Text × Text)} (h : ∀ e ∈ es, Fits e) (prevSection : Text) :
    saveLoop prevSection es = some (saved prevSection es) := by
  induction es generalizing prevSection with
  | nil => rfl
  | cons e es ih =>
    have he := h e List.mem_cons_self
    have hkey : strncpy e.1 = some e.1 := if_pos he.1
    have hvalue : strncpy e.2 = some e.2 := if_pos he.value
    have hes := ih fun d hd => h d (List.mem_cons_of_mem e hd)
    obtain ⟨k, v⟩ := e
    rw [saveLoop, hkey, hvalue]
    dsimp only [Option.bind_eq_bind, Option.bind_some]
    rw [hes]
    rfl

/-- The header of a section is read before its first entry. -/
theorem feed_header {k sec name : Text} (hsplit : Split k sec name)
    (hlen : sec.length + 3 < maxLine) (s : Loader) (prevSection rest : Text) :
    feed s ((if prevSection ≠ sec then '\n' :: '[' :: sec ++ [']', '\n'] else []) ++ rest) =
      feed (if prevSection ≠ sec then { s with sec := sec } else s) rest := by
  split
  · have hline : '\n' ∉ '[' :: sec ++ [']'] := by
      have hsec : '\n' ∉ sec := fun hmem => hsplit.secFree _ hmem (by decide)
      simp [hsec]
    have hblank : feed s ('\n' :: ('[' :: sec ++ [']', '\n'] ++ rest)) =
        feed s ('[' :: sec ++ [']', '\n'] ++ rest) :=
      feed_line (l := []) (by simp) (by decide)
    have hsection : '[' :: sec ++ [']', '\n'] ++ rest = ('[' :: sec ++ [']']) ++ '\n' :: rest := by
      simp
    have hend : ('[' :: sec ++ [']']) ++ ['\n'] = '[' :: sec ++ [']', '\n'] := by simp
    have hroom : ('[' :: sec ++ [']']).length < maxLine - 1 := by
      rw [List.length_append, List.length_cons, List.length_singleton]
      omega
    show feed s ('\n' :: ('[' :: sec ++ [']', '\n'] ++ rest)) = _
    rw [hblank, hsection, feed_line hline hroom, hend, loadLine_section s hsplit.secFree]
  · rfl

theorem feed_body {e : Text × Text} {sec name : Text} (h : Entry e) (hfits : Fits e)
    (hsplit : Split e.1 sec name) (s : Loader) (rest : Text) :
    feed s (body name e.2 ++ rest) = feed (loadLine s (body name e.2)) rest := by
  have hline : '\n' ∉ pad name ++ ['=', ' '] ++ e.2 := by
    have hname : '\n' ∉ pad name := fun hmem => pad_free hsplit.nameFree _ hmem (by decide)
    have hvalue : '\n' ∉ e.2 := fun hmem => h.value.2 _ hmem (by decide)
    simp [hname, hvalue]
  have hroom : (pad name ++ ['=', ' '] ++ e.2).length < maxLine - 1 := by
    have hlen := hfits.2.2
    rw [hsplit.token] at hlen
    dsimp only [body] at hlen
    rw [List.length_append, List.length_singleton] at hlen
    omega
  have hend : body name e.2 ++ rest = (pad name ++ ['=', ' '] ++ e.2) ++ '\n' :: rest := by
    unfold body
    simp
  rw [hend, feed_line hline hroom]
  rfl

/-- The key under which an entry is found after it was saved. -/
def savedKey (k : Text) : Text :=
  trim (getToken k ['.']).2.1 ++ '.' :: trim (getToken k ['.']).2.2

/-- Entries whose names do not begin like a section are all read back. -/
theorem feed_saved {es : List (Text × Text)} (h : ∀ e ∈ es, Entry e ∧ Fits e)
    (hhead : ∀ e ∈ es, (getToken e.1 ['.']).2.2.head? ≠ some '[') {s : Loader} {prevSection : Text}
    (hsec : trim s.sec = trim prevSection) :
    (feed s (saved prevSection es)).kvMap =
      es.foldl (fun m e => set (savedKey e.1) e.2 m) s.kvMap := by
  induction es generalizing s prevSection with
  | nil => rfl
  | cons e es ih =>
    obtain ⟨hentry, hfits⟩ := h e List.mem_cons_self
    obtain ⟨sec, name, hsplit⟩ := hentry.split
    have hname := hhead e List.mem_cons_self
    have hlen := hfits.2.1
    rw [hsplit.token] at hname hlen
    set s' : Loader := if prevSection ≠ sec then { s with sec := sec } else s with hs'
    have hsec' : trim s'.sec = trim sec := by
      rw [hs']
      split
      · rfl
      · rename_i heq
        rw [hsec, not_not.mp heq]
    have hmap : s'.kvMap = s.kvMap := by
      rw [hs']
      split <;> rfl
    have hidem : trim (trimEnd s'.sec) = trim sec := by
      rw [← hsec']
      unfold trim trimEnd
      rw [List.rdropWhile_idempotent]
    have hkey : savedKey e.1 = trim s'.sec ++ '.' :: trim name := by
      rw [savedKey, hsplit.token, hsec']
    have hrest := ih (fun d hd => h d (List.mem_cons_of_mem e hd))
      (fun d hd => hhead d (List.mem_cons_of_mem e hd))
      (s := ⟨trimEnd s'.sec, Ini.set (trim s'.sec ++ '.' :: trim name) e.2 s'.kvMap⟩) hidem
    rw [saved, hsplit.token]
    dsimp only
    rw [List.append_assoc, feed_header hsplit hlen, feed_body hentry hfits hsplit, ← hs',
      loadLine_body hsplit.nameFree hsplit.nameLast hentry.value.2 hentry.value.1 s' hname, hrest,
      hmap, List.foldl_cons, hkey]

/-- A name that begins like a section costs its entry. -/
theorem feed_saved_length {es : List (Text × Text)} (h : ∀ e ∈ es, Entry e ∧ Fits e) (s : Loader)
    (prevSection : Text) : (feed s (saved prevSection es)).kvMap.length ≤ s.kvMap.length +
      (es.filter fun e => (getToken e.1 ['.']).2.2.head? ≠ some '[').length := by
  induction es generalizing s prevSection with
  | nil => exact Nat.le_refl _
  | cons e es ih =>
    obtain ⟨hentry, hfits⟩ := h e List.mem_cons_self
    obtain ⟨sec, name, hsplit⟩ := hentry.split
    have hlen := hfits.2.1
    rw [hsplit.token] at hlen
    set s' : Loader := if prevSection ≠ sec then { s with sec := sec } else s with hs'
    have hmap : s'.kvMap = s.kvMap := by
      rw [hs']
      split <;> rfl
    have hrest := ih (fun d hd => h d (List.mem_cons_of_mem e hd)) (loadLine s' (body name e.2)) sec
    rw [saved, hsplit.token]
    dsimp only
    rw [List.append_assoc, feed_header hsplit hlen, feed_body hentry hfits hsplit, ← hs']
    by_cases hname : name.head? = some '['
    · rw [loadLine_bracket hsplit.nameFree hentry.value.2 s' hname, hmap] at hrest
      rwa [List.filter_cons_of_neg (by simp [hsplit.token, hname])]
    · rw [loadLine_body hsplit.nameFree hsplit.nameLast hentry.value.2 hentry.value.1 s' hname,
        hmap] at hrest ⊢
      rw [List.filter_cons_of_pos (by simp [hsplit.token, hname]), List.length_cons]
      have hset : (Ini.set (trim s'.sec ++ '.' :: trim name) e.2 s.kvMap).length ≤
        s.kvMap.length + 1 := length_set
      dsimp only at hrest
      omega

section Keys
variable {k sec name : Text}

theorem Split.savedKey_of_plain (h : Split k sec name) (hplain : Plain k) : savedKey k = k := by
  unfold Plain at hplain
  rw [h.token] at hplain
  have hsec : trim sec = sec := (⟨h.secHead, hplain.1⟩ : Trimmed isspace sec).trim
  have hname : trim name = name := by
    refine (⟨fun c hc => (hplain.2 c hc).1, fun c hc => ?_⟩ : Trimmed isspace name).trim
    obtain ⟨d, hd, hspace⟩ := h.nameLast
    obtain rfl : d = c := Option.some.inj (hd.symm.trans hc)
    exact hspace
  rw [savedKey, h.token, hsec, hname, ← h.key]

/-- No key with blanks beside its dot is found again. -/
theorem plain_savedKey (k : Text) (hhead : (getToken (savedKey k) ['.']).2.2.head? ≠ some '[') :
    Plain (savedKey k) := by
  have hdot : Free ['.'] (trim (getToken k ['.']).2.1) := by
    have htoken : Free ['.'] (getToken k ['.']).2.1 := by
      rcases getToken_cases k ['.'] with ⟨hfree, heq⟩ | ⟨l, c, r, -, hl, -, heq⟩
      · rwa [heq]
      · rwa [heq]
    exact htoken.subset (trim_subset _)
  have htoken : getToken (savedKey k) ['.'] =
      ('.', trim (getToken k ['.']).2.1, trim (getToken k ['.']).2.2) :=
    getToken_append hdot (by decide)
  unfold Plain
  rw [htoken] at hhead ⊢
  refine ⟨(trimmed_trim _ _).last, fun c hc => ⟨(trimmed_trim _ _).head c hc, ?_⟩⟩
  rintro rfl
  exact hhead hc

end Keys

section Fold
variable {es : List (Text × Text)}

theorem foldl_set_sorted (h : SortedMap.Sorted es) {m : List (Text × Text)}
    (hm : ∀ d ∈ m, ∀ e ∈ es, d.1 < e.1) :
    es.foldl (fun m e => set e.1 e.2 m) m = m ++ es := by
  induction es generalizing m with
  | nil => exact (List.append_nil m).symm
  | cons e es ih =>
    obtain ⟨he, hes⟩ := List.pairwise_cons.mp h
    rw [List.foldl_cons, set_append fun d hd => hm d hd e List.mem_cons_self, ih hes]
    · simp
    · intro d hd d' hd'
      rcases List.mem_append.mp hd with hd | hd
      · exact hm d hd d' (List.mem_cons_of_mem e hd')
      · rw [List.mem_singleton.mp hd]
        exact he d' hd'

theorem mem_foldl_set {m : List (Text × Text)} {d : Text × Text}
    (h : d ∈ es.foldl (fun m e => set (savedKey e.1) e.2 m) m) :
    d ∈ m ∨ ∃ e ∈ es, d.1 = savedKey e.1 := by
  induction es generalizing m with
  | nil => exact .inl h
  | cons e es ih =>
    rcases ih h with hd | ⟨e', he', heq⟩
    · rcases mem_set hd with rfl | hd
      · exact .inr ⟨e, List.mem_cons_self, rfl⟩
      · exact .inl hd
    · exact .inr ⟨e', List.mem_cons_of_mem e he', heq⟩

end Fold

/-- The file that `save` writes is loaded to the same map. -/
def RoundTrips (kvMap : List (Text × Text)) : Prop := (save kvMap).map load = some kvMap

instance (kvMap : List (Text × Text)) : Decidable (RoundTrips kvMap) :=
  inferInstanceAs (Decidable (_ = _))

theorem RoundTrips.plain {es : List (Text × Text)} (hentries : ∀ e ∈ es, Entry e ∧ Fits e)
    (h : (feed ⟨[], []⟩ (saved [] es)).kvMap = es) : ∀ e ∈ es, Plain e.1 := by
  have hhead : ∀ e ∈ es, (getToken e.1 ['.']).2.2.head? ≠ some '[' := by
    -- otherwise the map that is loaded is shorter
    by_contra! hbad
    obtain ⟨e, he, hbracket⟩ := hbad
    have hlen := feed_saved_length hentries ⟨[], []⟩ []
    rw [h] at hlen
    have hlt : (es.filter fun e => (getToken e.1 ['.']).2.2.head? ≠ some '[').length <
        es.length := by
      rw [List.length_filter_lt_length_iff_exists]
      exact ⟨e, he, by simp [hbracket]⟩
    simp only [List.length_nil] at hlen
    omega
  intro e he
  rw [feed_saved hentries hhead rfl] at h
  have hmem := he
  rw [← h] at hmem
  rcases mem_foldl_set hmem with hnil | ⟨d, -, hkey⟩
  · cases hnil
  · rw [hkey]
    refine plain_savedKey d.1 ?_
    rw [← hkey]
    exact hhead e he

/-- A loaded map that fits into the buffers is saved and loaded again unchanged exactly when all its
keys are plain. -/
theorem roundTrips_load_iff (file : Text) (hfits : ∀ e ∈ load file, Fits e) :
    RoundTrips (load file) ↔ ∀ e ∈ load file, Plain e.1 := by
  obtain ⟨hsorted, hentry⟩ := load_facts file
  have hentries : ∀ e ∈ load file, Entry e ∧ Fits e := fun e he => ⟨hentry e he, hfits e he⟩
  have hsave : save (load file) = some (saved [] (load file)) := saveLoop_eq hfits []
  have hfeed : RoundTrips (load file) ↔
      (feed ⟨[], []⟩ (saved [] (load file))).kvMap = load file := by
    unfold RoundTrips
    rw [hsave, Option.map_some, Option.some_inj]
    rfl
  rw [hfeed]
  constructor
  · exact RoundTrips.plain hentries
  · intro hplain
    have hhead : ∀ e ∈ load file, (getToken e.1 ['.']).2.2.head? ≠ some '[' :=
      fun e he hbracket => (((hplain e he).2 _ hbracket).2 rfl).elim
    have hkeys : ∀ e ∈ load file, savedKey e.1 = e.1 := by
      intro e he
      obtain ⟨sec, name, hsplit⟩ := (hentry e he).split
      exact hsplit.savedKey_of_plain (hplain e he)
    rw [feed_saved hentries hhead rfl,
      List.foldl_ext _ (fun m e => set e.1 e.2 m) _ fun m e he => by rw [hkeys e he],
      foldl_set_sorted hsorted fun d hd => (by cases hd)]
    rfl

theorem twoSections_roundTrip :
    (∀ e ∈ load "a=1\n[s t]\nb = x y ;c\n".toList, Fits e) ∧
      RoundTrips (load "a=1\n[s t]\nb = x y ;c\n".toList) := by
  have hfits : ∀ e ∈ load "a=1\n[s t]\nb = x y ;c\n".toList, Fits e := by
    unfold Fits
    decide +kernel
  refine ⟨hfits, (roundTrips_load_iff _ hfits).mpr ?_⟩
  decide +kernel

/-- A name that begins with a bracket is lost. -/
theorem bracketName_not_roundTrips : ¬ RoundTrips (load " [x=3\n".toList) := by
  decide +kernel

end YwStorage.Ini
