import YwStorage.Ini.Basic
import YwStorage.Lib.Tokens
import YwStorage.Lib.SortedMap

/-! What `load` puts into its map. -/
namespace YwStorage.Ini
open Tokens

variable {l r sep : Text} {c : Char}

/-- None of the characters `bad` occurs. -/
def Free (bad l : Text) : Prop := ∀ c ∈ l, c ∉ bad

instance (bad l : Text) : Decidable (Free bad l) := List.decidableBAll (fun c => c ∉ bad) l

theorem exist_eq (c : Char) (targets : Text) : exist c targets = decide (c ∈ targets) := by
  unfold exist
  rw [Bool.eq_iff_iff]
  simp

theorem Free.exist (h : Free sep l) : ∀ a ∈ l, (!exist a sep) = true := by
  intro a ha
  simp [exist_eq, h a ha]

theorem getToken_append (hl : Free sep l) (hc : c ∈ sep) :
    getToken (l ++ c :: r) sep = (c, l, r) := by
  have hstop : (!exist c sep) = false := by simp [exist_eq, hc]
  unfold getToken search
  rw [takeWhile_append_cons hl.exist hstop, dropWhile_append_cons hl.exist hstop]
  rfl

theorem getToken_of_free (hl : Free sep l) : getToken l sep = (nul, l, []) := by
  unfold getToken search
  rw [List.dropWhile_eq_nil_iff.mpr hl.exist, List.takeWhile_eq_self_iff.mpr hl.exist]
  rfl

/-- A text has no separator, or it is cut at the first one. -/
theorem getToken_cases (ptr sep : Text) :
    (Free sep ptr ∧ getToken ptr sep = (nul, ptr, [])) ∨
    ∃ l c r, ptr = l ++ c :: r ∧ Free sep l ∧ c ∈ sep ∧ getToken ptr sep = (c, l, r) := by
  induction ptr with
  | nil => exact .inl ⟨fun _ h => (by cases h), rfl⟩
  | cons a ptr ih =>
    by_cases ha : a ∈ sep
    · have hnil : Free sep [] := fun _ h => by cases h
      exact .inr ⟨[], a, ptr, rfl, hnil, ha, getToken_append hnil ha⟩
    · have hcons : ∀ l, Free sep l → Free sep (a :: l) := by
        intro l hl b hb
        rcases List.mem_cons.mp hb with rfl | hb
        · exact ha
        · exact hl b hb
      rcases ih with ⟨hfree, -⟩ | ⟨l, c, r, rfl, hl, hc, -⟩
      · exact .inl ⟨hcons _ hfree, getToken_of_free (hcons _ hfree)⟩
      · exact .inr ⟨a :: l, c, r, rfl, hcons l hl, hc, getToken_append (hcons l hl) hc⟩

theorem Free.subset {bad l' : Text} (h : Free bad l) (hl : l' ⊆ l) : Free bad l' :=
  fun a ha => h a (hl ha)

theorem Free.mono {bad bad' : Text} (h : Free bad l) (hbad : bad' ⊆ bad) : Free bad' l :=
  fun a ha hbad' => h a ha (hbad hbad')

theorem Free.append {bad bad' : Text} (h : Free bad l) (h' : Free bad' l) : Free (bad ++ bad') l :=
  fun a ha hbad => (List.mem_append.mp hbad).elim (h a ha) (h' a ha)

/-- No newline but at the end, as in the lines that `fgets` returns. -/
def OneLine (l : Text) : Prop := ∃ l', '\n' ∉ l' ∧ (l = l' ∨ l = l' ++ ['\n'])

theorem OneLine.before {l' : Text} (h : OneLine (l ++ c :: l')) (hc : c ≠ '\n') :
    '\n' ∉ l ∧ OneLine l' := by
  obtain ⟨k, hk, heq | heq⟩ := h
  · subst heq
    simp only [List.mem_append, List.mem_cons, not_or] at hk
    exact ⟨hk.1, l', hk.2.2, .inl rfl⟩
  · rcases List.eq_nil_or_concat l' with rfl | ⟨m, d, rfl⟩
    · have hlast := congrArg List.getLast? heq
      simp at hlast
      exact absurd hlast hc
    · have hsplit : (l ++ c :: m) ++ [d] = k ++ ['\n'] := by
        rw [← heq]
        simp
      obtain ⟨rfl, hd⟩ := List.append_inj' hsplit rfl
      simp only [List.mem_append, List.mem_cons, not_or] at hk
      exact ⟨hk.1, m, hk.2.2, .inr (by rw [(List.cons.inj hd).1, List.concat_eq_append])⟩

theorem OneLine.left {l' : Text} (h : OneLine (l ++ l')) : OneLine l := by
  obtain ⟨k, hk, heq | heq⟩ := h
  · subst heq
    exact ⟨l, fun hl => hk (List.mem_append_left _ hl), .inl rfl⟩
  · rcases List.eq_nil_or_concat l' with rfl | ⟨m, d, rfl⟩
    · rw [List.append_nil] at heq
      exact ⟨k, hk, .inr heq⟩
    · have hsplit : (l ++ m) ++ [d] = k ++ ['\n'] := by
        rw [← heq]
        simp
      obtain ⟨rfl, -⟩ := List.append_inj' hsplit rfl
      exact ⟨l, fun hl => hk (List.mem_append_left _ hl), .inl rfl⟩

/-- A newline at the end is trimmed away. -/
theorem OneLine.trim (h : OneLine l) : '\n' ∉ trim l := by
  obtain ⟨k, hk, rfl | rfl⟩ := h
  · exact fun hmem => hk (trim_subset _ hmem)
  · have heq : Ini.trim (k ++ ['\n']) = Ini.trim k :=
      trim_append (List.forall_mem_singleton.mpr rfl)
    rw [heq]
    exact fun hmem => hk (trim_subset _ hmem)

theorem fgetsAll_oneLine {room : ℕ} {line file : Text} (h : '\n' ∉ line) :
    ∀ buf ∈ fgetsAll room line file, OneLine buf := by
  induction file generalizing room line with
  | nil =>
    intro buf hbuf
    unfold fgetsAll at hbuf
    split at hbuf
    · cases hbuf
    · rw [List.mem_singleton.mp hbuf]
      exact ⟨line, h, .inl rfl⟩
  | cons c cs ih =>
    intro buf hbuf
    rw [fgetsAll] at hbuf
    have hline : c ≠ '\n' → '\n' ∉ line ++ [c] := by
      intro hc hmem
      rcases List.mem_append.mp hmem with hmem | hmem
      · exact h hmem
      · exact hc (List.mem_singleton.mp hmem).symm
    split at hbuf
    · rcases List.mem_cons.mp hbuf with rfl | hbuf
      · by_cases hc : c = '\n'
        · subst hc
          exact ⟨line, h, .inr rfl⟩
        · exact ⟨line ++ [c], hline hc, .inl rfl⟩
      · exact ih (by simp) buf hbuf
    · rename_i hc
      exact ih (hline fun heq => hc (.inl heq)) buf hbuf

section Set
variable {es : List (Text × Text)} {key value : Text}

theorem mem_set {e : Text × Text} (h : e ∈ set key value es) : e = (key, value) ∨ e ∈ es := by
  induction es with
  | nil => exact .inl (List.mem_singleton.mp h)
  | cons d es ih =>
    rw [set] at h
    split at h
    · exact (List.mem_cons.mp h)
    · split at h
      · exact (List.mem_cons.mp h).imp_right (List.mem_cons_of_mem d)
      · rcases List.mem_cons.mp h with rfl | h
        · exact .inr List.mem_cons_self
        · exact (ih h).imp_right (List.mem_cons_of_mem d)

theorem length_set : (set key value es).length ≤ es.length + 1 := by
  induction es with
  | nil => exact Nat.le_refl _
  | cons d es ih =>
    rw [set]
    split
    · exact Nat.le_refl _
    · split
      · exact Nat.le_succ _
      · exact Nat.succ_le_succ ih

theorem set_sorted (h : SortedMap.Sorted es) : SortedMap.Sorted (set key value es) := by
  induction es with
  | nil => exact List.pairwise_singleton _ _
  | cons d es ih =>
    obtain ⟨hd, hes⟩ := List.pairwise_cons.mp h
    rw [set]
    split
    · rename_i hlt
      refine List.pairwise_cons.mpr ⟨fun e he => ?_, h⟩
      rcases List.mem_cons.mp he with rfl | he
      · exact hlt
      · exact lt_trans hlt (hd e he)
    · rename_i hge
      split
      · rename_i heq
        exact List.pairwise_cons.mpr ⟨fun e he => heq ▸ hd e he, hes⟩
      · rename_i hne
        refine List.pairwise_cons.mpr ⟨fun e he => ?_, ih hes⟩
        rcases mem_set he with rfl | he
        · exact lt_of_le_of_ne (not_lt.mp hge) (Ne.symm hne)
        · exact hd e he

/-- A key above all others goes to the end. -/
theorem set_append (h : ∀ e ∈ es, e.1 < key) : set key value es = es ++ [(key, value)] := by
  induction es with
  | nil => rfl
  | cons d es ih =>
    have hd := h d List.mem_cons_self
    rw [set, if_neg (lt_asymm hd), if_neg (ne_of_gt hd),
      ih fun e he => h e (List.mem_cons_of_mem d he)]
    rfl

end Set

/-- The shape of a key and a value that were loaded. -/
structure Entry (e : Text × Text) : Prop where
  key : ∃ sec name, e.1 = sec ++ '.' :: name ∧ Trimmed isspace sec ∧ Trimmed isspace name ∧
    name ≠ [] ∧ Free [']', ';', '#', ':', '=', '\n', nul] sec ∧
    Free [':', '=', ';', '#', '\n', nul] name
  value : Trimmed isspace e.2 ∧ Free [';', '#', '\n', nul] e.2

structure Loaded (s : Loader) : Prop where
  sec : OneLine s.sec ∧ Free [']', ';', '#', ':', '=', nul] s.sec
  entries : ∀ e ∈ s.kvMap, Entry e
  sorted : SortedMap.Sorted s.kvMap

theorem trim_free {bad : Text} (hline : OneLine l) (h : Free bad l) :
    Free ('\n' :: bad) (trim l) := by
  intro a ha hbad
  rcases List.mem_cons.mp hbad with rfl | hbad
  · exact hline.trim ha
  · exact h a (trim_subset _ ha) hbad

/-- The C string in a buffer. -/
theorem cstr_facts {buf : Text} (h : OneLine buf) :
    OneLine (buf.takeWhile fun c => c != nul) ∧ Free [nul] (buf.takeWhile fun c => c != nul) := by
  constructor
  · have hsplit := List.takeWhile_append_dropWhile (p := fun c => c != nul) (l := buf)
    rw [← hsplit] at h
    exact h.left
  · intro a ha hbad
    have := List.mem_takeWhile_imp ha
    rw [List.mem_singleton.mp hbad] at this
    simp at this

theorem loaded_entry {s : Loader} {line : Text} (h : Loaded s) (hline : OneLine line)
    (hnul : Free [nul] line) : Loaded (loadEntry s line) := by
  unfold loadEntry
  rcases getToken_cases line [':', '=', ';', '#'] with
    ⟨-, heq⟩ | ⟨name, c, ptr, rfl, hname, hc, heq⟩
  · have hstop : ¬ exist nul [':', '=', ' '] = true := by decide
    rw [heq]
    dsimp only
    rw [if_neg hstop]
    exact h
  · rw [heq]
    dsimp only
    split
    · split
      · rename_i hne
        have hcn : c ≠ '\n' := by
          rintro rfl
          exact absurd hc (by decide)
        obtain ⟨hnl, hptr⟩ := hline.before hcn
        have hptrnul : Free [nul] ptr := hnul.subset fun a ha => by simp [ha]
        have hnamenul : Free [nul] name := hnul.subset fun a ha => by simp [ha]
        have hvalue : OneLine (getToken ptr [';', '#']).2.1 ∧
            Free ([';', '#'] ++ [nul]) (getToken ptr [';', '#']).2.1 := by
          rcases getToken_cases ptr [';', '#'] with ⟨hfree, heq⟩ | ⟨v, d, r, rfl, hv, -, heq⟩
          · rw [heq]
            exact ⟨hptr, hfree.append hptrnul⟩
          · rw [heq]
            exact ⟨hptr.left, hv.append (hptrnul.subset fun a ha => by simp [ha])⟩
        have hsec := trim_free h.sec.1 h.sec.2
        refine ⟨⟨?_, h.sec.2.subset (List.rdropWhile_prefix _ _).subset⟩, fun e he => ?_,
          set_sorted h.sorted⟩
        · have hsplit := List.rdropWhile_append_rtakeWhile (p := isspace) (l := s.sec)
          have hone := h.sec.1
          rw [← hsplit] at hone
          exact hone.left
        · rcases mem_set he with rfl | he
          · refine ⟨⟨trim s.sec, trim name, rfl, trimmed_trim _ _, trimmed_trim _ _, ?_,
              hsec.mono (by decide), ?_⟩, trimmed_trim _ _, ?_⟩
            · exact fun hnil => hne (by rw [hnil]; rfl)
            · refine Free.subset ?_ (trim_subset name)
              have hname' : Free ['\n'] name :=
                fun a ha hbad => hnl (List.mem_singleton.mp hbad ▸ ha)
              exact ((hname.append hnamenul).append hname').mono (by decide)
            · exact (trim_free hvalue.1 hvalue.2).mono (by decide)
          · exact h.entries e he
      · exact h
    · exact h

theorem loaded_line {s : Loader} {buf : Text} (h : Loaded s) (hbuf : OneLine buf) :
    Loaded (loadLine s buf) := by
  obtain ⟨hline, hnul⟩ := cstr_facts hbuf
  unfold loadLine
  dsimp only
  generalize (buf.takeWhile fun c => c != nul) = line at hline hnul ⊢
  split
  · exact h
  · exact h
  · rename_i hhead
    cases line with
    | nil => exact absurd hhead (by decide)
    | cons c ptr =>
      obtain rfl : c = '[' := hhead
      have hptr : OneLine ptr := (OneLine.before (l := []) hline (by decide)).2
      have hptrnul : Free [nul] ptr := hnul.subset (List.subset_cons_self _ _)
      refine ⟨?_, h.entries, h.sorted⟩
      rw [List.drop_one, List.tail_cons]
      rcases getToken_cases ptr [']', ';', '#', ':', '='] with
        ⟨hfree, heq⟩ | ⟨v, d, r, rfl, hv, -, heq⟩
      · rw [heq]
        exact ⟨hptr, (hfree.append hptrnul).mono (by decide)⟩
      · rw [heq]
        exact ⟨hptr.left,
          (hv.append (hptrnul.subset fun a ha => by simp [ha])).mono (by decide)⟩
  · exact loaded_entry h hline hnul

theorem loaded_nil : Loaded ⟨[], []⟩ :=
  ⟨⟨⟨[], by simp, .inl rfl⟩, fun _ h => (by cases h)⟩, fun _ h => (by cases h),
    List.Pairwise.nil⟩

theorem loaded_foldl {s : Loader} {bufs : List Text} (h : Loaded s)
    (hbufs : ∀ buf ∈ bufs, OneLine buf) : Loaded (bufs.foldl loadLine s) := by
  induction bufs generalizing s with
  | nil => exact h
  | cons buf bufs ih =>
    exact ih (loaded_line h (hbufs buf List.mem_cons_self))
      fun b hb => hbufs b (List.mem_cons_of_mem buf hb)

/-- What `load` returns is sorted and made of such entries. -/
theorem load_facts (file : Text) :
    SortedMap.Sorted (load file) ∧ ∀ e ∈ load file, Entry e := by
  have hlines : ∀ buf ∈ fgetsAll (maxLine - 1) [] file, OneLine buf := fgetsAll_oneLine (by simp)
  have h := loaded_foldl loaded_nil hlines
  exact ⟨h.sorted, h.entries⟩

end YwStorage.Ini
