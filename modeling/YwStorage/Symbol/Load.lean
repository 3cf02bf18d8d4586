import YwStorage.Symbol.Find
import YwStorage.Symbol.Lines

/-!
`load`, which collects the bytes of a file in a buffer. `readline` does not touch the buffer, so
the calls are collected with the memory each of them sees; `none` is a write behind the buffer.
-/
namespace YwStorage.Symbol
open SortedMap

def bufferSize : ℕ := 1024

structure Loader where
  buffer : Text
  ptr : ℕ
  calls : List Text

/-- A turn of the loop; `buffer` is seen by `readline` with its newline cleared. -/
def readByte (s : Loader) (c : Char) : Option Loader :=
  if s.ptr < s.buffer.length then
    let buffer := s.buffer.set s.ptr c
    if c = '\n' then
      let buffer := buffer.set s.ptr nul
      some { buffer := buffer, ptr := 0, calls := s.calls ++ [buffer] }
    else some { s with buffer := buffer, ptr := s.ptr + 1 }
  else none

/-- The call behind the loop. The `read` that finds the end of the file has moved the pointer
too. -/
def lastCall (s : Loader) : Option (List Text) :=
  if s.ptr + 1 < s.buffer.length then some (s.calls ++ [s.buffer.set (s.ptr + 1) nul]) else none

/-- The memory that each call of `readline` sees. -/
def calls (buffer file : Text) : Option (List Text) :=
  (file.foldlM readByte { buffer := buffer, ptr := 0, calls := [] }).bind lastCall

def load (buffer file : Text) : Option Table := (calls buffer file).bind readLines

/-- Everything is written inside the buffer, every call reads no further than its terminator, and
the table is that of the lines of the file. -/
def LoadsSafely (buffer file : Text) : Prop :=
  ∃ bufs table, calls buffer file = some bufs ∧ (∀ buf ∈ bufs, ReadsWithin buf) ∧
    load buffer file = some table ∧
    readLines ((file.splitOn '\n').map (· ++ [nul])) = some table

variable {buffer file tail line : Text} {lines : List Text}

/-- The buffer after a line. -/
def overwrite (buffer line : Text) : Text := line ++ nul :: buffer.drop (line.length + 1)

/-- The character behind the last line, which the buffer holds from an earlier one. -/
def stale (buffer : Text) (lines : List Text) (tail : Text) : Char :=
  (lines.foldl overwrite buffer).getD tail.length nul

/-- Every line is followed by a newline, except for the last one. -/
theorem exists_splitOn (file : Text) :
    ∃ lines tail, file.splitOn '\n' = lines ++ [tail] ∧
      file = lines.flatMap (· ++ ['\n']) ++ tail ∧ (∀ line ∈ lines, '\n' ∉ line) ∧
      '\n' ∉ tail := by
  induction file with
  | nil => exact ⟨[], [], by simp⟩
  | cons c file ih =>
    obtain ⟨lines, tail, hsplit, hfile, hlines, htail⟩ := ih
    rw [List.splitOn, List.splitOnP_cons_eq_if_modifyHead, ← List.splitOn, hsplit]
    by_cases hc : c = '\n'
    · refine ⟨[] :: lines, tail, by simp [hc], by simp [hc, ← hfile], ?_, htail⟩
      exact List.forall_mem_cons.mpr ⟨by simp, hlines⟩
    · have hnot : ∀ {l : Text}, '\n' ∉ l → '\n' ∉ c :: l := by
        simp [Ne.symm hc]
      rw [if_neg (by simpa using hc)]
      cases lines with
      | nil => exact ⟨[], c :: tail, rfl, by simp [hfile], by simp, hnot htail⟩
      | cons line lines =>
        refine ⟨(c :: line) :: lines, tail, rfl, by simp [hfile], ?_, htail⟩
        rw [List.forall_mem_cons] at hlines ⊢
        exact ⟨hnot hlines.1, hlines.2⟩

theorem foldlM_readByte_line (hline : '\n' ∉ line) (pre suf rest : Text) (cs : List Text) :
    (line ++ rest).foldlM readByte { buffer := pre ++ suf, ptr := pre.length, calls := cs } =
      if line.length ≤ suf.length then
        rest.foldlM readByte { buffer := pre ++ line ++ suf.drop line.length,
                               ptr := pre.length + line.length, calls := cs }
      else none := by
  induction line generalizing pre suf with
  | nil => simp
  | cons c line ih =>
    obtain ⟨hc, hline⟩ := not_or.mp (List.mem_cons.not.mp hline)
    rw [List.cons_append, List.foldlM_cons]
    cases suf with
    | nil => simp [readByte]
    | cons d suf =>
      have hbyte : readByte { buffer := pre ++ d :: suf, ptr := pre.length, calls := cs } c =
          some { buffer := (pre ++ [c]) ++ suf, ptr := (pre ++ [c]).length, calls := cs } := by
        simp [readByte, Ne.symm hc]
      rw [hbyte, Option.bind_eq_bind, Option.bind_some, ih hline]
      simp [Nat.add_assoc, Nat.add_comm 1]

/-- A line with its newline leaves its terminator in the buffer. -/
theorem foldlM_readByte_newline (hline : '\n' ∉ line) (buffer rest : Text) (cs : List Text) :
    (line ++ '\n' :: rest).foldlM readByte { buffer := buffer, ptr := 0, calls := cs } =
      if line.length < buffer.length then
        rest.foldlM readByte { buffer := overwrite buffer line, ptr := 0,
                               calls := cs ++ [overwrite buffer line] }
      else none := by
  have hread := foldlM_readByte_line hline [] buffer ('\n' :: rest) cs
  rw [List.nil_append, List.length_nil] at hread
  rw [hread, List.foldlM_cons, List.nil_append, Nat.zero_add]
  by_cases hlt : line.length < buffer.length
  · have hbyte : readByte { buffer := line ++ buffer.drop line.length, ptr := line.length,
                            calls := cs } '\n' =
        some { buffer := overwrite buffer line, ptr := 0,
               calls := cs ++ [overwrite buffer line] } := by
      obtain ⟨d, hdrop⟩ : ∃ d, buffer.drop line.length = d :: buffer.drop (line.length + 1) :=
        ⟨_, List.drop_eq_getElem_cons hlt⟩
      simp [readByte, overwrite, hdrop]
    rw [if_pos hlt.le, if_pos hlt, hbyte, Option.bind_eq_bind, Option.bind_some]
  · have hdrop : buffer.drop line.length = [] := List.drop_eq_nil_of_le (not_lt.mp hlt)
    rw [if_neg hlt, hdrop]
    simp [readByte]

/-- The memory that the calls see, line by line. -/
def images : Text → List Text → Text → List Text
  | buffer, [], tail =>
    [(tail ++ [buffer.getD tail.length nul]) ++ nul :: buffer.drop (tail.length + 2)]
  | buffer, line :: lines, tail =>
    overwrite buffer line :: images (overwrite buffer line) lines tail

theorem length_overwrite (h : line.length < buffer.length) :
    (overwrite buffer line).length = buffer.length := by
  simp [overwrite]
  omega

theorem foldlM_readByte_tail (htail : '\n' ∉ tail) (buffer : Text) (cs : List Text) :
    (tail.foldlM readByte { buffer := buffer, ptr := 0, calls := cs }).bind lastCall =
      if tail.length + 1 < buffer.length then some (cs ++ images buffer [] tail) else none := by
  have hread := foldlM_readByte_line htail [] buffer [] cs
  simp only [List.nil_append, List.length_nil, List.append_nil, Nat.zero_add, List.foldlM_nil]
    at hread
  rw [hread]
  by_cases hlt : tail.length + 1 < buffer.length
  · have hk : tail.length < buffer.length := Nat.lt_of_succ_lt hlt
    obtain ⟨d, hdrop⟩ : ∃ d, buffer.drop (tail.length + 1) = d :: buffer.drop (tail.length + 2) :=
      ⟨_, List.drop_eq_getElem_cons hlt⟩
    obtain ⟨g, hstale, hdrop'⟩ : ∃ g, buffer.getD tail.length nul = g ∧
        buffer.drop tail.length = g :: buffer.drop (tail.length + 1) :=
      ⟨_, by simp [hk], List.drop_eq_getElem_cons hk⟩
    rw [if_pos hk.le, if_pos hlt, hdrop', hdrop, images, hstale]
    simp [lastCall]
  · rw [if_neg hlt]
    split_ifs with hle
    · simp [lastCall]
      omega
    · rfl

theorem foldlM_readByte (hlines : ∀ line ∈ lines, '\n' ∉ line) (htail : '\n' ∉ tail)
    (buffer : Text) (cs : List Text) :
    ((lines.flatMap (· ++ ['\n']) ++ tail).foldlM readByte
        { buffer := buffer, ptr := 0, calls := cs }).bind lastCall =
      if (∀ line ∈ lines, line.length < buffer.length) ∧ tail.length + 1 < buffer.length then
        some (cs ++ images buffer lines tail)
      else none := by
  induction lines generalizing buffer cs with
  | nil => simpa using foldlM_readByte_tail htail buffer cs
  | cons line lines ih =>
    rw [List.forall_mem_cons] at hlines
    rw [List.flatMap_cons, List.append_assoc, List.append_assoc, List.singleton_append,
      foldlM_readByte_newline hlines.1]
    by_cases hlt : line.length < buffer.length
    · rw [if_pos hlt, ih hlines.2, length_overwrite hlt]
      simp [hlt, images]
    · simp [hlt]

theorem calls_eq (hlines : ∀ line ∈ lines, '\n' ∉ line) (htail : '\n' ∉ tail) (buffer : Text) :
    calls buffer (lines.flatMap (· ++ ['\n']) ++ tail) =
      if (∀ line ∈ lines, line.length < buffer.length) ∧ tail.length + 1 < buffer.length then
        some (images buffer lines tail)
      else none :=
  foldlM_readByte hlines htail buffer []

theorem cut_append_terminated (line rest : Text) : cut (line ++ nul :: rest) = cut line := by
  by_cases h : nul ∈ line
  · exact cut_append h
  · rw [cut_append_nul h, cut_of_notMem h]

theorem map_cut_images :
    (images buffer lines tail).map cut =
      lines.map cut ++ [cut (tail ++ [stale buffer lines tail])] := by
  induction lines generalizing buffer with
  | nil =>
    rw [images, List.map_singleton, cut_append_terminated]
    rfl
  | cons line lines ih =>
    rw [images, List.map_cons, ih, overwrite, cut_append_terminated]
    rfl

theorem nul_mem_images {buf : Text} (h : buf ∈ images buffer lines tail) : nul ∈ buf := by
  induction lines generalizing buffer with
  | nil =>
    rw [List.mem_singleton.mp h]
    simp
  | cons line lines ih =>
    rcases List.mem_cons.mp h with rfl | h
    · simp [overwrite]
    · exact ih h

theorem forall_images_iff :
    (∀ buf ∈ images buffer lines tail, ReadsWithin buf) ↔
      (∀ line ∈ lines, Closed (cut line)) ∧ Closed (cut (tail ++ [stale buffer lines tail])) := by
  have hmap : (∀ buf ∈ images buffer lines tail, ReadsWithin buf) ↔
      ∀ text ∈ (images buffer lines tail).map cut, Closed text := by
    rw [List.forall_mem_map]
    refine forall₂_congr fun buf hbuf => ?_
    rw [readsWithin_iff]
    exact and_iff_right (nul_mem_images hbuf)
  rw [hmap, map_cut_images, List.forall_mem_append, List.forall_mem_map, List.forall_mem_singleton]

/-- The table of some texts. -/
def tableOf (texts : List Text) : Table :=
  texts.foldl (fun table text => store table (symbol text)) []

theorem readLines_eq {bufs : List Text} (h : ∀ buf ∈ bufs, ReadsWithin buf) :
    readLines bufs = some (tableOf (bufs.map cut)) := by
  rw [readLines, tableOf, List.foldl_map]
  generalize ([] : Table) = table
  induction bufs generalizing table with
  | nil => rfl
  | cons buf bufs ih =>
    rw [List.forall_mem_cons] at h
    rw [List.foldlM_cons, h.1.readline_eq]
    exact ih h.2 _

theorem tableOf_concat (texts : List Text) (text : Text) :
    tableOf (texts ++ [text]) = store (tableOf texts) (symbol text) := by
  rw [tableOf, List.foldl_append]
  rfl

instance : Decidable (Closed line) := inferInstanceAs (Decidable (_ → _))

/-- A further character at the end of a line leaves the table as it is. -/
def Unread (table : Table) (tail : Text) (g : Char) : Prop :=
  address tail = 0 ∨
    afterType tail = none ∧ (afterType (tail ++ [g]) = none ∨ (address tail, []) ∈ table)

theorem store_concat_iff {table : Table} (hs : Sorted table) (tail : Text) (g : Char) :
    store table (symbol (tail ++ [g])) = store table (symbol tail) ↔ Unread table tail g := by
  cases htype : afterType tail with
  | none =>
    cases hg : afterType (tail ++ [g]) with
    | none => simp [symbol, Unread, htype, hg]
    | some name =>
      obtain ⟨rfl, hblank⟩ := afterType_concat_of_none htype hg
      by_cases hzero : address tail = 0
      · simp [symbol, Unread, htype, hg, address_append hblank, hzero]
      · simp [symbol, Unread, htype, hg, address_append hblank, hzero, store, put_eq_self_iff hs]
  | some name =>
    have hblank := blank_mem_of_afterType htype
    by_cases hzero : address tail = 0
    · simp [symbol, Unread, htype, afterType_concat htype, address_append hblank, hzero]
    · have hne : put (address tail) (name ++ [g]) table ≠ put (address tail) name table := by
        intro heq
        have hmem : (address tail, name ++ [g]) ∈ put (address tail) name table := by
          rw [← heq, mem_put hs]
          exact .inl rfl
        rcases (mem_put hs).mp hmem with hname | ⟨-, hname⟩
        · simp at hname
        · exact hname rfl
      simp [symbol, Unread, htype, afterType_concat htype, address_append hblank, hzero, store, hne]

/-- The lines fit, none of them ends with a blank before its type has been found, and the
character that is left behind the last line makes no difference. -/
structure Loadable (buffer : Text) (lines : List Text) (tail : Text) : Prop where
  lines_fit : ∀ line ∈ lines, line.length < bufferSize
  tail_fits : tail.length + 1 < bufferSize
  lines_closed : ∀ line ∈ lines, Closed (cut line)
  tail_closed : Closed (cut tail)
  stale_closed : Closed (cut (tail ++ [stale buffer lines tail]))
  stale_unread : nul ∈ tail ∨ stale buffer lines tail = nul ∨ address tail = 0 ∨
    afterType tail = none ∧ (afterType (tail ++ [stale buffer lines tail]) = none ∨
      recorded (lines.map (· ++ [nul])) (address tail) = some [])

theorem readsWithin_terminated : ReadsWithin (line ++ [nul]) ↔ Closed (cut line) := by
  rw [readsWithin_iff, cut_append_terminated]
  exact and_iff_right (by simp)

theorem readLines_lines (h : ∀ line ∈ lines, Closed (cut line)) :
    readLines (lines.map (· ++ [nul])) = some (tableOf (lines.map cut)) := by
  rw [readLines_eq, List.map_map]
  · exact congrArg (some ∘ tableOf)
      (List.map_congr_left fun line _ => cut_append_terminated line [])
  · exact List.forall_mem_map.mpr fun line hline => readsWithin_terminated.mpr (h line hline)

theorem tables_eq_iff (hlines : ∀ line ∈ lines, Closed (cut line)) (g : Char) :
    tableOf (lines.map cut ++ [cut (tail ++ [g])]) = tableOf (lines.map cut ++ [cut tail]) ↔
      nul ∈ tail ∨ g = nul ∨ address tail = 0 ∨
        afterType tail = none ∧ (afterType (tail ++ [g]) = none ∨
          recorded (lines.map (· ++ [nul])) (address tail) = some []) := by
  have hholds := readLines_holds (readLines_lines hlines)
  rw [hholds.represents (address tail) [], tableOf_concat, tableOf_concat]
  by_cases hmem : nul ∈ tail
  · simp [hmem, cut_append hmem]
  · by_cases hg : g = nul
    · simp [hg, cut_append_terminated]
    · have hcut : cut (tail ++ [g]) = tail ++ [g] := cut_of_notMem (by simp [hmem, Ne.symm hg])
      rw [hcut, cut_of_notMem hmem, store_concat_iff hholds.sorted, Unread]
      simp [hmem, hg]

theorem calls_of_splitOn (hfile : file.splitOn '\n' = lines ++ [tail]) (buffer : Text) :
    calls buffer file =
      if (∀ line ∈ lines, line.length < buffer.length) ∧ tail.length + 1 < buffer.length then
        some (images buffer lines tail)
      else none := by
  obtain ⟨lines', tail', hsplit, heq, hlines, htail⟩ := exists_splitOn file
  rw [hsplit] at hfile
  obtain ⟨rfl, htails⟩ := List.append_inj' hfile rfl
  cases htails
  rw [heq, calls_eq hlines htail]

/-- The last line is closed if it can be read on its own and with a further character. -/
theorem closed_of_readLines {table : Table} {g : Char}
    (hread : readLines ((lines ++ [tail]).map (· ++ [nul])) = some table)
    (hg : Closed (cut (tail ++ [g]))) : Closed (cut tail) := by
  by_cases hmem : nul ∈ tail
  · rwa [cut_append hmem] at hg
  · by_contra hclosed
    rw [cut_of_notMem hmem] at hclosed
    rw [List.map_append, readLines, List.foldlM_append] at hread
    simp [readline_of_not_closed hmem hclosed] at hread

/-- A file is loaded safely exactly if its lines are loadable. -/
theorem load_safely_iff (buffer file : Text) (lines : List Text) (tail : Text)
    (hbuffer : buffer.length = bufferSize) (hfile : file.splitOn '\n' = lines ++ [tail]) :
    LoadsSafely buffer file ↔ Loadable buffer lines tail := by
  have hcalls := calls_of_splitOn hfile buffer
  rw [hbuffer] at hcalls
  constructor
  · rintro ⟨bufs, table, hbufs, hwithin, hload, hread⟩
    rw [load, hbufs, Option.bind_some] at hload
    rw [hcalls] at hbufs
    split_ifs at hbufs with hfit
    · cases hbufs
      obtain ⟨hlines, hstale⟩ := forall_images_iff.mp hwithin
      rw [hfile] at hread
      have htail := closed_of_readLines hread hstale
      rw [readLines_lines (by simpa [or_imp, forall_and] using ⟨hlines, htail⟩)] at hread
      rw [readLines_eq hwithin, map_cut_images, ← hread, List.map_append] at hload
      exact ⟨hfit.1, hfit.2, hlines, htail, hstale,
        (tables_eq_iff hlines _).mp (Option.some.inj hload)⟩
  · intro h
    rw [if_pos ⟨h.lines_fit, h.tail_fits⟩] at hcalls
    have hwithin := forall_images_iff.mpr ⟨h.lines_closed, h.stale_closed⟩
    refine ⟨_, tableOf (lines.map cut ++ [cut (tail ++ [stale buffer lines tail])]), hcalls,
      hwithin, ?_, ?_⟩
    · rw [load, hcalls, Option.bind_some, readLines_eq hwithin, map_cut_images]
    · rw [hfile, readLines_lines (by simpa [or_imp, forall_and] using
        ⟨h.lines_closed, h.tail_closed⟩), List.map_append]
      exact congrArg some ((tables_eq_iff h.lines_closed _).mpr h.stale_unread).symm

/-- The contents of the buffer before the first line. -/
def filled (c : Char) : Text := List.replicate bufferSize c

theorem length_filled (c : Char) : (filled c).length = bufferSize := List.length_replicate

/-- A file that ends with a newline. -/
theorem terminated_file_loaded : LoadsSafely (filled 'y') "A T x\n".toList := by
  refine (load_safely_iff (filled 'y') "A T x\n".toList ["A T x".toList] [] (length_filled 'y')
    (by decide)).mpr ⟨?_, ?_, ?_, ?_, ?_, ?_⟩
  · decide
  · decide
  · decide
  · decide
  · decide
  · exact .inr (.inr (.inl (by decide)))

/-- Without the last newline the name gets a character of the buffer, and a line that is as long as
the buffer is written beyond it. -/
theorem unterminated_files :
    load (filled 'y') "A T x".toList = some [(10, "xy".toList)] ∧
      readLines [("A T x".toList ++ [nul])] = some [(10, "x".toList)] ∧
      ¬ LoadsSafely (filled 'y') "A T x".toList ∧
      calls (filled 'y') (filled 'a') = none := by
  have hload : load (filled 'y') "A T x".toList = some [(10, "xy".toList)] := by decide +kernel
  have hread : readLines [("A T x".toList ++ [nul])] = some [(10, "x".toList)] := by
    decide
  refine ⟨hload, hread, ?_, ?_⟩
  · rintro ⟨bufs, table, -, -, htable, hlines⟩
    have hsplit : ("A T x".toList.splitOn '\n').map (· ++ [nul]) = ["A T x".toList ++ [nul]] := by
      decide
    rw [hload] at htable
    rw [hsplit, hread, ← htable] at hlines
    exact absurd hlines (by decide)
  · have hsplit : (filled 'a').splitOn '\n' = [] ++ [filled 'a'] :=
      List.splitOn_eq_singleton fun h => absurd (List.eq_of_mem_replicate h) (by decide)
    rw [calls_of_splitOn hsplit, length_filled, length_filled]
    simp

end YwStorage.Symbol
