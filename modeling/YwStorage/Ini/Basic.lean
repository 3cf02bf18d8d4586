import Mathlib

/-!
The settings files of `ywini.cc`. A `char` is a `Char`, a C string the list of its characters. The
buffers of `load` are as long as a line, so that every token fits; the byte in front of a buffer,
which `trim` reads when the string is blank, is taken not to be a blank.
-/
namespace YwStorage.Ini

abbrev Text := List Char

/-- `MAX_LINE`, and the size of all other buffers. -/
def maxLine : ℕ := 1024

def nul : Char := Char.ofNat 0

def isspace (c : Char) : Bool := [' ', '\t', '\n', '\x0b', '\x0c', '\r'].contains c

def exist (c : Char) (targets : Text) : Bool := targets.any fun t => c == t

/-- The part of `ptr` from the first of the targets on. -/
def search (ptr targets : Text) : Text := ptr.dropWhile fun c => !exist c targets

/-- The separator that ends the token, or the terminator; the token; and what comes after. -/
def getToken (ptr sep : Text) : Char × Text × Text :=
  let stop := search ptr sep
  (stop.headD nul, ptr.takeWhile fun c => !exist c sep, stop.drop 1)

/-- What `trim` leaves in the buffer. -/
def trimEnd (src : Text) : Text := src.rdropWhile isspace

/-- What `trim` returns. -/
def trim (src : Text) : Text := (trimEnd src).dropWhile isspace

/-- `kv_map[key] = value`; a map iterates in the order of its keys. -/
def set (key value : Text) : List (Text × Text) → List (Text × Text)
  | [] => [(key, value)]
  | (k, v) :: es =>
    if key < k then (key, value) :: (k, v) :: es
    else if key = k then (key, value) :: es
    else (k, v) :: set key value es

/-- The lines that `fgets` returns; `room` is left in the buffer, which holds `line` so far. -/
def fgetsAll : ℕ → Text → Text → List Text
  | _, line, [] => if line = [] then [] else [line]
  | room, line, c :: cs =>
    if c = '\n' ∨ room ≤ 1 then (line ++ [c]) :: fgetsAll (maxLine - 1) [] cs
    else fgetsAll (room - 1) (line ++ [c]) cs

/-- The variables that `load` keeps from line to line. -/
structure Loader where
  sec : Text
  kvMap : List (Text × Text)

/-- A line that is neither a comment nor a section. -/
def loadEntry (s : Loader) (line : Text) : Loader :=
  let t := getToken line [':', '=', ';', '#']
  if exist t.1 [':', '=', ' '] then
    let name := t.2.1
    let value := (getToken t.2.2 [';', '#']).2.1
    if (trim name).length ≠ 0 then
      ⟨trimEnd s.sec, set (trim s.sec ++ '.' :: trim name) (trim value) s.kvMap⟩
    else s
  else s

/-- One turn of `load`. -/
def loadLine (s : Loader) (buf : Text) : Loader :=
  let line := buf.takeWhile fun c => c != nul
  match line.headD nul with
  | ';' | '#' => s
  | '[' => { s with sec := (getToken (line.drop 1) [']', ';', '#', ':', '=']).2.1 }
  | _ => loadEntry s line

/-- `load` by a new object. -/
def load (file : Text) : List (Text × Text) :=
  ((fgetsAll (maxLine - 1) [] file).foldl loadLine ⟨[], []⟩).kvMap

/-- `strncpy` into a buffer; `none` when the string does not fit with its terminator. -/
def strncpy (src : Text) : Option Text := if src.length < maxLine then some src else none

/-- `%-40s`. -/
def pad (src : Text) : Text := src ++ List.replicate (40 - src.length) ' '

/-- The loop of `save`. -/
def saveLoop : Text → List (Text × Text) → Option Text
  | _, [] => some []
  | prevSection, (k, v) :: es => do
    let key ← strncpy k
    let value ← strncpy v
    let sec := (getToken key ['.']).2.1
    let name := (getToken key ['.']).2.2
    let header := if prevSection ≠ sec then '\n' :: '[' :: sec ++ [']', '\n'] else []
    let out ← saveLoop sec es
    return header ++ (pad name ++ ['=', ' '] ++ value ++ ['\n']) ++ out

def save (kvMap : List (Text × Text)) : Option Text := saveLoop [] kvMap

end YwStorage.Ini
