import YwStorage.Lib.Run

/-!
The text table of `gridtable.h`. An array is a function of its index, and `ssize_t` an integer. The
bytes of `buf_ptr` that are in use are a list; `map_off`, `special` and `widths` begin with any
values.
-/
namespace YwStorage.GridTable

abbrev Text := List Char

def nul : Char := Char.ofNat 0

def widthLimit : ℤ := 80
def gridX : ℤ := 128
def gridY : ℤ := 1024
def bufLen : ℕ := 65536
def specialNormal : ℕ := 0

structure Grid where
  buf : Text
  widthsLastUsed : ℕ
  widths : ℤ → ℤ
  widthsMax : ℤ
  special : ℤ → ℕ
  maxX : ℤ
  maxY : ℤ
  mapOff : ℤ → ℤ → ℕ
  mapBmp : ℤ → ℤ → BitVec 8

def isValidRange (x y : ℤ) : Bool := (0 ≤ x && x < gridX) && (0 ≤ y && y < gridY)

def Grid.setMapOff (g : Grid) (x y : ℤ) (off : ℕ) : Grid :=
  let mask : BitVec 8 := .twoPow 8 (y % 8).toNat
  { g with
    mapOff := Function.update g.mapOff x (Function.update (g.mapOff x) y off)
    mapBmp := Function.update g.mapBmp x
      (Function.update (g.mapBmp x) (y / 8) (g.mapBmp x (y / 8) ||| mask)) }

def Grid.isExist (g : Grid) (x y : ℤ) : Bool :=
  if isValidRange x y then (g.mapBmp x (y / 8)).getLsbD (y % 8).toNat else false

def Grid.set (g : Grid) (x y : ℤ) (str : Text) : Bool × Grid :=
  if isValidRange x y = false then (false, g)
  else if g.buf.length + 1 + str.length > bufLen then (false, g)
  else
    let g := g.setMapOff x y g.buf.length
    (true, { g with
      buf := g.buf ++ str ++ [nul]
      special := Function.update g.special y specialNormal
      maxY := if g.maxY < y then y else g.maxY })

/-- The string that `get` points to. -/
def Grid.get (g : Grid) (x y : ℤ) : Text :=
  if g.isExist x y then (g.buf.drop (g.mapOff x y)).takeWhile (· ≠ nul) else []

/-- The integers from `0` to `n`. -/
def upTo (n : ℤ) : List ℤ := (List.range (n + 1).toNat).map Int.ofNat

/-- The inner loop of `calc_widths`. -/
def Grid.longest (g : Grid) (x : ℤ) : ℤ :=
  (upTo g.maxY).foldl (fun w y =>
    let len : ℤ := (g.get x y).length
    if w < len then len else w) 0

structure Widths where
  widths : ℤ → ℤ
  widthsMax : ℤ
  maxX : ℤ

/-- The outer loop of `calc_widths`, with the number of columns that are left. -/
def calcLoop (longest : ℤ → ℤ) : ℕ → ℤ → Widths → Widths
  | 0, _, s => s
  | n + 1, x, s =>
    let w := longest x
    if s.widthsMax + w > widthLimit then
      let w := widthLimit - s.widthsMax
      { s with widths := Function.update s.widths x w, maxX := if w ≥ 3 then x else s.maxX }
    else if w ≠ 0 then
      calcLoop longest n (x + 1)
        ⟨Function.update s.widths x (w + 1), s.widthsMax + (w + 1), x⟩
    else calcLoop longest n (x + 1) { s with widths := Function.update s.widths x w }

def Grid.calcWidths (g : Grid) : Grid :=
  if g.buf.length ≠ g.widthsLastUsed then
    let s := calcLoop g.longest gridX.toNat 0 ⟨g.widths, 0, 0⟩
    { g with
      widths := s.widths, widthsMax := s.widthsMax, maxX := s.maxX
      widthsLastUsed := g.buf.length }
  else g

/-- A write to the buffer of a column, which has `WIDTH_LIMIT+1` bytes. -/
def write (buf : Text) (c : Char) : Option Text :=
  if (buf.length : ℤ) < widthLimit + 1 then some (buf ++ [c]) else none

/-- The loop of `print_column_with_padding`; `n` turns are left, and `ren_len` is the length of
`buf`. -/
def padLoop (str : Text) (width : ℤ) : ℕ → ℕ → Text → Option Text
  | 0, _, buf => some buf
  | n + 1, i, buf =>
    let c :=
      if str.length ≤ i then ' '
      else if str.length > width ∧ width - i < 3 then '.'
      else str.getD i nul
    (write buf c).bind (padLoop str width n (i + 1))

/-- The buffer that the renderer gets, or `none` when a byte is written behind it. -/
def printColumnWithPadding (str : Text) (width : ℤ) : Option Text :=
  (padLoop str width width.toNat 0 []).bind fun buf => (write buf nul).map fun _ => buf

/-- What the renderer gets for a row. -/
inductive Line
  | columns (cells : List Text)
  | bar (width : ℤ) (type : ℕ)

def Grid.printLine (g : Grid) (y : ℤ) : Option Line :=
  if g.special y = specialNormal then
    ((upTo g.maxX).mapM fun x => printColumnWithPadding (g.get x y) (g.widths x)).map .columns
  else some (.bar g.widthsMax (g.special y))

def Grid.print (g : Grid) : Option (List Line × Grid) :=
  let g := g.calcWidths
  ((upTo g.maxY).mapM g.printLine).map fun lines => (lines, g)

/-- A new table. -/
structure Fresh (g : Grid) : Prop where
  buf : g.buf = []
  widthsLastUsed : g.widthsLastUsed = 0
  maxX : g.maxX = -1
  maxY : g.maxY = -1
  mapBmp : ∀ x y, g.mapBmp x y = 0

inductive Call
  | set (x y : ℤ) (str : Text)
  | print

/-- The strings of C have no `NUL` inside. -/
inductive Step : Grid → Call → Grid → Prop
  | set {g : Grid} {x y : ℤ} {str : Text} (h : nul ∉ str) : Step g (.set x y str) (g.set x y str).2
  | print {g g' : Grid} {lines : List Line} (h : g.print = some (lines, g')) : Step g .print g'

end YwStorage.GridTable
