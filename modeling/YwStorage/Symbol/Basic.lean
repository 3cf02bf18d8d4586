import YwStorage.Lib.SortedMap

/-!
The symbol table of `ywsymbol.h`. A `char` is a `Char`. Memory that a function reads is the list of
its characters from the pointer on, and `none` stands for a read behind the end of the list.
-/
namespace YwStorage.Symbol
open SortedMap

abbrev Text := List Char

def nul : Char := Char.ofNat 0

/-- A value of `intptr_t` after an overflow. -/
def wrap (x : ℤ) : ℤ := Int.bmod x (2 ^ 64)

/-- The value of a digit; all letters count. -/
def digit (c : Char) : Option ℤ :=
  if '0' ≤ c ∧ c ≤ '9' then some ((c.toNat : ℤ) - '0'.toNat)
  else if 'A' ≤ c ∧ c ≤ 'Z' then some ((c.toNat : ℤ) - 'A'.toNat + 10)
  else if 'a' ≤ c ∧ c ≤ 'z' then some ((c.toNat : ℤ) - 'a'.toNat + 10)
  else none

/-- The first loop of `readline`: the address and what follows it, or the end of the line. -/
def readAddr : Text → ℤ → Option (Option (ℤ × Text))
  | [], _ => none
  | c :: buf, addr =>
    if c = ' ' then some (some (addr, c :: buf))
    else if c = nul then some none
    else
      match digit c with
      | some val => readAddr buf (wrap (addr * 16 + val))
      | none => some (some (addr, c :: buf))

/-- `buf[0] == ' ' && buf[1] != ' ' && buf[2] == ' '`. -/
def atType : Text → Option Bool
  | [] => none
  | c :: buf =>
    if c = ' ' then
      match buf with
      | [] => none
      | d :: buf =>
        if d = ' ' then some false
        else
          match buf with
          | [] => none
          | e :: _ => some (e = ' ')
    else some false

/-- The second loop of `readline`, which ends behind the type of the symbol. -/
def skipType : Text → Option (Option Text)
  | [] => none
  | c :: buf =>
    match atType (c :: buf) with
    | none => none
    | some true => some (some (buf.drop 2))
    | some false => if c = nul then some none else skipType buf

/-- The string at a pointer. -/
def cString : Text → Option Text
  | [] => none
  | c :: buf => if c = nul then some [] else (cString buf).map (c :: ·)

/-- What `readline` stores, if it stores something. -/
def readline (buf : Text) : Option (Option (ℤ × Text)) :=
  match readAddr buf 0 with
  | none => none
  | some none => some none
  | some (some (addr, buf)) =>
    match skipType buf with
    | none => none
    | some none => some none
    | some (some buf) => if addr = 0 then some none else (cString buf).map fun s => some (addr, s)

abbrev Table := List (ℤ × Text)

def store (table : Table) : Option (ℤ × Text) → Table
  | none => table
  | some (addr, name) => put addr name table

/-- `find`. The iterator stands between the entries up to `val` and those above it; `none` when it
is moved before the first entry. -/
def find (table : Table) (val : ℤ) : Option Text :=
  if table.dropWhile (fun e => e.1 ≤ val) = [] ∨ val = 0 then some []
  else (table.takeWhile fun e => e.1 ≤ val).getLast?.map Prod.snd

/-- What a number of lines, each somewhere in memory, stores one after the other. -/
def readLines (lines : List Text) : Option Table :=
  lines.foldlM (fun table buf => (readline buf).map (store table)) []

end YwStorage.Symbol
