import Mc68000.Json.Basic

/-!
# Reading JSON

The reader takes a value off the front of a list of characters and gives the value with what is
left. Nesting is bounded by the length of the text, which serves as fuel.
-/

namespace Mc68000.Json

def isBlank (c : Char) : Bool := c == ' ' || c == '\n' || c == '\t' || c == '\r'

def skipBlanks (cs : List Char) : List Char := cs.dropWhile isBlank

def hexValue? (c : Char) : Option Nat :=
  if '0' ≤ c && c ≤ '9' then some (c.toNat - '0'.toNat)
  else if 'a' ≤ c && c ≤ 'f' then some (c.toNat - 'a'.toNat + 10)
  else if 'A' ≤ c && c ≤ 'F' then some (c.toNat - 'A'.toNat + 10)
  else none

def unit? (a b c d : Char) : Option Nat := do
  let a ← hexValue? a
  let b ← hexValue? b
  let c ← hexValue? c
  let d ← hexValue? d
  pure (((a * 16 + b) * 16 + c) * 16 + d)

def addPiece (p : Piece) (read : Option (List Piece × List Char)) :
    Option (List Piece × List Char) :=
  read.map fun r => (p :: r.1, r.2)

def readText : List Char → Option (List Piece × List Char)
  | [] => none
  | '"' :: rest => some ([], rest)
  | '\\' :: 'u' :: a :: b :: c :: d :: rest =>
    (unit? a b c d).bind fun n => addPiece (.unit n) (readText rest)
  | '\\' :: c :: rest =>
    if (unescape c).isSome then addPiece (.escape c) (readText rest) else none
  | c :: rest => if c == '\\' || c < ' ' then none else addPiece (.plain c) (readText rest)

def readDigits (cs : List Char) : Option (List Char × List Char) :=
  match cs.takeWhile Char.isDigit with
  | [] => none
  | ds => some (ds, cs.dropWhile Char.isDigit)

/-- The digits before the point: zero, or no zero in front. -/
def readInteger (cs : List Char) : Option (List Char × List Char) :=
  match readDigits cs with
  | some ('0' :: _ :: _, _) => none
  | read => read

def readFraction : List Char → Option (List Char × List Char)
  | '.' :: cs => (readDigits cs).map fun r => ('.' :: r.1, r.2)
  | cs => some ([], cs)

def readSign : List Char → List Char × List Char
  | '+' :: cs => (['+'], cs)
  | '-' :: cs => (['-'], cs)
  | cs => ([], cs)

def isExponentMark (c : Char) : Bool := c == 'e' || c == 'E'

def readExponent : List Char → Option (List Char × List Char)
  | [] => some ([], [])
  | c :: cs =>
    if isExponentMark c then
      let (sign, cs) := readSign cs
      (readDigits cs).map fun r => (c :: sign ++ r.1, r.2)
    else some ([], c :: cs)

def naturalOf (ds : List Char) : Nat := ds.foldl (fun n c => n * 10 + (c.toNat - '0'.toNat)) 0

def readMagnitude (sign cs : List Char) : Option (Json × List Char) := do
  let (whole, cs) ← readInteger cs
  let (fraction, cs) ← readFraction cs
  let (exponent, cs) ← readExponent cs
  if sign.isEmpty && fraction.isEmpty && exponent.isEmpty then pure (.natural (naturalOf whole), cs)
  else pure (.decimal (sign ++ whole ++ fraction ++ exponent), cs)

def readNumber : List Char → Option (Json × List Char)
  | '-' :: cs => readMagnitude ['-'] cs
  | cs => readMagnitude [] cs

def readName (cs : List Char) : Option (List Piece × List Char) :=
  match skipBlanks cs with
  | '"' :: cs =>
    (readText cs).bind fun r =>
      match skipBlanks r.2 with
      | ':' :: cs => some (r.1, cs)
      | _ => none
  | _ => none

mutual

def readValue : Nat → List Char → Option (Json × List Char)
  | 0, _ => none
  | fuel + 1, cs =>
    match skipBlanks cs with
    | 'n' :: 'u' :: 'l' :: 'l' :: cs => some (.null, cs)
    | 't' :: 'r' :: 'u' :: 'e' :: cs => some (.bool true, cs)
    | 'f' :: 'a' :: 'l' :: 's' :: 'e' :: cs => some (.bool false, cs)
    | '"' :: cs => (readText cs).map fun r => (.text r.1, r.2)
    | '[' :: cs =>
      match skipBlanks cs with
      | ']' :: cs => some (.array [], cs)
      | _ => (readItems fuel cs).map fun r => (.array r.1, r.2)
    | '\x7b' :: cs =>
      match skipBlanks cs with
      | '\x7d' :: cs => some (.object [], cs)
      | _ => (readMembers fuel cs).map fun r => (.object r.1, r.2)
    | cs => readNumber cs

def readItems : Nat → List Char → Option (List Json × List Char)
  | 0, _ => none
  | fuel + 1, cs =>
    (readValue fuel cs).bind fun r =>
      match skipBlanks r.2 with
      | ']' :: cs => some ([r.1], cs)
      | ',' :: cs => (readItems fuel cs).map fun more => (r.1 :: more.1, more.2)
      | _ => none

def readMembers : Nat → List Char → Option (List (List Piece × Json) × List Char)
  | 0, _ => none
  | fuel + 1, cs =>
    (readName cs).bind fun name =>
      (readValue fuel name.2).bind fun r =>
        match skipBlanks r.2 with
        | '\x7d' :: cs => some ([(name.1, r.1)], cs)
        | ',' :: cs => (readMembers fuel cs).map fun more => ((name.1, r.1) :: more.1, more.2)
        | _ => none

end

/-- Nesting that a text of this length cannot exceed, counted in calls. -/
def fuelFor (cs : List Char) : Nat := 2 * cs.length + 2

def parse (cs : List Char) : Option Json :=
  match readValue (fuelFor cs) cs with
  | some (v, rest) => if (skipBlanks rest).isEmpty then some v else none
  | none => none

end Mc68000.Json
