/-!
# JSON values

A value as it is written: the members of an object stay in their order, repeated names included, and
text is kept in the pieces it is written in. What a text means is a question of its own, because a
surrogate escape that stands alone is correct spelling and yet no text.
-/

namespace Mc68000

inductive Json.Piece where
  | plain (c : Char)
  | escape (c : Char)
  /-- A backslash, `u` and four hexadecimal digits, for a UTF-16 unit. -/
  | unit (n : Nat)
  deriving DecidableEq, Repr

inductive Json where
  | null
  | bool (b : Bool)
  | natural (n : Nat)
  /-- Any other number, as it is written. -/
  | decimal (digits : List Char)
  | text (pieces : List Json.Piece)
  | array (items : List Json)
  | object (members : List (List Json.Piece × Json))

namespace Json

def unescape (c : Char) : Option Char :=
  match c with
  | '"' => some '"'
  | '\\' => some '\\'
  | '/' => some '/'
  | 'b' => some '\x08'
  | 'f' => some '\x0c'
  | 'n' => some '\n'
  | 'r' => some '\r'
  | 't' => some '\t'
  | _ => none

def isHighSurrogate (n : Nat) : Bool := 0xD800 ≤ n && n < 0xDC00

def isLowSurrogate (n : Nat) : Bool := 0xDC00 ≤ n && n < 0xE000

def surrogatePair (high low : Nat) : Char :=
  Char.ofNat (0x10000 + (high - 0xD800) * 0x400 + (low - 0xDC00))

/-- The characters of a quoted text. A surrogate has to come in a pair. -/
def decodeText : List Piece → Option (List Char)
  | [] => some []
  | .plain c :: rest => (decodeText rest).map (c :: ·)
  | .escape c :: rest => (unescape c).bind fun c => (decodeText rest).map (c :: ·)
  | .unit high :: .unit low :: rest =>
    if isHighSurrogate high then
      if isLowSurrogate low then (decodeText rest).map (surrogatePair high low :: ·) else none
    else if isLowSurrogate high then none
    else (decodeText (.unit low :: rest)).map (Char.ofNat high :: ·)
  | .unit n :: rest =>
    if isHighSurrogate n || isLowSurrogate n then none
    else (decodeText rest).map (Char.ofNat n :: ·)

def digits (n : Nat) : List Char := Nat.toDigits 10 n

def unitDigits (n : Nat) : List Char :=
  [12, 8, 4, 0].map fun shift => Nat.digitChar (n >>> shift % 16)

def Piece.render : Piece → List Char
  | .plain c => [c]
  | .escape c => ['\\', c]
  | .unit n => '\\' :: 'u' :: unitDigits n

def renderText (pieces : List Piece) : List Char :=
  '"' :: pieces.flatMap Piece.render ++ ['"']

mutual

def render : Json → List Char
  | .null => "null".toList
  | .bool true => "true".toList
  | .bool false => "false".toList
  | .natural n => digits n
  | .decimal ds => ds
  | .text pieces => renderText pieces
  | .array items => '[' :: renderItems items ++ [']']
  | .object members => '\x7b' :: renderMembers members ++ ['\x7d']

def renderItems : List Json → List Char
  | [] => []
  | [v] => render v
  | v :: rest => render v ++ ',' :: renderItems rest

def renderMembers : List (List Piece × Json) → List Char
  | [] => []
  | [(name, v)] => renderText name ++ ':' :: render v
  | (name, v) :: rest => renderText name ++ ':' :: render v ++ ',' :: renderMembers rest

end

def plainText (s : String) : List Piece := s.toList.map .plain

end Json
end Mc68000
