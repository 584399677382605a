import GraphCache.Json.Basic
import GraphCache.Text.Scan

/-!
# The lexemes of JSON text

Numbers and strings keep what is written: whether a number is in range, and whether the escapes of
a string denote a text, is decided only where the value is used.

## Main definitions

* `Json.Lexeme`: brackets, separators and scalars.
* `Json.Lexeme.readAll?`: the lexemes of a text.
-/

namespace GraphCache.Json

/-- A scalar as it is written. -/
inductive Scalar where
  | null
  | bool (value : Bool)
  | number (literal : NumberLiteral)
  /-- The code points of a string; escapes may leave surrogates among them. -/
  | string (units : List Nat)

/-- A lexeme of JSON text. -/
inductive Lexeme where
  | openArray
  | closeArray
  | openObject
  | closeObject
  | comma
  | colon
  | scalar (value : Scalar)

namespace Lexeme

/-- The code point that a single-character escape stands for. -/
def escape? (c : Char) : Option Nat :=
  match c with
  | '"' => some 0x22
  | '\\' => some 0x5C
  | '/' => some 0x2F
  | 'b' => some 0x08
  | 'f' => some 0x0C
  | 'n' => some 0x0A
  | 'r' => some 0x0D
  | 't' => some 0x09
  | _ => none

/-- The rest of a string up to its closing quotation mark. Control characters must be escaped. -/
def stringTail? : List Char → Option (List Nat × List Char)
  | [] => none
  | '"' :: rest => some ([], rest)
  | '\\' :: 'u' :: a :: b :: c :: d :: rest => do
    let unit ← Scan.hexValues? [a, b, c, d]
    let (units, rest) ← stringTail? rest
    return (unit :: units, rest)
  | '\\' :: c :: rest => do
    let unit ← escape? c
    let (units, rest) ← stringTail? rest
    return (unit :: units, rest)
  | c :: rest =>
    if c.toNat < 32 || c == '\\' then none
    else do
      let (units, rest) ← stringTail? rest
      return (c.toNat :: units, rest)

/-- The fraction of a number: the digits behind a point, if there is one. -/
def fraction? : List Char → Option (Option (List Char) × List Char)
  | '.' :: rest =>
    let digits := rest.takeWhile Char.isDigit
    if digits.isEmpty then none else some (some digits, rest.dropWhile Char.isDigit)
  | rest => some (none, rest)

/-- A signed run of digits, as the exponent of a number. -/
def signedDigits? (text : List Char) : Option (Int × List Char) :=
  let (negative, text) := match text with
    | '-' :: rest => (true, rest)
    | '+' :: rest => (false, rest)
    | rest => (false, rest)
  let digits := text.takeWhile Char.isDigit
  if digits.isEmpty then none
  else
    let value : Int := Scan.naturalValue digits
    some (if negative then -value else value, text.dropWhile Char.isDigit)

/-- The exponent of a number, if there is one. -/
def exponent? : List Char → Option (Option Int × List Char)
  | 'e' :: rest => (signedDigits? rest).map fun (value, rest) => (some value, rest)
  | 'E' :: rest => (signedDigits? rest).map fun (value, rest) => (some value, rest)
  | rest => some (none, rest)

/-- A number: no leading zeros, and digits on both sides of the point. -/
def number? (text : List Char) : Option (NumberLiteral × List Char) := do
  let (negative, text) := match text with
    | '-' :: rest => (true, rest)
    | rest => (false, rest)
  let whole := text.takeWhile Char.isDigit
  if whole.isEmpty || (whole.head? == some '0' && whole.length > 1) then none
  else
    let (fraction, rest) ← fraction? (text.dropWhile Char.isDigit)
    let (exponent, rest) ← exponent? rest
    let places : List Char := fraction.getD []
    let scale : Option Int :=
      if fraction.isNone && exponent.isNone then none
      else some (exponent.getD 0 - places.length)
    return (⟨negative, Scan.naturalValue (whole ++ places), scale⟩, rest)

/-- The lexeme at the front of a text, `none` for a blank. -/
def next? : List Char → Option (Option Lexeme × List Char)
  | ' ' :: rest | '\t' :: rest | '\n' :: rest | '\r' :: rest => some (none, rest)
  | '[' :: rest => some (some openArray, rest)
  | ']' :: rest => some (some closeArray, rest)
  | '\x7b' :: rest => some (some openObject, rest)
  | '\x7d' :: rest => some (some closeObject, rest)
  | ',' :: rest => some (some comma, rest)
  | ':' :: rest => some (some colon, rest)
  | 'n' :: 'u' :: 'l' :: 'l' :: rest => some (some (scalar .null), rest)
  | 't' :: 'r' :: 'u' :: 'e' :: rest => some (some (scalar (.bool true)), rest)
  | 'f' :: 'a' :: 'l' :: 's' :: 'e' :: rest => some (some (scalar (.bool false)), rest)
  | '"' :: rest => (stringTail? rest).map fun (units, rest) => (some (scalar (.string units)), rest)
  | text => (number? text).map fun (literal, rest) => (some (scalar (.number literal)), rest)

/-- The lexemes of a text. -/
def readAll? (text : String) : Option (List Lexeme) :=
  (Scan.all? next? text.toList).map fun lexemes => lexemes.filterMap id

end Lexeme

end GraphCache.Json
