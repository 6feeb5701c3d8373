import DesignAtlas.Decimal.Shortest
import DesignAtlas.Json.Basic
import DesignAtlas.Text.Quoted

/-!
# Values in messages

How a message shows a value: texts in quotes, lists in brackets, fields in braces,
and numbers with a point in their shortest decimal form. Powers of ten from -4 to 15
are written positionally and always with a point, others with an exponent of at
least two digits.
-/

namespace DesignAtlas

namespace Decimal

/-- Zeros. -/
def zeros (n : Nat) : List Char := List.replicate n '0'

/-- Digits whose first stands for `10 ^ power`, written with the point in place. -/
def positional (digits : List Char) (power : Int) : List Char :=
  if power < 0 then '0' :: '.' :: zeros (-power - 1).toNat ++ digits
  else
    let whole := power.toNat + 1
    if digits.length ≤ whole then digits ++ zeros (whole - digits.length) ++ ['.', '0']
    else digits.take whole ++ '.' :: digits.drop whole

/-- Digits whose first stands for `10 ^ power`, written with an exponent. -/
def scientific (digits : List Char) (power : Int) : List Char :=
  let exponent := Nat.toDigits 10 power.natAbs
  let places := digits.drop 1
  digits.take 1 ++ (if places.isEmpty then [] else '.' :: places) ++
    ['e', if power < 0 then '-' else '+'] ++ zeros (2 - exponent.length) ++ exponent

/-- A positive number in its shortest form. -/
def Binary.text (x : Binary) : List Char :=
  let (c, e) := x.shortest
  let digits := Nat.toDigits 10 c
  let power := digits.length - 1 + e
  let kept := (digits.reverse.dropWhile (· == '0')).reverse
  if -4 ≤ power && power < 16 then positional kept power else scientific kept power

/-- A minus sign before a negative number. -/
def signed (negative : Bool) (cs : List Char) : List Char :=
  if negative then '-' :: cs else cs

/-- A floating-point number as messages show it. -/
def text (x : Float) : String :=
  String.ofList <| match Reading.ofFloat x with
    | .nan => "nan".toList
    | .infinite negative => signed negative "inf".toList
    | .zero negative => signed negative "0.0".toList
    | .finite negative value => signed negative value.text

end Decimal

namespace Json

mutual

/-- A value as messages show it. -/
def literal : Json → String
  | .null => "None"
  | .bool b => if b then "True" else "False"
  | .int n => toString n
  | .float x => Decimal.text x
  | .str s => s.quoted
  | .arr items => "[" ++ String.intercalate ", " (literalItems items) ++ "]"
  | .obj fields => "\x7b" ++ String.intercalate ", " (literalFields fields) ++ "\x7d"

/-- The items of a list as messages show them. -/
def literalItems : List Json → List String
  | [] => []
  | j :: js => literal j :: literalItems js

/-- The fields of an object as messages show them. -/
def literalFields : List (CodePoints × Json) → List String
  | [] => []
  | (name, j) :: rest => (name.quoted ++ ": " ++ literal j) :: literalFields rest

end

/-- A value as running text: a text stands for itself. -/
def display : Json → String
  | .str s => s.shown
  | j => j.literal

end Json

end DesignAtlas
