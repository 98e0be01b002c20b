import AccessControl.Text.Blank
import AccessControl.Text.Digit

/-!
# Numerals

Reading an integer from a text: spacing, at most one sign, decimal digits of
any script with single underscores between them, spacing. A numeral has at most
`maxDigits` digits, leading zeros included.
-/

namespace AccessControl.Text

/-- The spacing allowed around a numeral: every blank except the information
    separators. -/
def isSpacing (c : Char) : Bool :=
  isBlank c && !(0x1C ≤ c.toNat && c.toNat ≤ 0x1F)

/-- The longest numeral that is read. -/
def maxDigits : Nat := 4300

/-- The values of the digits of an unsigned numeral. An underscore stands
    between two digits, never at an end and never beside another one. -/
def digits? : List Char → Option (List Nat)
  | [] => none
  | [c] => (digitValue? c).map fun d => [d]
  | c :: '_' :: cs => do return (← digitValue? c) :: (← digits? cs)
  | c :: cs => do return (← digitValue? c) :: (← digits? cs)

/-- The number that a sequence of digits stands for. -/
def ofDigits (ds : List Nat) : Nat := ds.foldl (fun n d => 10 * n + d) 0

/-- Reads an unsigned numeral. -/
def unsigned? (cs : List Char) : Option Nat :=
  (digits? cs).bind fun ds => if ds.length ≤ maxDigits then some (ofDigits ds) else none

/-- Reads a numeral with its sign, without spacing. -/
def signed? : List Char → Option Int
  | '+' :: cs => (unsigned? cs).map Int.ofNat
  | '-' :: cs => (unsigned? cs).map fun n => -Int.ofNat n
  | cs => (unsigned? cs).map Int.ofNat

/-- Reads an integer, or nothing if the text is no numeral. -/
def integer? (text : String) : Option Int :=
  let inner := text.toList.dropWhile isSpacing
  signed? (inner.reverse.dropWhile isSpacing).reverse

end AccessControl.Text
