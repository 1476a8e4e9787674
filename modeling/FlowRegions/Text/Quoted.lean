import FlowRegions.Text.Printable

/-!
Contract: text in double quotes with backslash escapes.

Owns:
- `quote`, which writes any text between quotes so that only printable
  characters stand in it;
- `isQuoted`, which recognises such text, also with escapes that `quote` does
  not use.
-/

namespace FlowRegions.Text

def hexDigits (width n : Nat) : String :=
  let digits := Nat.toDigits 16 n
  String.ofList (List.replicate (width - digits.length) '0' ++ digits)

def escapeLetter? : Nat → Option Char
  | 0x07 => some 'a'
  | 0x08 => some 'b'
  | 0x09 => some 't'
  | 0x0A => some 'n'
  | 0x0B => some 'v'
  | 0x0C => some 'f'
  | 0x0D => some 'r'
  | _ => none

def escape (c : Char) : String :=
  if c = '"' || c = '\\' then String.ofList ['\\', c]
  else if isPrintable c then String.singleton c
  else
    match escapeLetter? c.toNat with
    | some letter => String.ofList ['\\', letter]
    | none =>
      if c.toNat < 0x20 || c.toNat = 0x7F then "\\x" ++ hexDigits 2 c.toNat
      else if c.toNat < 0x10000 then "\\u" ++ hexDigits 4 c.toNat
      else "\\U" ++ hexDigits 8 c.toNat

def quote (text : String) : String :=
  "\"" ++ String.join (text.toList.map escape) ++ "\""

/-! ## Recognising quoted text -/

inductive QuoteScan where
  /-- Between the quotes. -/
  | text
  /-- Behind a backslash. -/
  | escape
  /-- Some digits in base 16 are missing from the number of a byte. -/
  | byteDigits (missing : Nat)
  /-- Some digits in base 16 are missing from the number of a character. -/
  | characterDigits (missing value : Nat)
  /-- Some digits in base 8 are missing from the number of a byte. -/
  | octalDigits (missing value : Nat)
  /-- Behind the closing quote. -/
  | closed
  /-- This is no quoted text. -/
  | invalid
deriving DecidableEq, Repr

def hexValue? (c : Char) : Option Nat :=
  if '0' ≤ c && c ≤ '9' then some (c.toNat - '0'.toNat)
  else if 'a' ≤ c && c ≤ 'f' then some (c.toNat - 'a'.toNat + 10)
  else if 'A' ≤ c && c ≤ 'F' then some (c.toNat - 'A'.toNat + 10)
  else none

def octalValue? (c : Char) : Option Nat :=
  if '0' ≤ c && c ≤ '7' then some (c.toNat - '0'.toNat) else none

namespace QuoteScan

def readEscape (c : Char) : QuoteScan :=
  if ['a', 'b', 'f', 'n', 'r', 't', 'v', '\\', '"'].contains c then text
  else if c = 'x' then byteDigits 2
  else if c = 'u' then characterDigits 4 0
  else if c = 'U' then characterDigits 8 0
  else match octalValue? c with
    | some digit => octalDigits 2 digit
    | none => invalid

def read : QuoteScan → Char → QuoteScan
  | text, c =>
    if c = '"' then closed
    else if c = '\\' then escape
    else if c = '\n' then invalid
    else text
  | escape, c => readEscape c
  | byteDigits missing, c =>
    match hexValue? c with
    | none => invalid
    | some _ => if missing ≤ 1 then text else byteDigits (missing - 1)
  | characterDigits missing value, c =>
    match hexValue? c with
    | none => invalid
    | some digit =>
      let value := 16 * value + digit
      if 1 < missing then characterDigits (missing - 1) value
      else if value.isValidChar then text
      else invalid
  | octalDigits missing value, c =>
    match octalValue? c with
    | none => invalid
    | some digit =>
      let value := 8 * value + digit
      if 1 < missing then octalDigits (missing - 1) value
      else if value ≤ 255 then text
      else invalid
  | closed, _ => invalid
  | invalid, _ => invalid

end QuoteScan

/-- Whether the whole of a text is one text between double quotes. -/
def isQuoted (text : String) : Bool :=
  match text.toList with
  | '"' :: rest => rest.foldl QuoteScan.read .text == .closed
  | _ => false

end FlowRegions.Text
