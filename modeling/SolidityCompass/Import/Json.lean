/-!
# JSON

A reader for JSON texts as they stand in editor settings. Values nest at most 127 deep, numbers
must stay in the range of double precision, strings hold no control characters and no unpaired
surrogates, and of equal keys in an object the last one counts.
-/

namespace SolidityCompass

/-- A JSON value. Numbers are checked and dropped, since no setting is a number. -/
inductive Json where
  | null
  | bool (value : Bool)
  | number
  | string (text : String)
  | array (items : List Json)
  | object (fields : List (String × Json))
deriving Repr, Inhabited

namespace Json

def get? : Json → String → Option Json
  | object fields, key => (fields.reverse.find? fun field => field.1 = key).map Prod.snd
  | _, _ => none

def isSpace (c : Char) : Bool :=
  c = ' ' || c = '\n' || c = '\t' || c = '\r'

def skipSpace (cs : List Char) : List Char :=
  cs.dropWhile isSpace

def word? (word cs : List Char) : Option (List Char) :=
  if word.isPrefixOf cs then some (cs.drop word.length) else none

def hexDigit? (c : Char) : Option Nat :=
  if c.isDigit then some (c.toNat - '0'.toNat)
  else if 'a' ≤ c && c ≤ 'f' then some (c.toNat - 'a'.toNat + 10)
  else if 'A' ≤ c && c ≤ 'F' then some (c.toNat - 'A'.toNat + 10)
  else none

def hexQuad? (a b c d : Char) : Option Nat := do
  return ((← hexDigit? a) * 16 + (← hexDigit? b)) * 256 + (← hexDigit? c) * 16 + (← hexDigit? d)

def escaped? : Char → Option Char
  | '"' => some '"'
  | '\\' => some '\\'
  | '/' => some '/'
  | 'b' => some '\x08'
  | 'f' => some '\x0c'
  | 'n' => some '\n'
  | 'r' => some '\r'
  | 't' => some '\t'
  | _ => none

def string? : List Char → Option (List Char × List Char)
  | '"' :: cs => some ([], cs)
  | '\\' :: 'u' :: a :: b :: c :: d :: cs =>
    match hexQuad? a b c d with
    | none => none
    | some high =>
      if 0xDC00 ≤ high && high ≤ 0xDFFF then none
      else if 0xD800 ≤ high && high ≤ 0xDBFF then
        match cs with
        | '\\' :: 'u' :: e :: f :: g :: h :: cs =>
          match hexQuad? e f g h with
          | none => none
          | some low =>
            if 0xDC00 ≤ low && low ≤ 0xDFFF then
              let code := 0x10000 + (high - 0xD800) * 0x400 + (low - 0xDC00)
              (string? cs).map fun (text, rest) => (Char.ofNat code :: text, rest)
            else none
        | _ => none
      else (string? cs).map fun (text, rest) => (Char.ofNat high :: text, rest)
  | '\\' :: c :: cs =>
    match escaped? c with
    | none => none
    | some c => (string? cs).map fun (text, rest) => (c :: text, rest)
  | c :: cs =>
    if c = '\\' || c.toNat < 0x20 then none
    else (string? cs).map fun (text, rest) => (c :: text, rest)
  | [] => none

def digits (cs : List Char) : List Char :=
  cs.takeWhile Char.isDigit

def decimalValue (ds : List Char) : Nat :=
  ds.foldl (fun n d => n * 10 + (d.toNat - '0'.toNat)) 0

def overflowBound : Nat :=
  Nat.pow 2 1024 - Nat.pow 2 970

/-- Whether `ds · 10 ^ exponent` stays in the range of double precision. The number of digits
decides, except for magnitudes near the bound, which has 309 digits. -/
def isFinite (ds : List Char) (exponent : Int) : Bool :=
  let ds := ds.dropWhile (· = '0')
  let magnitude := ds.length + exponent
  ds.isEmpty || magnitude < 309 ||
    (magnitude = 309 &&
      decimalValue ds * Nat.pow 10 exponent.toNat < overflowBound * Nat.pow 10 (-exponent).toNat)

def exponent? (cs : List Char) : Option (Int × List Char) :=
  let (negative, cs) :=
    match cs with
    | '+' :: cs => (false, cs)
    | '-' :: cs => (true, cs)
    | cs => (false, cs)
  let ds := digits cs
  if ds.isEmpty then none
  else some (if negative then -decimalValue ds else decimalValue ds, cs.drop ds.length)

def number? (cs : List Char) : Option (List Char) :=
  let whole := digits cs
  let cs := cs.drop whole.length
  if whole.isEmpty || (whole.length > 1 && whole.head? = some '0') then none
  else
    let fraction? : Option (List Char × List Char) :=
      match cs with
      | '.' :: cs => if (digits cs).isEmpty then none else some (digits cs, cs.drop (digits cs).length)
      | cs => some ([], cs)
    match fraction? with
    | none => none
    | some (fraction, cs) =>
      let exponent? : Option (Int × List Char) :=
        match cs with
        | c :: rest => if c = 'e' || c = 'E' then exponent? rest else some (0, cs)
        | [] => some (0, [])
      match exponent? with
      | none => none
      | some (exponent, cs) =>
        if isFinite (whole ++ fraction) (exponent - fraction.length) then some cs else none

/-- Reads items separated by commas up to and with the closing mark. Every item has to consume a
character. -/
def items {α : Type} (close : Char) (item : List Char → Option (α × List Char))
    (cs : List Char) : Option (List α × List Char) :=
  match item cs with
  | none => none
  | some (a, rest) =>
    match skipSpace rest with
    | [] => none
    | c :: rest =>
      if c = close then some ([a], rest)
      else if c = ',' then
        if rest.length < cs.length then
          (items close item rest).map fun (as, rest) => (a :: as, rest)
        else none
      else none
termination_by cs.length

def group {α : Type} (close : Char) (item : List Char → Option (α × List Char))
    (cs : List Char) : Option (List α × List Char) :=
  match skipSpace cs with
  | [] => none
  | c :: rest => if c = close then some ([], rest) else items close item cs

def field? (value? : List Char → Option (Json × List Char)) (cs : List Char) :
    Option ((String × Json) × List Char) :=
  match skipSpace cs with
  | '"' :: cs =>
    match string? cs with
    | none => none
    | some (key, cs) =>
      match skipSpace cs with
      | ':' :: cs => (value? cs).map fun (value, rest) => ((String.ofList key, value), rest)
      | _ => none
  | _ => none

/-- Reads a value in which arrays and objects nest less than `depth` deep. -/
def value? : Nat → List Char → Option (Json × List Char)
  | 0, _ => none
  | depth + 1, cs =>
    match skipSpace cs with
    | [] => none
    | c :: cs =>
      if c = '"' then (string? cs).map fun (text, rest) => (.string (String.ofList text), rest)
      else if c = '[' then
        if depth = 0 then none
        else (group ']' (value? depth) cs).map fun (items, rest) => (.array items, rest)
      else if c = '\x7b' then
        if depth = 0 then none
        else (group '\x7d' (field? (value? depth)) cs).map fun (fields, rest) => (.object fields, rest)
      else if c = 'n' then (word? ['u', 'l', 'l'] cs).map fun rest => (.null, rest)
      else if c = 't' then (word? ['r', 'u', 'e'] cs).map fun rest => (.bool true, rest)
      else if c = 'f' then (word? ['a', 'l', 's', 'e'] cs).map fun rest => (.bool false, rest)
      else if c = '-' then (number? cs).map fun rest => (.number, rest)
      else (number? (c :: cs)).map fun rest => (.number, rest)

def parse? (text : String) : Option Json :=
  match value? 128 text.toList with
  | some (value, rest) => if (skipSpace rest).isEmpty then some value else none
  | none => none

end Json

end SolidityCompass
