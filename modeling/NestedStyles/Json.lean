/-!
Reading JSON texts. A string whose escapes name half of a surrogate pair is read, but has no text.
-/

namespace NestedStyles

inductive Json
  | null
  | bool (value : Bool)
  | number
  | string (text : Option String)
  | array (items : List Json)
  | object (members : List (Option String × Json))
  deriving Repr, Inhabited

namespace Json

/-- A character of a string, or a code unit given by an escape. -/
inductive Unit16
  | char (c : Char)
  | unit (n : Nat)
  deriving DecidableEq, Repr

def isHighSurrogate (n : Nat) : Bool := 0xD800 ≤ n && n ≤ 0xDBFF

def isLowSurrogate (n : Nat) : Bool := 0xDC00 ≤ n && n ≤ 0xDFFF

/-- The characters of a string. The two halves of a surrogate pair must stand together. -/
def decodeUnits : List Unit16 → Option (List Char)
  | [] => some []
  | .char c :: rest => (decodeUnits rest).map (c :: ·)
  | .unit high :: .unit low :: rest =>
    if isHighSurrogate high && isLowSurrogate low then
      (decodeUnits rest).map (Char.ofNat (0x10000 + (high - 0xD800) * 0x400 + (low - 0xDC00)) :: ·)
    else if isHighSurrogate high || isLowSurrogate high then none
    else (decodeUnits (.unit low :: rest)).map (Char.ofNat high :: ·)
  | .unit n :: rest =>
    if isHighSurrogate n || isLowSurrogate n then none
    else (decodeUnits rest).map (Char.ofNat n :: ·)

def hexDigit? (c : Char) : Option Nat :=
  if '0' ≤ c ∧ c ≤ '9' then some (c.toNat - '0'.toNat)
  else if 'a' ≤ c ∧ c ≤ 'f' then some (c.toNat - 'a'.toNat + 10)
  else if 'A' ≤ c ∧ c ≤ 'F' then some (c.toNat - 'A'.toNat + 10)
  else none

def hexUnit? (digits : List Char) : Option Nat :=
  digits.foldl (fun n c => do some ((← n) * 16 + (← hexDigit? c))) (some 0)

def escaped? : Char → Option Char
  | '\x22' => some '\x22'
  | '\\' => some '\\'
  | '/' => some '/'
  | 'b' => some '\x08'
  | 'f' => some '\x0c'
  | 'n' => some '\n'
  | 'r' => some '\r'
  | 't' => some '\t'
  | _ => none

/-- The units of a string, after its opening quote, and the text after its closing one. -/
def readUnits : List Char → Option (List Unit16 × List Char)
  | [] => none
  | '\x22' :: rest => some ([], rest)
  | '\\' :: 'u' :: a :: b :: c :: d :: rest => do
    let unit ← hexUnit? [a, b, c, d]
    let (units, tail) ← readUnits rest
    some (.unit unit :: units, tail)
  | '\\' :: c :: rest => do
    let char ← escaped? c
    let (units, tail) ← readUnits rest
    some (.char char :: units, tail)
  | c :: rest => do
    if c.toNat < 0x20 then none
    else
      let (units, tail) ← readUnits rest
      some (.char c :: units, tail)

def readString (cs : List Char) : Option (Option String × List Char) :=
  (readUnits cs).map fun (units, tail) => ((decodeUnits units).map String.ofList, tail)

def readDigits (cs : List Char) : Option (List Char) :=
  match cs with
  | c :: rest => if c.isDigit then some (rest.dropWhile Char.isDigit) else none
  | [] => none

def readWhole : List Char → Option (List Char)
  | '0' :: rest => some rest
  | cs => readDigits cs

def readFraction : List Char → Option (List Char)
  | '.' :: rest => readDigits rest
  | cs => some cs

def readExponent : List Char → Option (List Char)
  | 'e' :: '+' :: rest | 'e' :: '-' :: rest | 'E' :: '+' :: rest | 'E' :: '-' :: rest
  | 'e' :: rest | 'E' :: rest => readDigits rest
  | cs => some cs

def readNumber (cs : List Char) : Option (List Char) := do
  let unsigned := if cs.head? = some '-' then cs.tail else cs
  readExponent (← readFraction (← readWhole unsigned))

def isBlank (c : Char) : Bool := c = ' ' || c = '\n' || c = '\t' || c = '\r'

def skipBlanks (cs : List Char) : List Char := cs.dropWhile isBlank

mutual
def readValue : (fuel : Nat) → List Char → Option (Json × List Char)
  | 0, _ => none
  | fuel + 1, cs =>
    match skipBlanks cs with
    | '{' :: rest =>
      match skipBlanks rest with
      | '}' :: rest => some (.object [], rest)
      | rest => (readMembers fuel rest).map fun (members, tail) => (.object members, tail)
    | '[' :: rest =>
      match skipBlanks rest with
      | ']' :: rest => some (.array [], rest)
      | rest => (readItems fuel rest).map fun (items, tail) => (.array items, tail)
    | '\x22' :: rest => (readString rest).map fun (text, tail) => (.string text, tail)
    | 't' :: 'r' :: 'u' :: 'e' :: rest => some (.bool true, rest)
    | 'f' :: 'a' :: 'l' :: 's' :: 'e' :: rest => some (.bool false, rest)
    | 'n' :: 'u' :: 'l' :: 'l' :: rest => some (.null, rest)
    | cs => (readNumber cs).map fun tail => (.number, tail)
def readItems : (fuel : Nat) → List Char → Option (List Json × List Char)
  | 0, _ => none
  | fuel + 1, cs => do
    let (item, rest) ← readValue fuel cs
    match skipBlanks rest with
    | ',' :: rest =>
      let (items, tail) ← readItems fuel rest
      some (item :: items, tail)
    | ']' :: rest => some ([item], rest)
    | _ => none
def readMembers : (fuel : Nat) → List Char → Option (List (Option String × Json) × List Char)
  | 0, _ => none
  | fuel + 1, cs =>
    match skipBlanks cs with
    | '\x22' :: rest => do
      let (key, rest) ← readString rest
      match skipBlanks rest with
      | ':' :: rest =>
        let (value, rest) ← readValue fuel rest
        match skipBlanks rest with
        | ',' :: rest =>
          let (members, tail) ← readMembers fuel rest
          some ((key, value) :: members, tail)
        | '}' :: rest => some ([(key, value)], rest)
        | _ => none
      | _ => none
    | _ => none
end

/-- The value a text consists of. A level of nesting takes a character and two steps. -/
def parse (text : String) : Option Json :=
  match readValue (2 * text.length + 2) text.toList with
  | some (value, rest) => if (skipBlanks rest).isEmpty then some value else none
  | none => none

end Json

end NestedStyles
