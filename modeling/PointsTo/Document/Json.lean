import PointsTo.Document.Scalar

/-!
Reading JSON. The grammar is the strict one: no comments, no trailing commas, no leading zeros, no
control characters inside strings. Numbers out of range, strings with a surrogate alone and values
that are nested too deep keep to the grammar, but cannot be read.
-/
namespace PointsTo.Json

def isBlank (c : Char) : Bool := c = ' ' || c = '\t' || c = '\n' || c = '\r'

def skipBlanks (cs : List Char) : List Char := cs.dropWhile isBlank

/-- The character of an escape by one letter. -/
def escaped? : Char → Option Char
  | '"' => some '"'
  | '\\' => some '\\'
  | '/' => some '/'
  | 'b' => some '\x08'
  | 'f' => some '\x0c'
  | 'n' => some '\n'
  | 'r' => some '\r'
  | 't' => some '\t'
  | _ => none

def readUnits : List Char → Option (List Nat × List Char)
  | [] => none
  | '"' :: rest => some ([], rest)
  | '\\' :: 'u' :: a :: b :: c :: d :: rest =>
    match Doc.numeralIn? 16 [a, b, c, d], readUnits rest with
    | some n, some (units, rest) => some (n :: units, rest)
    | _, _ => none
  | '\\' :: e :: rest =>
    match escaped? e, readUnits rest with
    | some c, some (units, rest) => some (c.toNat :: units, rest)
    | _, _ => none
  | c :: rest =>
    if c.toNat < 0x20 then none
    else (readUnits rest).map fun (units, rest) => (c.toNat :: units, rest)

/-- The characters of units: a high surrogate needs a low one behind it, and nothing else may stand
before a low one. -/
def charsOf? : List Nat → Option (List Char)
  | [] => some []
  | [n] => if n.isValidChar then some [Char.ofNat n] else none
  | high :: low :: rest =>
    if 0xD800 ≤ high ∧ high < 0xDC00 then
      if 0xDC00 ≤ low ∧ low < 0xE000 then
        (charsOf? rest).map (Char.ofNat (0x10000 + (high - 0xD800) * 0x400 + (low - 0xDC00)) :: ·)
      else none
    else if high.isValidChar then (charsOf? (low :: rest)).map (Char.ofNat high :: ·)
    else none

def readString (cs : List Char) : Option (Doc × List Char) :=
  (readUnits cs).map fun (units, rest) =>
    (((charsOf? units).map fun cs => Doc.str (String.ofList cs)).getD .unreadable, rest)

def isNumberChar (c : Char) : Bool :=
  c.isDigit || c = '-' || c = '+' || c = '.' || c = 'e' || c = 'E'

/-- Whether a number without its sign keeps to the grammar: no leading zero, digits on both sides
of the point and in the exponent. -/
def isStrict (cs : List Char) : Bool :=
  let whole := cs.takeWhile Char.isDigit
  let tail := cs.dropWhile Char.isDigit
  !whole.isEmpty && !Doc.hasLeadingZero whole &&
    match tail with
    | '.' :: rest => !(rest.takeWhile Char.isDigit).isEmpty && (Doc.decimal? cs).isSome
    | _ => (Doc.decimal? cs).isSome

def wordMax : Nat := Text.wordBound - 1

/-- Appends digits to a significand as long as it fits a word: the significand, and the digits that
are left. -/
def appendDigits (significand : Nat) : List Char → Nat × List Char
  | [] => (significand, [])
  | c :: rest =>
    let longer := 10 * significand + (Text.digit? c).getD 0
    if wordMax < longer then (significand, c :: rest) else appendDigits longer rest

/-- A number rounded to the 53 leading bits of double precision, half to even. -/
def roundBits (n : Nat) : Nat :=
  let shift := n.log2 + 1 - 53
  let unit := 1 <<< shift
  let (q, r) := (n / unit, n % unit)
  if 2 * r < unit || (2 * r = unit && q % 2 = 0) then q * unit else (q + 1) * unit

/-- Whether a significand times a power of ten is in the range of double precision. The significand
and the power are rounded before they are multiplied, and the powers end at the 308th. -/
def inRange (significand : Nat) (exponent : Int) : Bool :=
  if significand = 0 || exponent < 0 then true
  else if 308 < exponent then false
  else roundBits significand * roundBits (Nat.pow 10 exponent.toNat) < Doc.overflowBound

def writtenExponent (digits : List Char) : Nat := (Text.numeral? digits).getD 0

/-- Whether a number without sign that keeps to the grammar is in range. Digits of the whole part that
do not fit the significand count in the exponent, those of the other part are left out. -/
def isBounded (cs : List Char) : Bool :=
  let whole := cs.takeWhile Char.isDigit
  let tail := cs.dropWhile Char.isDigit
  let (part, tail) := match tail with
    | '.' :: rest => (rest.takeWhile Char.isDigit, rest.dropWhile Char.isDigit)
    | _ => ([], tail)
  let (significand, cut) := appendDigits 0 whole
  let (significand, left) := appendDigits significand part
  let scale : Int := cut.length - (part.length - left.length : Nat)
  match tail with
  | _ :: '-' :: digits => inRange significand (scale - writtenExponent digits)
  | _ :: '+' :: digits | _ :: digits => inRange significand (scale + writtenExponent digits)
  | [] => inRange significand scale

/-- A number; it is an integer if it is written as one and fits a word. -/
def number? (cs : List Char) : Option Doc :=
  let (negative, body) := match cs with
    | '-' :: rest => (true, rest)
    | _ => (false, cs)
  let other : Doc := if isBounded body then .fraction else .unreadable
  if !isStrict body then none
  else match Text.numeral? body with
    | some n =>
      if negative && (n = 0 || 1 <<< 63 < n) then some other
      else if negative then some (.int (-(n : Int)))
      else if n ≤ wordMax then some (.int n)
      else some other
    | none => some other

mutual

def readValue : Nat → List Char → Option (Doc × List Char)
  | 0, _ => none
  | n + 1, cs =>
    match skipBlanks cs with
    | '\x7b' :: rest =>
      match skipBlanks rest with
      | '\x7d' :: rest => some (.map [], rest)
      | rest => (readMembers n rest).map fun (ms, rest) => (.map ms, rest)
    | '[' :: rest =>
      match skipBlanks rest with
      | ']' :: rest => some (.list [], rest)
      | rest => (readItems n rest).map fun (items, rest) => (.list items, rest)
    | '"' :: rest => readString rest
    | 't' :: 'r' :: 'u' :: 'e' :: rest => some (.bool true, rest)
    | 'f' :: 'a' :: 'l' :: 's' :: 'e' :: rest => some (.bool false, rest)
    | 'n' :: 'u' :: 'l' :: 'l' :: rest => some (.null, rest)
    | cs => (number? (cs.takeWhile isNumberChar)).map fun d => (d, cs.dropWhile isNumberChar)

def readItems : Nat → List Char → Option (List Doc × List Char)
  | 0, _ => none
  | n + 1, cs =>
    match readValue n cs with
    | none => none
    | some (d, rest) =>
      match skipBlanks rest with
      | ',' :: rest => (readItems n rest).map fun (ds, rest) => (d :: ds, rest)
      | ']' :: rest => some ([d], rest)
      | _ => none

def readMembers : Nat → List Char → Option (List (Doc × Doc) × List Char)
  | 0, _ => none
  | n + 1, cs =>
    match skipBlanks cs with
    | '"' :: rest =>
      match readString rest with
      | none => none
      | some (key, rest) =>
        match skipBlanks rest with
        | ':' :: rest =>
          match readValue n rest with
          | none => none
          | some (d, rest) =>
            match skipBlanks rest with
            | ',' :: rest => (readMembers n rest).map fun (ms, rest) => ((key, d) :: ms, rest)
            | '\x7d' :: rest => some ([(key, d)], rest)
            | _ => none
        | _ => none
    | _ => none

end

/-- The depth to which what is read may be nested. -/
def depthLimit : Nat := 127

/-- A text that is one value with blanks around it. -/
def parse? (text : String) : Option Doc :=
  let cs := text.toList
  match readValue (2 * cs.length + 2) cs with
  | some (d, rest) => if (skipBlanks rest).isEmpty then some (d.within depthLimit) else none
  | none => none

def writeChar (c : Char) : List Char :=
  if c = '"' then ['\\', '"']
  else if c = '\\' then ['\\', '\\']
  else if c = '\x08' then ['\\', 'b']
  else if c = '\x0c' then ['\\', 'f']
  else if c = '\n' then ['\\', 'n']
  else if c = '\r' then ['\\', 'r']
  else if c = '\t' then ['\\', 't']
  else if c.toNat < 0x20 then
    ['\\', 'u', '0', '0'] ++ (if c.toNat < 0x10 then ['0'] else []) ++ Nat.toDigits 16 c.toNat
  else [c]

def quote (s : String) : String := "\"" ++ String.ofList (s.toList.flatMap writeChar) ++ "\""

end PointsTo.Json
