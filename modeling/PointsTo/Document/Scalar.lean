import PointsTo.Document.Doc

/-!
The types of scalars. A plain scalar is nothing, a truth value, an integer in one of four bases or
another number if it looks like one, and else a string. A tag before a scalar decides its type, and
the scalar has to look like one of that type.
-/
namespace PointsTo.Doc

def digitIn? (base : Nat) (c : Char) : Option Nat :=
  let d? :=
    if '0' ≤ c ∧ c ≤ '9' then some (c.toNat - '0'.toNat)
    else if 'a' ≤ c ∧ c ≤ 'f' then some (c.toNat - 'a'.toNat + 10)
    else if 'A' ≤ c ∧ c ≤ 'F' then some (c.toNat - 'A'.toNat + 10)
    else none
  d?.filter (· < base)

def digitsIn? (base start : Nat) : List Char → Option Nat
  | [] => some start
  | c :: rest =>
    match digitIn? base c with
    | some d => digitsIn? base (base * start + d) rest
    | none => none

def numeralIn? (base : Nat) : List Char → Option Nat
  | [] => none
  | cs => digitsIn? base 0 cs

def hasLeadingZero : List Char → Bool
  | '0' :: c :: rest => (c :: rest).all Char.isDigit
  | _ => false

/-- The magnitude of an integer without its sign. -/
def magnitude? : List Char → Option Nat
  | '0' :: 'x' :: rest => numeralIn? 16 rest
  | '0' :: 'o' :: rest => numeralIn? 8 rest
  | '0' :: 'b' :: rest => numeralIn? 2 rest
  | cs => if hasLeadingZero cs then none else numeralIn? 10 cs

def integer? : List Char → Option Int
  | '+' :: rest => (magnitude? rest).map Int.ofNat
  | '-' :: rest => (magnitude? rest).map fun n => -(n : Int)
  | cs => (magnitude? cs).map Int.ofNat

/-- A decimal number without a sign: its digits as one number, and the power of ten to take it to. -/
def decimal? (cs : List Char) : Option (Nat × Int) :=
  let whole := cs.takeWhile Char.isDigit
  let afterWhole := cs.dropWhile Char.isDigit
  let (part, tail) := match afterWhole with
    | '.' :: rest => (rest.takeWhile Char.isDigit, rest.dropWhile Char.isDigit)
    | _ => ([], afterWhole)
  match numeralIn? 10 (whole ++ part) with
  | none => none
  | some m =>
    let scale : Int := -(part.length : Int)
    match tail with
    | [] => some (m, scale)
    | e :: rest =>
      if e = 'e' ∨ e = 'E' then
        match rest with
        | '-' :: ds => (numeralIn? 10 ds).map fun n => (m, scale - n)
        | '+' :: ds => (numeralIn? 10 ds).map fun n => (m, scale + n)
        | ds => (numeralIn? 10 ds).map fun n => (m, scale + n)
      else none

/-- The least number that rounds to infinity in double precision. -/
def overflowBound : Nat := 1 <<< 1024 - 1 <<< 970

/-- Whether `m` times ten to the power `e` is finite in double precision. -/
def isFinite (m : Nat) (e : Int) : Bool :=
  let places : Int := (Nat.toDigits 10 m).length + e
  if m = 0 then true
  else if places < 300 then true
  else if places > 320 then false
  else if 0 ≤ e then m * Nat.pow 10 e.toNat < overflowBound
  else m < overflowBound * Nat.pow 10 (-e).toNat

def unsigned : List Char → List Char
  | '+' :: rest => rest
  | '-' :: rest => rest
  | cs => cs

/-- Whether a text is a number that need not be an integer. -/
def isFraction (cs : List Char) : Bool :=
  let body := unsigned cs
  [".inf", ".Inf", ".INF"].contains (String.ofList body)
    || [".nan", ".NaN", ".NAN"].contains (String.ofList cs)
    || match decimal? body with
      | some (m, e) => isFinite m e
      | none => false

/-- An integer as far as it fits a word; integers of up to two words cannot be read. -/
def ofInteger? (n : Int) : Option Doc :=
  if -Int.pow 2 63 ≤ n ∧ n < Int.pow 2 64 then some (int n)
  else if -Int.pow 2 127 ≤ n ∧ n < Int.pow 2 128 then some unreadable
  else none

def ofIntegerText? (text : String) : Option Doc := (integer? text.toList).bind ofInteger?

def ofPlain (text : String) : Doc :=
  if text.isEmpty || isNullWord text then null
  else match boolWord? text, ofIntegerText? text with
    | some b, _ => bool b
    | none, some d => d
    | none, none =>
      if !hasLeadingZero (unsigned text.toList) && isFraction text.toList then fraction else str text

/-- A tag of the program's own, for which there is no type. -/
def isLocalTag (tag : String) : Bool := tag.startsWith "!"

/-- The typed value of a scalar after a tag; of an unknown type it is a string. -/
def ofTagged (tag text : String) : Doc :=
  if tag = boolTag then ((boolWord? text).map bool).getD unreadable
  else if tag = commonTag "int" then (ofIntegerText? text).getD unreadable
  else if tag = commonTag "float" then
    if isFraction text.toList then fraction else unreadable
  else if tag = nullTag then if isNullWord text then null else unreadable
  else if isLocalTag tag then unreadable
  else str text

mutual

def typed : Doc → Doc
  | plain t => ofPlain t
  | list items => list (typedItems items)
  | map entries => map (typedEntries entries)
  | tagged tag (plain t) => ofTagged tag t
  | tagged tag (str t) => ofTagged tag t
  | tagged tag d => if isLocalTag tag then unreadable else d.typed
  | d => d

def typedItems : List Doc → List Doc
  | [] => []
  | d :: rest => d.typed :: typedItems rest

def typedEntries : List (Doc × Doc) → List (Doc × Doc)
  | [] => []
  | (k, v) :: rest => (k.typed, v.typed) :: typedEntries rest

end

end PointsTo.Doc
