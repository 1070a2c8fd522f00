import PointsTo.Text.Decimal

/-!
Documents: nested lists and maps of scalars. A plain scalar is a text whose type is decided by
whoever reads it; all other scalars have a type of their own. Readers answer none where a document
does not have the shape they ask for; what they do not ask for they pass over.
-/
namespace PointsTo

inductive Doc
  | plain (text : String)
  | str (text : String)
  | null
  | bool (value : Bool)
  | int (value : Int)
  /-- A number that is no integer of a word. -/
  | fraction
  /-- A value that can be passed over but not read: a number out of range, a text that is no text, a
  collection that is nested too deep. -/
  | unreadable
  | list (items : List Doc)
  | map (entries : List (Doc × Doc))
  /-- A value with a type that is written before it. -/
  | tagged (tag : String) (value : Doc)

instance : Inhabited Doc := ⟨.null⟩

namespace Doc

mutual

/-- The document in which nothing is nested deeper than a limit: what would be cannot be read. -/
def within : Nat → Doc → Doc
  | 0, list _ => unreadable
  | 0, map _ => unreadable
  | n + 1, list items => list (itemsWithin n items)
  | n + 1, map entries => map (entriesWithin n entries)
  | n, tagged tag d => tagged tag (d.within n)
  | _, d => d

def itemsWithin (n : Nat) : List Doc → List Doc
  | [] => []
  | d :: rest => d.within n :: itemsWithin n rest

def entriesWithin (n : Nat) : List (Doc × Doc) → List (Doc × Doc)
  | [] => []
  | (k, d) :: rest => (k.within n, d.within n) :: entriesWithin n rest

end

mutual

def readable : Doc → Bool
  | unreadable => false
  | list items => itemsReadable items
  | map entries => entriesReadable entries
  | tagged _ d => d.readable
  | _ => true

def itemsReadable : List Doc → Bool
  | [] => true
  | d :: rest => d.readable && itemsReadable rest

def entriesReadable : List (Doc × Doc) → Bool
  | [] => true
  | (k, d) :: rest => k.readable && d.readable && entriesReadable rest

end

@[match_pattern] abbrev ofNat (n : Nat) : Doc := .int (Int.ofNat n)

def ofNats (ns : List Nat) : Doc := .list (ns.map ofNat)

def ofOption (write : α → Doc) : Option α → Doc
  | none => .null
  | some a => write a

def record (fields : List (String × Doc)) : Doc := .map (fields.map fun (k, d) => (.str k, d))

def isNullWord (text : String) : Bool := ["null", "Null", "NULL", "~"].contains text

def boolWord? (text : String) : Option Bool :=
  if ["true", "True", "TRUE"].contains text then some true
  else if ["false", "False", "FALSE"].contains text then some false
  else none

def commonTag (name : String) : String := "tag:yaml.org,2002:" ++ name

def nullTag : String := commonTag "null"

def boolTag : String := commonTag "bool"

/-- A text; a plain scalar is its text whatever it looks like. -/
def text? : Doc → Option String
  | plain t | str t => some t
  | tagged _ d => d.text?
  | _ => none

def bool? : Doc → Option Bool
  | plain t => boolWord? t
  | bool b => some b
  | tagged _ d => d.bool?
  | _ => none

def isNothing : Doc → Bool
  | plain t => t.isEmpty || isNullWord t
  | null => true
  | _ => false

/-- A value that may be absent; after the tag of absence only a word for nothing stands. -/
def optional? (read : Doc → Option α) (d : Doc) : Option (Option α) :=
  match d with
  | tagged tag (plain t) =>
    if tag ≠ nullTag then (read d).map some
    else if isNullWord t then some none
    else none
  | _ => if d.isNothing then some none else (read d).map some

/-- A list; a plain scalar without text is the empty list. -/
def list? (read : Doc → Option α) : Doc → Option (List α)
  | list items => items.mapM read
  | plain t => if t.isEmpty then some [] else none
  | tagged _ d => list? read d
  | _ => none

def nat? (bound : Nat) : Doc → Option Nat
  | int n => if 0 ≤ n ∧ n < bound then some n.toNat else none
  | _ => none

def int64? : Doc → Option Int
  | int n => if -Int.pow 2 63 ≤ n ∧ n < Int.pow 2 63 then some n else none
  | _ => none

/-- Named values in the order in which they are written. -/
abbrev Fields := List (String × Doc)

/-- The named values of a map; a plain scalar without text is the map without entries. With
`positional`, a list gives the values of the first names in order. -/
def entries? (positional : Bool) (names : List String) : Doc → Option Fields
  | map entries => entries.mapM fun (key, value) => key.text?.map fun k => (k, value)
  | plain t => if t.isEmpty then some [] else none
  | list items =>
    if positional && items.length ≤ names.length then some (names.zip items) else none
  | tagged _ d => entries? positional names d
  | _ => none

/-- The fields with the given names, of which none may occur twice; others are left out. -/
def known? (names : List String) (fields : Fields) : Option Fields :=
  let known := fields.filter fun (k, _) => names.contains k
  if (known.map (·.1)).Nodup then some known else none

def fields? (positional : Bool) (names : List String) (d : Doc) : Option Fields :=
  (d.entries? positional names).bind (known? names)

def onlyFields? (positional : Bool) (names : List String) (d : Doc) : Option Fields :=
  match d.entries? positional names with
  | none => none
  | some fields =>
    if (fields.map (·.1)).Nodup && fields.all fun (k, _) => names.contains k then some fields
    else none

namespace Fields

def required? (fs : Fields) (read : Doc → Option α) (name : String) : Option α :=
  (fs.lookup name).bind read

def withDefault? (fs : Fields) (read : Doc → Option α) (name : String) (default : α) : Option α :=
  match fs.lookup name with
  | none => some default
  | some d => read d

def absent? (fs : Fields) (read : Doc → Option α) (name : String) : Option (Option α) :=
  fs.withDefault? (optional? read) name none

end Fields

end Doc

end PointsTo
