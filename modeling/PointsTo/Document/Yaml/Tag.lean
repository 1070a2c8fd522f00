import PointsTo.Document.Yaml.Scalar

/-!
Names in YAML texts: anchors, tags and directives. A tag is a handle and a suffix; a directive may
say what a handle stands for.
-/
namespace PointsTo.Yaml

def isWordChar (c : Char) : Bool := c.isAlphanum || c = '_' || c = '-'

/-- The characters of tags; `wide` admits those that also divide flow collections. -/
def isTagChar (wide : Bool) (c : Char) : Bool :=
  isWordChar c
    || [';', '/', '?', ':', '@', '&', '=', '+', '$', '.', '%', '!', '~', '*', '\'', '(', ')'].contains c
    || (wide && [',', '[', ']'].contains c)

/-- A name after its indicator: a word before a blank or one of some indicators. -/
def readName (at_ : Cursor) : Option (String × Cursor) :=
  let word := at_.takeWhile isWordChar
  let after := at_.skip word.length
  if word.isEmpty then none
  else match after.rest with
    | [] => some (String.ofList word, after)
    | c :: _ =>
      if blankAhead after.rest || ['?', ':', ',', ']', '\x7d', '%', '@', '\x60'].contains c then
        some (String.ofList word, after)
      else none

/-- The number of bytes of a character by its first byte. -/
def byteCount? (byte : Nat) : Option Nat :=
  if byte < 0x80 then some 1
  else if 0xC0 ≤ byte ∧ byte < 0xE0 then some 2
  else if 0xE0 ≤ byte ∧ byte < 0xF0 then some 3
  else if 0xF0 ≤ byte ∧ byte < 0xF8 then some 4
  else none

def escapedByte? : List Char → Option Nat
  | '%' :: rest => hexNumber? 2 rest
  | _ => none

/-- Whether escaped bytes that go on with a character stand at the beginning of a text. -/
def trailingBytes : Nat → List Char → Bool
  | 0, _ => true
  | n + 1, cs =>
    match escapedByte? cs with
    | some byte => 0x80 ≤ byte && byte < 0xC0 && trailingBytes n (cs.drop 3)
    | none => false

/-- Whether the escapes in a tag are those of whole characters. -/
def escapesWhole : Nat → List Char → Bool
  | 0, _ => false
  | _, [] => true
  | n + 1, c :: rest =>
    if c ≠ '%' then escapesWhole n rest
    else match (escapedByte? (c :: rest)).bind byteCount? with
      | some count =>
        trailingBytes (count - 1) (rest.drop 2) && escapesWhole n (rest.drop (3 * count - 1))
      | none => false

/-- The characters of a tag, each escape one of them. -/
def unescape : List Char → List Char
  | '%' :: a :: b :: rest => Char.ofNat ((hexNumber? 2 [a, b]).getD 0) :: unescape rest
  | c :: rest => c :: unescape rest
  | [] => []

def readTagChars (wide : Bool) (at_ : Cursor) : Option (List Char × Cursor) :=
  let cs := at_.takeWhile (isTagChar wide)
  if escapesWhole (cs.length + 1) cs then some (unescape cs, at_.skip cs.length) else none

/-- A handle: a word between exclamation marks, of which the second may be missing. -/
def readHandle (at_ : Cursor) : Option (List Char × Cursor) :=
  match at_.rest with
  | '!' :: rest =>
    let word := rest.takeWhile isWordChar
    let handle := '!' :: word ++ match rest.drop word.length with
      | '!' :: _ => ['!']
      | _ => []
    some (handle, at_.skip handle.length)
  | _ => none

def isWholeHandle (handle : List Char) : Bool := 1 < handle.length && handle.getLast? = some '!'

/-- A tag without handle, between angle brackets. -/
def readVerbatimTag (at_ : Cursor) : Option (String × String × Cursor) :=
  match readTagChars true (at_.skip 2) with
  | some (suffix, after) =>
    match suffix, after.rest with
    | _ :: _, '>' :: _ => some ("", String.ofList suffix, after.next)
    | _, _ => none
  | none => none

/-- A tag with a handle, or with the mark alone for a handle; the mark alone is a tag of its own. -/
def readShortTag (at_ : Cursor) : Option (String × String × Cursor) :=
  match readHandle at_ with
  | none => none
  | some (handle, after) =>
    match readTagChars false after with
    | none => none
    | some (suffix, after) =>
      if isWholeHandle handle then
        if suffix.isEmpty then none else some (String.ofList handle, String.ofList suffix, after)
      else
        match handle.drop 1 ++ suffix with
        | [] => some ("", "!", after)
        | suffix => some ("!", String.ofList suffix, after)

/-- The handle and the suffix of a tag, which ends before a blank or between the items of a flow
collection. -/
def readTag (flow : Bool) (at_ : Cursor) : Option (String × String × Cursor) :=
  let read := match at_.rest with
    | '!' :: '<' :: _ => readVerbatimTag at_
    | _ => readShortTag at_
  match read with
  | none => none
  | some (handle, suffix, after) =>
    if blankAhead after.rest || (flow && after.rest.head? = some ',') then some (handle, suffix, after)
    else none

/-- What a text says about itself before a document. -/
inductive Directive
  | version (major minor : Nat)
  | handle (name stands : String)
  deriving DecidableEq

namespace Directive

def readNumber (at_ : Cursor) : Option (Nat × Cursor) :=
  let digits := at_.takeWhile Char.isDigit
  if digits.isEmpty || 9 < digits.length then none
  else some (digits.foldl (fun n c => 10 * n + (hexDigit? c).getD 0) 0, at_.skip digits.length)

def readVersion (at_ : Cursor) : Option (Directive × Cursor) :=
  match readNumber (at_.skipWhile isBlank) with
  | none => none
  | some (major, at_) =>
    match at_.rest with
    | '.' :: _ => (readNumber at_.next).map fun (minor, at_) => (version major minor, at_)
    | _ => none

def readHandleMeaning (at_ : Cursor) : Option (Directive × Cursor) :=
  match readHandle (at_.skipWhile isBlank) with
  | none => none
  | some (name, at_) =>
    if (isWholeHandle name || name = ['!']) && (at_.rest.head?.elim false isBlank) then
      match readTagChars true (at_.skipWhile isBlank) with
      | some (c :: cs, after) =>
        if blankAhead after.rest then
          some (handle (String.ofList name) (String.ofList (c :: cs)), after)
        else none
      | _ => none
    else none

/-- A directive after its indicator, with the rest of its line. -/
def read (at_ : Cursor) : Option (Directive × Cursor) :=
  let name := at_.takeWhile isWordChar
  let after := at_.skip name.length
  let directive :=
    if !blankAhead after.rest then none
    else match String.ofList name with
      | "YAML" => readVersion after
      | "TAG" => readHandleMeaning after
      | _ => none
  match directive with
  | none => none
  | some (d, after) => after.nextLine?.map fun at_ => (d, at_)

end Directive

end PointsTo.Yaml
