import PointsTo.Document.Yaml.Cursor

/-!
Scalars in YAML texts. A scalar may go on over several lines; the breaks between them are folded,
except in a literal block. Characters are gathered with the last first.
-/
namespace PointsTo.Yaml

/-- How a scalar is written, as far as its type depends on it. -/
inductive Style
  | plain | literal | quoted
  deriving DecidableEq

/-- Line breaks folded: a single one is a blank, and of several the first stands for nothing. A
separator stays what it is. -/
def fold (first : Option Char) (more : List Char) : List Char :=
  match first with
  | none => more
  | some c => if c ≠ '\n' then more ++ [c] else if more.isEmpty then [' '] else more

/-- Blanks and line breaks inside a scalar that may turn out to belong to it. -/
structure Gap where
  /-- Blanks before the first line break. -/
  blanks : List Char := []
  /-- Whether there is a line break, and which one; one that is escaped stands for nothing. -/
  broken : Bool := false
  first : Option Char := none
  /-- The line breaks after the first. -/
  more : List Char := []

namespace Gap

def isEmpty (g : Gap) : Bool := g.blanks.isEmpty && !g.broken

def addBlank (g : Gap) (c : Char) : Gap := if g.broken then g else { g with blanks := c :: g.blanks }

def addBreak (g : Gap) (c : Char) : Gap :=
  if g.broken then { g with more := c :: g.more } else { g with broken := true, first := some c }

/-- A gap that starts with an escaped line break. -/
def escaped : Gap := { broken := true }

def folded (g : Gap) : List Char := if g.broken then fold g.first g.more else g.blanks

end Gap

def isFlowIndicator (c : Char) : Bool := [',', '[', ']', '\x7b', '\x7d'].contains c

/-- The place in a plain scalar: what is read and the gap after it. -/
def readPlain (flow : Bool) (indent : Int) :
    (cs : List Char) → Cursor → List Char → Gap → Option (String × Cursor × Bool)
  | [], at_, acc, gap => some (String.ofList acc.reverse, at_, gap.broken)
  | c :: rest, at_, acc, gap =>
    if isBreak c then readPlain flow indent rest at_.newLine acc (gap.addBreak c)
    else if isBlank c then
      if gap.broken && at_.column < indent && c = '\t' then none
      else readPlain flow indent rest at_.next acc (gap.addBlank c)
    else if !gap.isEmpty &&
        ((!flow && at_.column < indent) || c = '#' || (at_.column = 0 && markerAhead (c :: rest))) then
      some (String.ofList acc.reverse, at_, gap.broken)
    else if flow && c = ':' && (rest.head?.elim false fun d => d = '?' || isFlowIndicator d) then none
    else if (c = ':' && blankAhead rest) || (flow && isFlowIndicator c) then
      some (String.ofList acc.reverse, at_, gap.broken)
    else readPlain flow indent rest at_.next (c :: gap.folded ++ acc) {}

/-- The place in a scalar in single quotes; a quote is written twice. -/
def readSingle : (cs : List Char) → Cursor → List Char → Gap → Option (String × Cursor)
  | [], _, _, _ => none
  | '\'' :: '\'' :: rest, at_, acc, gap =>
    readSingle rest (at_.skip 2) ('\'' :: gap.folded ++ acc) {}
  | c :: rest, at_, acc, gap =>
    if at_.column = 0 && markerAhead (c :: rest) then none
    else if isBreak c then readSingle rest at_.newLine acc (gap.addBreak c)
    else if isBlank c then readSingle rest at_.next acc (gap.addBlank c)
    else if c = '\'' then some (String.ofList (gap.folded ++ acc).reverse, at_.next)
    else readSingle rest at_.next (c :: gap.folded ++ acc) {}

/-- The character of an escape by one letter. -/
def escaped? : Char → Option Char
  | '0' => some '\x00'
  | 'a' => some '\x07'
  | 'b' => some '\x08'
  | 't' => some '\t'
  | '\t' => some '\t'
  | 'n' => some '\n'
  | 'v' => some '\x0b'
  | 'f' => some '\x0c'
  | 'r' => some '\r'
  | 'e' => some '\x1b'
  | ' ' => some ' '
  | '"' => some '"'
  | '/' => some '/'
  | '\\' => some '\\'
  | 'N' => some '\x85'
  | '_' => some '\xa0'
  | 'L' => some '\u2028'
  | 'P' => some '\u2029'
  | _ => none

/-- The number of digits of an escape by number. -/
def escapeWidth? : Char → Option Nat
  | 'x' => some 2
  | 'u' => some 4
  | 'U' => some 8
  | _ => none

def hexDigit? (c : Char) : Option Nat :=
  if '0' ≤ c ∧ c ≤ '9' then some (c.toNat - '0'.toNat)
  else if 'a' ≤ c ∧ c ≤ 'f' then some (c.toNat - 'a'.toNat + 10)
  else if 'A' ≤ c ∧ c ≤ 'F' then some (c.toNat - 'A'.toNat + 10)
  else none

/-- The number of hexadecimal digits at the beginning of a text. -/
def hexNumber? (width : Nat) (cs : List Char) : Option Nat :=
  if cs.length < width then none
  else (cs.take width).foldl (fun n? c =>
    match n?, hexDigit? c with
    | some n, some d => some (16 * n + d)
    | _, _ => none) (some 0)

/-- The character with a number in hexadecimal digits; there are none in the surrogate range. -/
def coded? (width : Nat) (cs : List Char) : Option Char :=
  match hexNumber? width cs with
  | some n => if n.isValidChar then some (Char.ofNat n) else none
  | none => none

def readDouble : Nat → Cursor → List Char → Gap → Option (String × Cursor)
  | 0, _, _, _ => none
  | n + 1, at_, acc, gap =>
    match at_.rest with
    | [] => none
    | c :: rest =>
      if at_.column = 0 && markerAhead (c :: rest) then none
      else if isBreak c then readDouble n at_.newLine acc (gap.addBreak c)
      else if isBlank c then readDouble n at_.next acc (gap.addBlank c)
      else if c = '"' then some (String.ofList (gap.folded ++ acc).reverse, at_.next)
      else if c = '\\' then
        let acc := gap.folded ++ acc
        match rest with
        | [] => none
        | e :: digits =>
          if isBreak e then readDouble n at_.next.newLine acc Gap.escaped
          else match escapeWidth? e with
            | some width =>
              match coded? width digits with
              | some u => readDouble n (at_.skip (2 + width)) (u :: acc) {}
              | none => none
            | none =>
              match escaped? e with
              | some u => readDouble n (at_.skip 2) (u :: acc) {}
              | none => none
      else readDouble n at_.next (c :: gap.folded ++ acc) {}

/-- What becomes of the line breaks at the end of a block. -/
inductive Chomping
  | strip | clip | keep

namespace Chomping

def ofChar? : Char → Option Chomping
  | '-' => some strip
  | '+' => some keep
  | _ => none

end Chomping

/-- The head of a block: what becomes of its end, and how far it is indented, if that is said. -/
structure BlockHead where
  chomping : Chomping := .clip
  increment : Nat := 0

namespace BlockHead

/-- An indentation is one digit other than zero. -/
def increment? (c : Char) : Option Nat := if '1' ≤ c ∧ c ≤ '9' then hexDigit? c else none

/-- The head of a block and its number of characters; the two parts come in any order. A zero is
left over, so that the line does not end after the head. -/
def read : List Char → BlockHead × Nat
  | [] => ({}, 0)
  | c :: rest =>
    match Chomping.ofChar? c, increment? c with
    | some chomping, _ =>
      match rest.head?.bind increment? with
      | some increment => (⟨chomping, increment⟩, 2)
      | none => ({ chomping }, 1)
    | none, some increment =>
      match rest.head?.bind Chomping.ofChar? with
      | some chomping => (⟨chomping, increment⟩, 2)
      | none => ({ increment }, 1)
    | none, none => ({}, 0)

end BlockHead

/-- Skips the indentation of the lines of a block up to a line that is not blank: the furthest
column, the line breaks, and the place. Without an indentation, all blanks belong to it. -/
def skipIndents (indent : Nat) :
    Nat → Cursor → Nat → List Char → Option (Nat × List Char × Cursor)
  | 0, _, _, _ => none
  | n + 1, at_, widest, breaks =>
    let spaces := (at_.takeWhile (· = ' ')).length
    let at_ := at_.skip (if indent = 0 then spaces else min spaces (indent - at_.column))
    let widest := max widest at_.column
    match at_.rest with
    | [] => some (widest, breaks, at_)
    | c :: _ =>
      if c = '\t' && (indent = 0 || at_.column < indent) then none
      else if isBreak c then skipIndents indent n at_.newLine widest (c :: breaks)
      else some (widest, breaks, at_)

/-- A place in a block: what is read, the break of the last line, those after it, and whether the
last line started with a blank. -/
structure BlockPlace where
  at_ : Cursor
  text : List Char := []
  lead : Option Char := none
  breaks : List Char := []
  blank : Bool := false

namespace BlockPlace

/-- What is read with the break of the last line. -/
def withLead (b : BlockPlace) : List Char := b.lead.elim b.text (· :: b.text)

/-- What is read before the next line: between lines that start with no blank, breaks are folded. -/
def joined (b : BlockPlace) (literal blank : Bool) : List Char :=
  if !literal && b.lead = some '\n' && !b.blank && !blank then
    if b.breaks.isEmpty then ' ' :: b.text else b.breaks ++ b.text
  else b.breaks ++ b.withLead

def readLines (literal : Bool) (indent : Nat) : Nat → BlockPlace → Option BlockPlace
  | 0, _ => none
  | n + 1, b =>
    match b.at_.rest with
    | [] => some b
    | c :: _ =>
      if b.at_.column ≠ indent then some b
      else
        let line := b.at_.takeWhile fun d => !isBreak d
        let after := b.at_.skip line.length
        let lead := after.rest.head?
        let next := if lead.isSome then after.newLine else after
        match skipIndents indent n next 0 [] with
        | none => none
        | some (_, breaks, at_) =>
          readLines literal indent n
            { at_, text := line.reverse ++ b.joined literal (isBlank c), lead, breaks, blank := isBlank c }

def chomped (b : BlockPlace) : Chomping → List Char
  | .strip => b.text
  | .clip => b.withLead
  | .keep => b.breaks ++ b.withLead

end BlockPlace

/-- A block after its indicator; without an indentation of its own the furthest blanks before its
first line count. -/
def readBlock (literal : Bool) (outer : Int) (fuel : Nat) (at_ : Cursor) : Option (String × Cursor) :=
  let (head, length) := BlockHead.read at_.rest
  match (at_.skip length).nextLine? with
  | none => none
  | some at_ =>
    let said := if head.increment = 0 then 0 else (max outer 0).toNat + head.increment
    match skipIndents said fuel at_ 0 [] with
    | none => none
    | some (widest, breaks, at_) =>
      let indent := if said = 0 then max widest (max (outer + 1).toNat 1) else said
      (BlockPlace.readLines literal indent fuel { at_, breaks }).map fun b =>
        (String.ofList (b.chomped head.chomping).reverse, b.at_)

end PointsTo.Yaml
