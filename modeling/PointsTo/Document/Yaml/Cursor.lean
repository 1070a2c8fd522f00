/-!
Places in YAML texts. Lines end at a line break of any kind: those of the usual kinds are all the
same, while the two separators of lines and paragraphs also count as characters of their own.
-/
namespace PointsTo.Yaml

def isBlank (c : Char) : Bool := c = ' ' || c = '\t'

def isBreak (c : Char) : Bool := c = '\n' || c = '\u2028' || c = '\u2029'

/-- Whether a text goes on with a blank, a line break, or not at all. -/
def blankAhead : List Char → Bool
  | [] => true
  | c :: _ => isBlank c || isBreak c

def breakAhead : List Char → Bool
  | [] => true
  | c :: _ => isBreak c

def markerAhead : List Char → Bool
  | '-' :: '-' :: '-' :: rest => blankAhead rest
  | '.' :: '.' :: '.' :: rest => blankAhead rest
  | _ => false

def normalizeBreaks : List Char → List Char
  | '\r' :: '\n' :: rest => '\n' :: normalizeBreaks rest
  | '\r' :: rest => '\n' :: normalizeBreaks rest
  | '\x85' :: rest => '\n' :: normalizeBreaks rest
  | c :: rest => c :: normalizeBreaks rest
  | [] => []

def isAllowed (c : Char) : Bool :=
  let n := c.toNat
  n = 0x09 || n = 0x0A || n = 0x0D || (0x20 ≤ n && n ≤ 0x7E) || n = 0x85 ||
    (0xA0 ≤ n && n ≤ 0xD7FF) || (0xE000 ≤ n && n ≤ 0xFFFD) || 0x10000 ≤ n

/-- The mark that may stand before a line. -/
def isByteOrderMark (c : Char) : Bool := c = '\ufeff'

/-- A place in a text. -/
structure Cursor where
  rest : List Char
  line : Nat := 0
  column : Nat := 0
  index : Nat := 0

namespace Cursor

def next (c : Cursor) : Cursor :=
  { c with rest := c.rest.drop 1, column := c.column + 1, index := c.index + 1 }

def skip (c : Cursor) (n : Nat) : Cursor :=
  { c with rest := c.rest.drop n, column := c.column + n, index := c.index + n }

def newLine (c : Cursor) : Cursor :=
  { rest := c.rest.drop 1, line := c.line + 1, column := 0, index := c.index + 1 }

def takeWhile (c : Cursor) (p : Char → Bool) : List Char := c.rest.takeWhile p

/-- The place after the characters that have a property, of which none is a line break. -/
def skipWhile (c : Cursor) (p : Char → Bool) : Cursor := c.skip (c.takeWhile p).length

/-- The end of the line, where only blanks and a comment are left of it. -/
def lineEnd? (c : Cursor) : Option Cursor :=
  let c := c.skipWhile isBlank
  let c := match c.rest with
    | '#' :: _ => c.skipWhile fun d => !isBreak d
    | _ => c
  if breakAhead c.rest then some c else none

/-- The next line, if there is one, where only blanks and a comment are left of this one. -/
def nextLine? (c : Cursor) : Option Cursor :=
  c.lineEnd?.map fun c => if c.rest.isEmpty then c else c.newLine

end Cursor

end PointsTo.Yaml
