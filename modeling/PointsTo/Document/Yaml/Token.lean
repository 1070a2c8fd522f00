import PointsTo.Document.Yaml.Tag

/-!
Tokens of YAML texts. Indentation becomes tokens of its own: a block collection starts where a line
is indented further than the collection around it, and ends where a line is indented less. A scalar
turns out to be a key only at the colon after it, so key tokens are put in front of it then.
-/
namespace PointsTo.Yaml

inductive Token
  | directive (d : Directive)
  | documentStart | documentEnd
  | blockSequenceStart | blockMappingStart | blockEnd
  | flowSequenceStart | flowSequenceEnd | flowMappingStart | flowMappingEnd
  | blockEntry | flowEntry | key | value
  | alias (name : String)
  | anchor (name : String)
  | tag (handle suffix : String)
  | scalar (style : Style) (text : String)
  deriving DecidableEq

/-- A scalar or collection that a colon may turn into a key. -/
structure KeyPlace where
  token : Nat
  /-- A key must follow, since the line starts with it. -/
  required : Bool
  line : Nat
  column : Nat
  index : Nat

structure Scanner where
  at_ : Cursor
  /-- The tokens so far, the last first, and their number. -/
  tokens : List Token := []
  count : Nat := 0
  /-- The column of the innermost block collection, and those around it. -/
  indent : Int := -1
  outer : List Int := []
  /-- What may be a key in the innermost flow collection, and in those around it. -/
  place : Option KeyPlace := none
  places : List (Option KeyPlace) := []
  keyAllowed : Bool := true

namespace Scanner

def inFlow (s : Scanner) : Bool := !s.places.isEmpty

def emit (s : Scanner) (t : Token) : Scanner :=
  { s with tokens := t :: s.tokens, count := s.count + 1 }

/-- Puts a token behind the first `n` ones. -/
def insertAt (s : Scanner) (n : Nat) (t : Token) : Scanner :=
  let later := s.count - n
  { s with tokens := s.tokens.take later ++ t :: s.tokens.drop later, count := s.count + 1 }

/-- Gives a possible key up; one that is required must not be. -/
def dropPlace (s : Scanner) : Option Scanner :=
  match s.place with
  | some p => if p.required then none else some { s with place := none }
  | none => some s

/-- A key ends on its line, within a thousand characters or so. -/
def dropStale (s : Scanner) : Option Scanner :=
  match s.place with
  | some p =>
    if p.line < s.at_.line || p.index + 1024 < s.at_.index then s.dropPlace else some s
  | none => some s

def savePlace (s : Scanner) : Option Scanner :=
  if s.keyAllowed then
    match s.dropPlace with
    | none => none
    | some s => some { s with place := some {
        token := s.count
        required := !s.inFlow && s.indent == (s.at_.column : Int)
        line := s.at_.line
        column := s.at_.column
        index := s.at_.index } }
  else some s

/-- Starts a block collection if a column is further in than the one around it. -/
def roll (s : Scanner) (column : Int) (token : Nat) (start : Token) : Scanner :=
  if !s.inFlow && s.indent < column then
    { s.insertAt token start with indent := column, outer := s.indent :: s.outer }
  else s

/-- Ends the block collections that are further in than a column: the column of the innermost one
that is left, those around it, and how many ended. -/
def unrolled (column : Int) : List Int → Int → Int × List Int × Nat
  | [], indent => if column < indent then (-1, [], 1) else (indent, [], 0)
  | o :: outer, indent =>
    if column < indent then
      let (indent, outer, n) := unrolled column outer o
      (indent, outer, n + 1)
    else (indent, o :: outer, 0)

def unroll (s : Scanner) (column : Int) : Scanner :=
  if s.inFlow then s
  else
    let (indent, outer, n) := unrolled column s.outer s.indent
    { s with
      indent, outer
      tokens := List.replicate n .blockEnd ++ s.tokens
      count := s.count + n }

/-- Skips blanks, comments and line breaks, and the mark before a line. A tab does not indent. -/
def skipGap : Nat → Scanner → Scanner
  | 0, s => s
  | n + 1, s =>
    match s.at_.rest with
    | [] => s
    | c :: _ =>
      if c = ' ' || (c = '\t' && (s.inFlow || !s.keyAllowed)) ||
          (isByteOrderMark c && s.at_.column = 0) then
        skipGap n { s with at_ := s.at_.next }
      else if c = '#' then
        skipGap n { s with at_ := s.at_.skipWhile fun d => !isBreak d }
      else if isBreak c then
        skipGap n { s with at_ := s.at_.newLine, keyAllowed := s.keyAllowed || !s.inFlow }
      else s

def marker (s : Scanner) (t : Token) : Option Scanner :=
  match (s.unroll (-1)).dropPlace with
  | none => none
  | some s => some ({ s with at_ := s.at_.skip 3, keyAllowed := false }.emit t)

def flowStart (s : Scanner) (t : Token) : Option Scanner :=
  match s.savePlace with
  | none => none
  | some s => some ({ s with
      places := s.place :: s.places, place := none, keyAllowed := true, at_ := s.at_.next }.emit t)

def flowEnd (s : Scanner) (t : Token) : Option Scanner :=
  match s.dropPlace with
  | none => none
  | some s =>
    let s := match s.places with
      | [] => s
      | p :: ps => { s with place := p, places := ps }
    some ({ s with keyAllowed := false, at_ := s.at_.next }.emit t)

def flowEntry (s : Scanner) : Option Scanner :=
  match s.dropPlace with
  | none => none
  | some s => some ({ s with keyAllowed := true, at_ := s.at_.next }.emit .flowEntry)

def blockEntry (s : Scanner) : Option Scanner :=
  if !s.inFlow && !s.keyAllowed then none
  else
    let s := s.roll s.at_.column s.count .blockSequenceStart
    match s.dropPlace with
    | none => none
    | some s => some ({ s with keyAllowed := true, at_ := s.at_.next }.emit .blockEntry)

def key (s : Scanner) : Option Scanner :=
  if !s.inFlow && !s.keyAllowed then none
  else
    let s := s.roll s.at_.column s.count .blockMappingStart
    match s.dropPlace with
    | none => none
    | some s => some ({ s with keyAllowed := !s.inFlow, at_ := s.at_.next }.emit .key)

def value (s : Scanner) : Option Scanner :=
  match s.place with
  | some p =>
    let s := (s.insertAt p.token .key).roll p.column p.token .blockMappingStart
    some ({ s with place := none, keyAllowed := false, at_ := s.at_.next }.emit .value)
  | none =>
    if !s.inFlow && !s.keyAllowed then none
    else
      let s := s.roll s.at_.column s.count .blockMappingStart
      some ({ s with keyAllowed := !s.inFlow, at_ := s.at_.next }.emit .value)

def atom (s : Scanner) (read : Scanner → Option (Token × Cursor × Bool)) : Option Scanner :=
  match s.savePlace with
  | none => none
  | some s =>
    match read s with
    | none => none
    | some (t, at_, keyAllowed) => some ({ s with at_, keyAllowed }.emit t)

def quoted (s : Scanner) (single : Bool) (fuel : Nat) : Option Scanner :=
  s.atom fun s =>
    let inside := s.at_.next
    let read := if single then readSingle inside.rest inside [] {} else readDouble fuel inside [] {}
    read.map fun (text, at_) => (.scalar .quoted text, at_, false)

def plain (s : Scanner) : Option Scanner :=
  s.atom fun s => (readPlain s.inFlow (s.indent + 1) s.at_.rest s.at_ [] {}).map
    fun (text, at_, broken) => (.scalar .plain text, at_, broken)

def named (s : Scanner) (token : String → Token) : Option Scanner :=
  s.atom fun s => (readName s.at_.next).map fun (name, at_) => (token name, at_, false)

def tag (s : Scanner) : Option Scanner :=
  s.atom fun s => (readTag s.inFlow s.at_).map
    fun (handle, suffix, at_) => (.tag handle suffix, at_, false)

def block (s : Scanner) (literal : Bool) (fuel : Nat) : Option Scanner :=
  match s.dropPlace with
  | none => none
  | some s => (readBlock literal s.indent fuel s.at_.next).map fun (text, at_) =>
    { s with at_, keyAllowed := true }.emit (.scalar (if literal then .literal else .quoted) text)

def directive (s : Scanner) : Option Scanner :=
  match (s.unroll (-1)).dropPlace with
  | none => none
  | some s => (Directive.read s.at_.next).map fun (d, at_) =>
    { s with at_, keyAllowed := false }.emit (.directive d)

def isIndicator (c : Char) : Bool :=
  ['-', '?', ':', ',', '[', ']', '\x7b', '\x7d', '#', '&', '*', '!', '|', '>', '\'', '"', '%', '@',
    '\x60'].contains c

/-- Whether a plain scalar starts with `c` before `rest`. -/
def startsPlain (s : Scanner) (c : Char) (rest : List Char) : Bool :=
  (!isBlank c && !isBreak c && !isIndicator c)
    || (c = '-' && !(rest.head?.elim false isBlank))
    || (!s.inFlow && (c = '?' || c = ':') && !blankAhead rest)

def token (s : Scanner) (c : Char) (rest : List Char) (fuel : Nat) : Option Scanner :=
  if s.at_.column = 0 && c = '%' then s.directive
  else if s.at_.column = 0 && markerAhead (c :: rest) then
    s.marker (if c = '-' then .documentStart else .documentEnd)
  else match c with
    | '[' => s.flowStart .flowSequenceStart
    | '\x7b' => s.flowStart .flowMappingStart
    | ']' => s.flowEnd .flowSequenceEnd
    | '\x7d' => s.flowEnd .flowMappingEnd
    | ',' => s.flowEntry
    | '*' => s.named .alias
    | '&' => s.named .anchor
    | '!' => s.tag
    | '\'' => s.quoted true fuel
    | '"' => s.quoted false fuel
    | _ =>
      if c = '-' && blankAhead rest then s.blockEntry
      else if c = '?' && (s.inFlow || blankAhead rest) then s.key
      else if c = ':' && (s.inFlow || blankAhead rest) then s.value
      else if (c = '|' || c = '>') && !s.inFlow then s.block (c = '|') fuel
      else if s.startsPlain c rest then s.plain
      else none

/-- The tokens of a text; each round takes at least one character. -/
def scan : Nat → Scanner → Option (List Token)
  | 0, _ => none
  | n + 1, s =>
    match (skipGap (n + 1) s).dropStale with
    | none => none
    | some s =>
      match s.at_.rest with
      | [] => (s.unroll (-1)).dropPlace.map (·.tokens.reverse)
      | c :: rest =>
        match (s.unroll s.at_.column).token c rest (n + 1) with
        | none => none
        | some s => scan n s

end Scanner

def tokens? (text : String) : Option (List Token) :=
  let cs := text.toList
  if cs.all isAllowed then
    let cs := normalizeBreaks cs
    Scanner.scan (cs.length + 1) { at_ := { rest := cs } }
  else none

end PointsTo.Yaml
