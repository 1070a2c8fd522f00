import PointsTo.Error

/-!
Files as a value. The places below the root are lists of names; a directory is there if it is listed
or if something is below it. A written path leads to a place step by step, and every step but the
last must lead to a directory.
-/
namespace PointsTo

structure FileTree where
  /-- How the path of the root is written. -/
  root : String
  /-- Files with their texts; a file whose bytes are no text has none. -/
  files : List (List String × Option String) := []
  dirs : List (List String) := []

namespace FileTree

/-- The names of a written path; blank names and single points stand for nothing. -/
def names (path : String) : List String :=
  (Text.split '/' path).filter fun name => name ≠ "" ∧ name ≠ "."

def join (base path : String) : String :=
  if path.startsWith "/" then path
  else if base.endsWith "/" then base ++ path
  else base ++ "/" ++ path

def addFile (t : FileTree) (path : String) (text : Option String) : FileTree :=
  { t with files := t.files ++ [(names path, text)] }

def addDir (t : FileTree) (path : String) : FileTree := { t with dirs := t.dirs ++ [names path] }

def isDir (t : FileTree) (place : List String) : Bool :=
  place.isEmpty || t.dirs.any place.isPrefixOf
    || t.files.any fun (file, _) => place.isPrefixOf file && file ≠ place

def isFile (t : FileTree) (place : List String) : Bool := t.files.any fun (file, _) => file == place

/-- The place to which the steps of a path lead from another place. Two points lead back, but not
out of the root. -/
def walk? (t : FileTree) (place : List String) : List String → Option (List String)
  | [] => some place
  | step :: rest =>
    if !t.isDir place then none
    else if step = "" ∨ step = "." then t.walk? place rest
    else if step = ".." then if place.isEmpty then none else t.walk? place.dropLast rest
    else t.walk? (place ++ [step]) rest

def place? (t : FileTree) (path : String) : Option (List String) :=
  match Text.split '/' path with
  | first :: rest => if first = t.root then t.walk? [] rest else none
  | [] => none

def readText (t : FileTree) (path : String) : Except ConfigError String :=
  match (t.place? path).bind fun place => t.files.lookup place with
  | some (some text) => .ok text
  | some none => .error (.io path "stream did not contain valid UTF-8")
  | none => .error (.io path "No such file or directory (os error 2)")

def placeLe : List String → List String → Bool
  | [], _ => true
  | _ :: _, [] => false
  | a :: as, b :: bs => if a = b then placeLe as bs else a < b

/-- The files below a directory in order, each by the names from there on. -/
def filesBelow (t : FileTree) (dir : List String) : List (List String) :=
  (((t.files.map (·.1)).filter dir.isPrefixOf).map (·.drop dir.length)).mergeSort placeLe

/-- The paths of the files that a path stands for: the file itself, or the wanted files below a
directory; none if it leads nowhere. -/
def filesAt? (t : FileTree) (wanted : String → Bool) (path : String) : Option (List String) :=
  match t.place? path with
  | none => none
  | some place =>
    if t.isFile place then some [path]
    else if t.isDir place then
      some (((t.filesBelow place).map fun names => join path (Text.join "/" names)).filter wanted)
    else none

/-- What follows the last point of the last name; a point at its beginning does not count. -/
def extension? (path : String) : Option String :=
  match (names path).getLast? with
  | none => none
  | some name =>
    match (Text.split '.' name).reverse with
    | last :: before => if before.isEmpty || before = [""] then none else some last
    | [] => none

end FileTree

end PointsTo
